import Std.Data.TreeMap
import Tac.Program
import Tac.Text.Blank
import Tac.Text.Quoted

/-!
# Reading program text

Program text is read line by line.  What follows a double slash is a comment; a comment
`// builtin NAME` inside a function names the hand-written implementation of that function.
Outside functions a line declares or initialises a global, or opens a function.  Inside, it declares
a temporary or a local, is one statement, or closes the function.  Arguments of a call stand on
`param` lines right before it.

The kind of a line is decided by its number of words and by its keywords.  The first bad line stops
the reader; the error names the file, the line and the cause.
-/

namespace Tac

/-- What is wrong with a line. -/
inductive ReadCause where
  | unexpected (words : List String)
  | badHeader
  | negativeParamCount (n : Int)
  | badDeclaration
  | badArraySize (n : Int)
  | badVariableName (word : String)
  | badTempName (word : String)
  | tempRedeclared (word : String)
  | paramWithoutCall
  | expectedEnd (func : String)
  | notTerminated (func : String)
  | badLabel (word : String)
  | notLocalArray (word : String)
  | badUnaryOperator (word : String)
  | badBinaryOperator (word : String)
  | divisionByZero (words : List String)
  | badConditional
  | badRelation (word : String)
  | undeclaredTemp (word : String)
  | noSuchParameter (word : String)
  | undefined (word : String)
  | undefinedGlobal (word : String)
  | expectedIndex (word : String)
  | badInteger (word : String)
deriving DecidableEq, Repr

/-- The wording of a cause. -/
def ReadCause.text : ReadCause → String
  | unexpected ws => "unexpected " ++ Text.quote (" ".intercalate ws)
  | badHeader => "bad function header"
  | negativeParamCount n => "negative parameter count: " ++ Text.decimal n
  | badDeclaration => "bad declaration"
  | badArraySize n => "bad array size: " ++ Text.decimal n
  | badVariableName w => "bad variable name: " ++ Text.quote w
  | badTempName w => "bad temp name: " ++ Text.quote w
  | tempRedeclared w => "temp redeclared: " ++ w
  | paramWithoutCall => "param not followed by call"
  | expectedEnd f => "expected end f_" ++ f
  | notTerminated f => "function f_" ++ f ++ " is not terminated"
  | badLabel w => "bad label: " ++ Text.quote w
  | notLocalArray w => "fillzero of not a local array: " ++ w
  | badUnaryOperator w => "bad unary operator: " ++ Text.quote w
  | badBinaryOperator w => "unsupported binary operator: " ++ Text.quote w
  | divisionByZero ws => "division by zero: " ++ Text.quote (" ".intercalate ws)
  | badConditional => "bad conditional goto"
  | badRelation w => "bad relation: " ++ Text.quote w
  | undeclaredTemp w => "undeclared temp: " ++ w
  | noSuchParameter w => "no such parameter: " ++ w
  | undefined w => "undefined: " ++ Text.quote w
  | undefinedGlobal w => "undefined global: " ++ Text.quote w
  | expectedIndex w => "expected [N], got " ++ Text.quote w
  | badInteger w => "bad integer: " ++ Text.quote w

/-- A refused text: where and why. -/
structure ReadError where
  file : String
  line : Nat
  cause : ReadCause
deriving DecidableEq, Repr

/-- The message of a refused text. -/
def ReadError.message (e : ReadError) : String :=
  e.file ++ ":" ++ Text.decimal e.line ++ ": " ++ e.cause.text

namespace Program.Reader

/-- The function being read. -/
structure Draft where
  name : String
  params : Array VarId := #[]
  void : Bool := true
  locals : Array VarId := #[]
  temps : Array Int := #[]
  stmts : Array Stmt := #[]
  builtin : Option String := none
  /-- Locals by index; a later declaration hides an earlier one. -/
  scope : Std.TreeMap Int VarId := {}
  /-- The declared temporaries. -/
  declared : Std.TreeMap Int Unit := {}
  /-- Arguments waiting for their call. -/
  pending : Array Val := #[]

/-- The finished function. -/
def Draft.finish (d : Draft) : Func where
  name := d.name
  void := d.void
  params := d.params.toList
  locals := d.locals.toList
  temps := d.temps.toList
  stmts := d.stmts.toList
  builtin := d.builtin

/-- Everything read so far outside the current function. -/
structure Outer where
  vars : VarTable := #[]
  globals : Array VarId := #[]
  inits : Array Init := #[]
  funcs : Array Func := #[]
  /-- Globals by index; a later declaration hides an earlier one. -/
  scope : Std.TreeMap Int VarId := {}
  /-- One above the highest numbers seen. -/
  high : Counters := {}

/-- The program of what was read. -/
def Outer.finish (o : Outer) : Program where
  vars := o.vars
  globals := o.globals.toList
  inits := o.inits.toList
  funcs := o.funcs.toList
  counters := o.high

/-- The reader between two lines: inside or outside a function. -/
structure State where
  outer : Outer := {}
  draft : Option Draft := none

/-! ## Words -/

/-- A number behind a marker letter, as in `T12`; 64-bit and not negative. -/
def numbered? (marker : Char) (word : String) : Option Int :=
  match word.toList with
  | c :: cs =>
    if c = marker then (Text.readInt? 64 cs).filter fun n => decide (0 ≤ n) else none
  | [] => none

/-- The text between brackets, when it is not empty. -/
def bracketed? (word : String) : Option (List Char) :=
  match word.toList with
  | '[' :: c :: cs => if (c :: cs).getLast? = some ']' ∧ cs ≠ [] then some (c :: cs).dropLast else none
  | _ => none

/-- A 32-bit constant. -/
def readConst (word : String) : Except ReadCause Int :=
  match Text.readInt? 32 word.toList with
  | some n => .ok n
  | none => .error (.badInteger word)

/-- A 32-bit constant between brackets. -/
def readIndex (word : String) : Except ReadCause Int :=
  match bracketed? word with
  | none => .error (.expectedIndex word)
  | some cs =>
    match Text.readInt? 32 cs with
    | some n => .ok n
    | none => .error (.badInteger (String.ofList cs))

/-- A label name. -/
def readLabel (word : String) : Except ReadCause Int :=
  match numbered? 'l' word with
  | some n => .ok n
  | none => .error (.badLabel word)

/-- The name after the function marker, which may be missing. -/
def funcName (word : String) : String := String.ofList (Text.stripStart ['f', '_'] word.toList)

/-- A variable or temporary.  Locals hide globals. -/
def readPlace (o : Outer) (d : Draft) (word : String) : Except ReadCause Val :=
  match numbered? 't' word, numbered? 'p' word, numbered? 'T' word with
  | some n, _, _ =>
    if d.declared.contains n then .ok (.temp n) else .error (.undeclaredTemp word)
  | none, some n, _ =>
    match d.params[n.toNat]? with
    | some id => .ok (.var id)
    | none => .error (.noSuchParameter word)
  | none, none, some n =>
    match d.scope[n]?, o.scope[n]? with
    | some id, _ => .ok (.var id)
    | none, some id => .ok (.var id)
    | none, none => .error (.undefined word)
  | none, none, none => .error (.undefined word)

/-- An operand: a constant or a place. -/
def readVal (o : Outer) (d : Draft) (word : String) : Except ReadCause Val :=
  match Text.readInt? 32 word.toList with
  | some n => .ok (.const n)
  | none => readPlace o d word

/-! ## Lines outside functions -/

/-- The shape and index of a declaration, from the words after `var`. -/
def readDecl (ws : List String) : Except ReadCause (String × Int × Option (List Int)) := do
  let (size, name) ← match ws with
    | [name] => pure (none, name)
    | [size, name] =>
      let n ← readConst size
      if n ≤ 0 ∨ n % 4 ≠ 0 then .error (.badArraySize n) else pure (some [n / 4], name)
    | _ => .error .badDeclaration
  match numbered? 'T' name with
  | some n => pure (name, n, size)
  | none => .error (.badVariableName name)

/-- Adds a declared variable to the table and counts its index. -/
def Outer.declare (o : Outer) (v : Var) : Outer :=
  { o with vars := o.vars.push v
           high := { o.high with vars := max o.high.vars (wrap64 (v.index + 1)) } }

/-- Counts a label that occurs in a line. -/
def Outer.sawLabel (o : Outer) (l : Int) : Outer :=
  { o with high := { o.high with labels := max o.high.labels (wrap64 (l + 1)) } }

/-- Counts a declared temporary. -/
def Outer.sawTemp (o : Outer) (t : Int) : Outer :=
  { o with high := { o.high with temps := max o.high.temps (wrap64 (t + 1)) } }

/-- The global behind a name. -/
def readGlobal (o : Outer) (word : String) : Except ReadCause VarId :=
  match (numbered? 'T' word).bind fun n => o.scope[n]? with
  | some id => .ok id
  | none => .error (.undefinedGlobal word)

/-- Parameter `i` of a function that is read from text. -/
def paramVar (i : Nat) : Var where
  name := "p" ++ Text.decimal i
  cls := .arg
  index := i
  dims := none

/-- The table with the parameters of a new function, and their positions. -/
def addParams (vars : VarTable) (count : Nat) : VarTable × Array VarId :=
  (vars ++ (Array.range count).map paramVar,
    (Array.range count).map fun i => ((vars.size + i : Nat) : VarId))

/-- Opens a function: its name and its parameter count between brackets. -/
def readHeader (o : Outer) (ws : List String) : Except ReadCause State := do
  match ws with
  | [name, count] =>
    let argc ← readIndex count
    if argc < 0 then .error (.negativeParamCount argc)
    else
      let (vars, params) := addParams o.vars argc.toNat
      pure { outer := { o with vars }, draft := some { name := funcName name, params } }
  | _ => .error .badHeader

/-- A line outside functions. -/
def readOuter (o : Outer) (ws : List String) : Except ReadCause State := do
  match ws with
  | "var" :: rest =>
    let (name, index, dims) ← readDecl rest
    let id : VarId := o.vars.size
    let o := o.declare { name, cls := .global, index, dims }
    pure { outer := { o with globals := o.globals.push id, scope := o.scope.insert index id } }
  | head :: rest =>
    if ['f', '_'].isPrefixOf head.toList then readHeader o ws
    else match rest with
      | ["=", value] =>
        let var ← readGlobal o head
        let val ← readConst value
        pure { outer := { o with inits := o.inits.push { var, off := -1, val } } }
      | [index, "=", value] =>
        let var ← readGlobal o head
        let off ← readIndex index
        let val ← readConst value
        pure { outer := { o with inits := o.inits.push { var, off, val } } }
      | _ => .error (.unexpected ws)
  | [] => .error (.unexpected ws)

/-! ## Lines inside functions -/

/-- The function with one more statement. -/
def Draft.push (d : Draft) (s : Stmt) : Draft := { d with stmts := d.stmts.push s }

/-- The function with a call that takes the waiting arguments. -/
def Draft.pushCall (d : Draft) (ret : Option Val) (word : String) : Draft :=
  { d.push (.call ret (funcName word) d.pending.toList) with pending := #[] }

/-- Adds a statement and stays inside the function. -/
def within (o : Outer) (d : Draft) (s : Stmt) : State := { outer := o, draft := some (d.push s) }

/-- A binary right-hand side. -/
def readBinary (o : Outer) (d : Draft) (ws : List String) (dst : Val) (l op r : String) :
    Except ReadCause Stmt := do
  match BinOp.parse? op with
  | none => .error (.badBinaryOperator op)
  | some bop =>
    if bop.isLogical then .error (.badBinaryOperator op)
    else
      let lv ← readVal o d l
      let rv ← readVal o d r
      if (bop = .div ∨ bop = .mod) ∧ rv = .const 0 then .error (.divisionByZero ws)
      else pure (.binary dst lv bop rv)

/-- An assignment `place = …`; `ws` is the whole line. -/
def readAssign (o : Outer) (d : Draft) (ws : List String) (place : String) (rhs : List String) :
    Except ReadCause State := do
  let dst ← readPlace o d place
  match rhs with
  | [src] =>
    let s ← readVal o d src
    pure (within o d (.move dst s))
  | ["call", callee] => pure { outer := o, draft := some (d.pushCall (some dst) callee) }
  | [x, y] =>
    if (bracketed? y).isSome then
      let base ← readVal o d x
      let off ← readIndex y
      pure (within o d (.load dst base off))
    else match UnOp.parse? x with
      | none => .error (.badUnaryOperator x)
      | some .plus =>
        let v ← readVal o d y
        pure (within o d (.move dst v))
      | some op =>
        let v ← readVal o d y
        pure (within o d (.unary dst op v))
  | [l, op, r] =>
    let s ← readBinary o d ws dst l op r
    pure (within o d s)
  | _ => .error (.unexpected ws)

/-- A conditional jump; `ws` is what follows the keyword. -/
def readBranch (o : Outer) (d : Draft) (ws : List String) : Except ReadCause State := do
  match ws with
  | [l, rel, r, "goto", target] =>
    match Rel.parse? rel with
    | none => .error (.badRelation rel)
    | some rel =>
      let lv ← readVal o d l
      let rv ← readVal o d r
      let t ← readLabel target
      pure (within (o.sawLabel t) d (.branch lv rel rv t))
  | _ => .error .badConditional

/-- A declaration inside a function; `ws` is what follows the keyword. -/
def readInnerDecl (o : Outer) (d : Draft) (ws : List String) : Except ReadCause State := do
  let asLocal : Except ReadCause State := do
    let (name, index, dims) ← readDecl ws
    let id : VarId := o.vars.size
    pure { outer := o.declare { name, cls := .loc, index, dims },
           draft := some { d with locals := d.locals.push id, scope := d.scope.insert index id } }
  match ws with
  | [name] =>
    if ['t'].isPrefixOf name.toList then
      match numbered? 't' name with
      | none => .error (.badTempName name)
      | some n =>
        if d.declared.contains n then .error (.tempRedeclared name)
        else pure { outer := o.sawTemp n,
                    draft := some { d with temps := d.temps.push n, declared := d.declared.insert n () } }
    else asLocal
  | _ => asLocal

/-- Whether a line may follow a `param` line: another one, or a call. -/
def continuesCall (ws : List String) : Bool :=
  match ws with
  | "param" :: _ => true
  | "call" :: _ => true
  | _ :: _ :: "call" :: _ => true
  | _ => false

/-- The zero-fill statement, for local arrays only. -/
def readZeroFill (o : Outer) (d : Draft) (word : String) : Except ReadCause State := do
  let v ← readPlace o d word
  let isLocalArray : Bool := match v with
    | .var id => (o.vars.get? id).any fun x => x.cls == .loc && x.isArray
    | _ => false
  if isLocalArray then pure (within o d (.zeroFill v)) else .error (.notLocalArray word)

/-- Lines that are told by the place of their equal sign. -/
def readByShape (o : Outer) (d : Draft) (ws : List String) : Except ReadCause State := do
  match ws with
  | [base, index, "=", src] =>
    if (bracketed? index).isSome then
      let b ← readPlace o d base
      let off ← readIndex index
      let s ← readVal o d src
      pure (within o d (.store b off s))
    else if index = "=" then readAssign o d ws base ["=", src]
    else .error (.unexpected ws)
  | place :: "=" :: r :: rhs => readAssign o d ws place (r :: rhs)
  | _ => .error (.unexpected ws)

/-- A line inside a function. -/
def readInner (o : Outer) (d : Draft) (ws : List String) : Except ReadCause State := do
  if !d.pending.isEmpty && !continuesCall ws then .error .paramWithoutCall
  else match ws with
  | "end" :: rest =>
    if rest = ["f_" ++ d.name] then pure { outer := { o with funcs := o.funcs.push d.finish } }
    else .error (.expectedEnd d.name)
  | "var" :: rest => readInnerDecl o d rest
  | "if" :: rest => readBranch o d rest
  | ["return"] => pure (within o d (.ret none))
  | [word] =>
    if word.toList.getLast? = some ':' then
      let l ← readLabel (String.ofList word.toList.dropLast)
      pure (within (o.sawLabel l) d (.label l))
    else .error (.unexpected ws)
  | ["goto", word] =>
    let l ← readLabel word
    pure (within (o.sawLabel l) d (.jump l))
  | ["param", word] =>
    let v ← readVal o d word
    pure { outer := o, draft := some { d with pending := d.pending.push v } }
  | ["call", word] => pure { outer := o, draft := some (d.pushCall none word) }
  | ["return", word] =>
    let v ← readVal o d word
    pure (within o { d with void := false } (.ret (some v)))
  | ["fillzero", word] => readZeroFill o d word
  | _ => readByShape o d ws

/-! ## The text -/

/-- The implementation that a comment names. -/
def builtinMark? (comment : Option (List Char)) : Option String :=
  match comment.map Text.words with
  | some ["builtin", name] => some name
  | _ => none

/-- One line. -/
def readLine (st : State) (cs : List Char) : Except ReadCause State :=
  let (code, comment) := Text.splitComment cs
  match Text.words code, st.draft with
  | [], none => .ok st
  | ws, none => readOuter st.outer ws
  | ws, some d =>
    let d := match builtinMark? comment with
      | some name => { d with builtin := some name }
      | none => d
    if ws.isEmpty then .ok { st with draft := some d } else readInner st.outer d ws

/-- The lines from number `n` on. -/
def readLines (file : String) : Nat → State → List (List Char) → Except ReadError State
  | _, st, [] => .ok st
  | n, st, l :: ls =>
    match readLine st l with
    | .error cause => .error { file, line := n, cause }
    | .ok st => readLines file (n + 1) st ls

end Program.Reader

open Program.Reader in
/-- Reads program text; `file` is the name that messages use. -/
def Program.parse (file : String) (text : String) : Except ReadError Program := do
  let ls := Text.lines text.toList
  let st ← readLines file 1 {} ls
  match st.draft with
  | some d => .error { file, line := ls.length, cause := .notTerminated d.name }
  | none => pure st.outer.finish

end Tac
