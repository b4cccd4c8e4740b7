import Tac.Builtin
import Tac.Storage

/-!
# Lowering

Statements of a placed function become instructions, each statement on its own.  Operands that are
not in registers pass through two scratch registers: constants, globals, spilled values and array
addresses are fetched into one, and results bound for memory are computed in the first and stored
from there.  A statement whose result nobody reads leaves no code, unless it is a call.

A call saves the live registers that it destroys in the frame, moves the arguments into place,
fetches an argument from its saved copy when an earlier one overwrote its register, takes the result
from the result register and restores what was saved.

Initial values of global arrays are stored by code at the start of `main`.  The name should occur
once; bodies of further functions of the name share the storage of that code while they fit behind
it, so that a later one covers an earlier one.
-/

namespace Tac

/-- Why a statement could not be lowered. -/
inductive LowerError where
  | undefinedCallee (e : UndefinedCallee)
  | tooManyArguments (func callee : String) (count : Nat)
  | noLocation (node : VReg)
  | noArgumentLocation (node : VReg)
  | argumentNotSaved (node : VReg) (reg : Reg)
  | destinationNotAllocated (node : VReg)
  | constantDestination (n : Int)
  | badDestination (name : String)
  | noArrayLocation (name : String)
  /-- An operand cannot be looked up, or a zero fill names no variable. -/
  | malformed
deriving DecidableEq, Repr

namespace LowerError

/-- Whether the error is a fault of the compiled program, not of the compiler. -/
def isUser : LowerError → Bool
  | undefinedCallee _ | tooManyArguments .. => true
  | _ => false

/-- The wording of an error. -/
def text : LowerError → String
  | undefinedCallee e => e.text
  | tooManyArguments f g n =>
    "func " ++ f ++ ": too many arguments to " ++ g ++ ": " ++ Text.decimal n
  | noLocation u => "internal error: no location for " ++ VReg.text u
  | noArgumentLocation u => "internal error: no location for argument " ++ VReg.text u
  | argumentNotSaved u r =>
    "internal error: argument " ++ VReg.text u ++ " in " ++ r.name ++ " is not saved"
  | destinationNotAllocated u =>
    "internal error: destination " ++ VReg.text u ++ " is not allocated"
  | constantDestination n => "internal error: constant destination: " ++ Text.decimal n
  | badDestination x => "internal error: bad destination: " ++ x
  | noArrayLocation x => "internal error: no location for array " ++ x
  | malformed => ""

end LowerError

/-- A lowering step: instructions or an error. -/
abbrev Lowered := Except LowerError

namespace Lowering

/-- What statements of a function are lowered under. -/
structure Context where
  vars : VarTable
  sets : ClobberSets
  placed : Placement

/-- Zero fills of up to this many words are unrolled. -/
def unrollLimit : Int := 16

/-! ## Operands -/

/-- Makes a value available in a register; what is not in one is fetched into `scratch`.  Zero is
read from `x0`, arrays give their address. -/
def fetch (cx : Context) (scratch : Reg) (v : Val) : Lowered (List Instr × Reg) :=
  match v with
  | .const n => if n = 0 then .ok ([], Reg.x0) else .ok ([.imm scratch n], scratch)
  | v =>
    match cx.vars.vreg? v with
    | some u =>
      match cx.placed.locs[u]? with
      | none => .error (.noLocation u)
      | some (.stack slot _) => .ok ([.loadStack scratch slot], scratch)
      | some (.reg r) => .ok ([], r)
    | none =>
      match v with
      | .var id =>
        match cx.vars.get? id with
        | none => .error .malformed
        | some x =>
          match x.cls, x.isArray with
          | .global, true => .ok ([.addrGlobal scratch x.index], scratch)
          | .global, false => .ok ([.loadGlobal scratch x.index], scratch)
          | _, _ =>
            match cx.placed.arrays[id]? with
            | none => .error (.noArrayLocation x.text)
            | some l => .ok ([.addrStack scratch l.slot], scratch)
      | _ => .error .malformed

/-- The register to compute a destination in. -/
def target (cx : Context) (v : Val) : Lowered Reg :=
  match cx.vars.vreg? v with
  | some u =>
    match cx.placed.locs[u]? with
    | none => .error (.destinationNotAllocated u)
    | some (.stack ..) => .ok Reg.scratch0
    | some (.reg r) => .ok r
  | none =>
    match v with
    | .const n => .error (.constantDestination n)
    | .temp _ => .error .malformed
    | .var id =>
      match cx.vars.get? id with
      | none => .error .malformed
      | some x =>
        if x.cls = .global ∧ !x.isArray then .ok Reg.scratch0 else .error (.badDestination x.text)

/-- Puts a computed result from register `r` into its place in memory, if it has one. -/
def finish (cx : Context) (v : Val) (r : Reg) : List Instr :=
  match cx.vars.vreg? v with
  | some u =>
    match cx.placed.locs[u]? with
    | some (.stack slot _) => [.storeStack r slot]
    | _ => []
  | none =>
    match v with
    | .var id =>
      match cx.vars.get? id with
      | some x => [.addrGlobal Reg.scratch1 x.index, .store Reg.scratch1 0 r]
      | none => []
    | _ => []

/-- A base register and an offset that fits an instruction. -/
def address (cx : Context) (v : Val) (off : Int) : Lowered (List Instr × Reg × Int) := do
  let (code, base) ← fetch cx Reg.scratch0 v
  if immOverflows off then
    pure (code ++ [.imm Reg.scratch1 off, .binary Reg.scratch0 .add base Reg.scratch1],
      Reg.scratch0, 0)
  else pure (code, base, off)

/-- Whether nobody reads the value that statement `i` writes to an operand. -/
def unread (cx : Context) (i : Nat) (v : Val) : Bool :=
  (cx.vars.vreg? v).any fun u => !(cx.placed.meet.getD i BitSet.empty).contains u

/-- Whether statement `i` leaves no code because nobody reads its result. -/
def elided (cx : Context) (i : Nat) (s : Stmt) : Bool :=
  s.callee?.isNone && s.dst?.any (unread cx i)

/-! ## Arithmetic -/

/-- The exponent of a power of two up to 2^30. -/
def log2? (c : Int) : Option Nat :=
  (List.range 31).find? fun k => (Nat.pow 2 k : Int) == c

/-- The operator applied to a register and a constant in one instruction, if there is one. -/
def byConstant? (d x : Reg) (op : BinOp) (c : Int) : Option Instr :=
  match op with
  | .add => if immOverflows c then none else some (.addImm d x c)
  | .sub => if immOverflows (wrap64 (-c)) then none else some (.addImm d x (wrap64 (-c)))
  | .mul => (log2? c).map fun k => .shift d x .left k
  | .div => (log2? c).map fun k => if k = 0 then .move d x else .divPow2 d x k
  | _ => none

/-- The operands with a constant on the right, where the operator commutes. -/
def orient (op : BinOp) (l r : Val) : Val × Val :=
  if l.isConst && !r.isConst && (op = .add || op = .mul) then (r, l) else (l, r)

/-- A binary statement. -/
def binary (cx : Context) (dst l : Val) (op : BinOp) (r : Val) : Lowered (List Instr) := do
  let d ← target cx dst
  let (l, r) := orient op l r
  let (code, x) ← fetch cx Reg.scratch0 l
  let short := if l.isConst then none else r.const?.bind (byConstant? d x op)
  match short with
  | some instr => pure (code ++ [instr] ++ finish cx dst d)
  | none =>
    let (more, y) ← fetch cx Reg.scratch1 r
    pure (code ++ more ++ [.binary d op x y] ++ finish cx dst d)

/-- A unary statement. -/
def unary (cx : Context) (dst : Val) (op : UnOp) (v : Val) : Lowered (List Instr) := do
  let (code, x) ← fetch cx Reg.scratch1 v
  let d ← target cx dst
  let instr := match op with
    | .plus => Instr.move d x
    | op => .unary d op x
  pure (code ++ [instr] ++ finish cx dst d)

/-- Puts an operand into a given register. -/
def moveInto (cx : Context) (d : Reg) (v : Val) : Lowered (List Instr) := do
  match v with
  | .const n => pure [.imm d n]
  | v =>
    let (code, x) ← fetch cx Reg.scratch1 v
    pure (code ++ [.move d x])

/-- A move statement. -/
def move (cx : Context) (dst src : Val) : Lowered (List Instr) := do
  let d ← target cx dst
  let code ← moveInto cx d src
  pure (code ++ finish cx dst d)

/-- An array store. -/
def store (cx : Context) (base : Val) (off : Int) (src : Val) : Lowered (List Instr) := do
  let (code, b, off) ← address cx base off
  let (more, x) ← fetch cx Reg.scratch1 src
  pure (code ++ more ++ [.store b off x])

/-- An array load. -/
def load (cx : Context) (dst base : Val) (off : Int) : Lowered (List Instr) := do
  let (code, b, off) ← address cx base off
  let d ← target cx dst
  pure (code ++ [.load d b off] ++ finish cx dst d)

/-- A conditional jump. -/
def branch (cx : Context) (l : Val) (rel : Rel) (r : Val) (label : Int) : Lowered (List Instr) := do
  let (code, x) ← fetch cx Reg.scratch0 l
  let (more, y) ← fetch cx Reg.scratch1 r
  pure (code ++ more ++ [.branch x y rel label])

/-! ## Calls -/

/-- The frame slot of the register saved as number `k`. -/
def saveSlot (cx : Context) (k : Nat) : Int := wrap64 (cx.placed.spillSize + k)

/-- Saves registers in the frame. -/
def saveCode (cx : Context) (saved : List Reg) : List Instr :=
  saved.zipIdx.map fun (r, k) => .storeStack r (saveSlot cx k)

/-- Restores saved registers, except the one that holds the result. -/
def restoreCode (cx : Context) (saved : List Reg) (result : Option Reg) : List Instr :=
  (saved.zipIdx.filter fun (r, _) => some r ≠ result).map fun (r, k) =>
    .loadStack r (saveSlot cx k)

/-- Puts argument `k` into its register `dst`.  Argument registers below it are already
overwritten, so a value that was in one is taken from its saved copy. -/
def passArg (cx : Context) (saved : List Reg) (k : Nat) (dst : Reg) (v : Val) :
    Lowered (List Instr) :=
  match v with
  | .const n => .ok [.imm dst n]
  | v =>
    match cx.vars.vreg? v with
    | none => moveInto cx dst v
    | some u =>
      match cx.placed.locs[u]? with
      | none => .error (.noArgumentLocation u)
      | some (.reg r) =>
        if (Reg.argIndex? r).any (· < k) then
          match saved.idxOf? r with
          | some j => .ok [.loadStack dst (saveSlot cx j)]
          | none => .error (.argumentNotSaved u r)
        else moveInto cx dst v
      | some _ => moveInto cx dst v

/-- Puts the arguments from number `k` on into their registers. -/
def passArgs (cx : Context) (saved : List Reg) : Nat → List Val → Lowered (List Instr)
  | _, [] => .ok []
  | k, v :: vs => do
    let code ← passArg cx saved k (Reg.a k) v
    let rest ← passArgs cx saved (k + 1) vs
    pure (code ++ rest)

/-- Takes the result to its place. -/
def takeResult (cx : Context) (v : Val) : Lowered (List Instr) := do
  let d ← target cx v
  pure (.move d (Reg.a 0) :: finish cx v d)

/-- The register in which a result lives. -/
def resultReg? (cx : Context) (v : Val) : Option Reg :=
  ((cx.vars.vreg? v).bind fun u => cx.placed.locs[u]?).bind Loc.reg?

/-- A call at statement `i`. -/
def call (cx : Context) (i : Nat) (ret : Option Val) (callee : String) (args : List Val) :
    Lowered (List Instr) := do
  match cx.sets[callee]? with
  | none => .error (.undefinedCallee { func := cx.placed.func.name, callee })
  | some destroy =>
    if Reg.argCount < args.length then
      .error (.tooManyArguments cx.placed.func.name callee args.length)
    else
      let saved := Clobber.saved cx.placed i destroy
      let pass ← passArgs cx saved 0 args
      let wanted := ret.filter fun v => !unread cx i v
      let result ← match wanted with
        | some v => takeResult cx v
        | none => pure []
      pure (saveCode cx saved ++ pass ++ [.call callee] ++ result ++
        restoreCode cx saved (wanted.bind (resultReg? cx)))

/-! ## Zero fills -/

/-- Whether a zero fill is short enough to be unrolled. -/
def unrolls (slot span : Int) : Bool :=
  span ≤ unrollLimit && !immOverflows (wrap64 (4 * wrap64 (slot + span)))

/-- A loop that zeroes `span` words from word `slot` of the frame. -/
def zeroLoop (loop slot span : Int) : List Instr :=
  let p := Reg.scratch0
  let stop := Reg.scratch1
  let size := wrap64 (4 * span)
  [Instr.addrStack p slot] ++
    (if immOverflows size then [.imm stop size, .binary stop .add p stop]
      else [.addImm stop p size]) ++
    [.label loop, .store p 0 Reg.x0, .addImm p p 4, .branch p stop .lt loop]

/-- Zeroes a local array; a loop takes the label `loop`. -/
def zeroFill (cx : Context) (loop : Int) (v : Val) : Lowered (List Instr) :=
  match v with
  | .var id =>
    match cx.placed.arrays[id]? with
    | none =>
      match cx.vars.get? id with
      | some x => .error (.noArrayLocation x.text)
      | none => .error .malformed
    | some l =>
      if unrolls l.slot l.span then
        .ok ((List.range l.span.toNat).map fun (k : Nat) =>
          .storeStack Reg.x0 (wrap64 (l.slot + k)))
      else .ok (zeroLoop loop l.slot l.span)
  | _ => .error .malformed

/-- Whether the code of a statement needs a new label. -/
def drawsLabel (cx : Context) : Stmt → Bool
  | .zeroFill (.var id) => (cx.placed.arrays[id]?).any fun l => !unrolls l.slot l.span
  | _ => false

/-! ## Statements and functions -/

/-- The code of a return. -/
def ret (cx : Context) (v : Option Val) : Lowered (List Instr) := do
  match v with
  | none => pure [.ret]
  | some v =>
    let code ← moveInto cx (Reg.a 0) v
    pure (code ++ [.ret])

/-- The code of statement `i`; `fresh` is the label it may draw. -/
def stmt (cx : Context) (fresh : Int) (i : Nat) (s : Stmt) : Lowered (List Instr) :=
  if elided cx i s then .ok []
  else match s with
    | .binary d l op r => binary cx d l op r
    | .unary d op x => unary cx d op x
    | .move d x => move cx d x
    | .store b off x => store cx b off x
    | .load d b off => load cx d b off
    | .branch l rel r t => branch cx l rel r t
    | .jump l => .ok [.jump l]
    | .label l => .ok [.label l]
    | .call r f args => call cx i r f args
    | .ret v => ret cx v
    | .zeroFill a => zeroFill cx fresh a

/-- The counters after the code of a statement. -/
def advance (cx : Context) (c : Counters) (s : Stmt) : Counters :=
  if drawsLabel cx s then c.nextLabel else c

/-- The code of the statements from number `i` on; an error comes with its statement. -/
def stmts (cx : Context) : Counters → Nat → List Stmt →
    Except (Nat × LowerError) (List Instr × Counters)
  | c, _, [] => .ok ([], c)
  | c, i, s :: ss =>
    match stmt cx c.labels i s with
    | .error e => .error (i, e)
    | .ok code =>
      match stmts cx (advance cx c s) (i + 1) ss with
      | .error e => .error e
      | .ok (rest, c) => .ok (code ++ rest, c)

/-- The code of a function. -/
def func (cx : Context) (c : Counters) : Except (Nat × LowerError) (CodeFunc × Counters) :=
  match stmts cx c 0 cx.placed.func.stmts with
  | .error e => .error e
  | .ok (body, c) =>
    .ok ({ name := cx.placed.func.name
           params := cx.placed.func.params.length
           stack := wrap64 (cx.placed.spillSize + Clobber.callerSave cx.sets cx.placed)
           body }, c)

end Lowering

/-! ## Programs -/

/-- Why a program could not be lowered. -/
inductive LowerFailure where
  | stmt (func : String) (index : Nat) (e : LowerError)
  | unknownBuiltin (func pattern : String)
  | needsMain
  /-- A global cannot be looked up. -/
  | malformed
deriving DecidableEq, Repr

/-- The message of a program that could not be lowered. -/
def LowerFailure.message : LowerFailure → String
  | stmt f i e => "func " ++ f ++ ": stmt " ++ Text.decimal i ++ ": " ++ e.text
  | unknownBuiltin f b => "func " ++ f ++ ": " ++ Builtin.unknownMessage b
  | needsMain => "global array initializers need main function"
  | malformed => ""

namespace Lowering

/-- A global variable of the machine: of several scalar initial values the last counts. -/
def globalVar (p : Program) (id : VarId) (v : Var) : GlobalVar where
  index := v.index
  array := v.isArray
  words := v.elems
  init := ((p.inits.filter fun i => i.var = id ∧ i.off < 0).getLast?.map Init.val).getD 0

/-- The initial values of a global array that need code, by ascending offset. -/
def arrayInits (p : Program) (id : VarId) : List Init :=
  (p.inits.filter fun i => i.var = id ∧ 0 ≤ i.off ∧ i.val ≠ 0).mergeSort fun a b => a.off ≤ b.off

/-- Stores initial values relative to a moving base, piece by piece: `base` is the offset that the
base register stands at. -/
def initPieces (base : Int) : List Init → List (List Instr)
  | [] => []
  | i :: is =>
    let delta := wrap64 (i.off - base)
    if immOverflows delta then
      [.imm Reg.scratch0 delta, .binary Reg.scratch1 .add Reg.scratch1 Reg.scratch0] ::
        [.imm Reg.scratch0 i.val, .store Reg.scratch1 0 Reg.scratch0] :: initPieces i.off is
    else [.imm Reg.scratch0 i.val, .store Reg.scratch1 delta Reg.scratch0] :: initPieces base is

/-- The code that stores the initial values of one global array, piece by piece. -/
def arrayPieces (p : Program) (id : VarId) (v : Var) : List (List Instr) :=
  match arrayInits p id with
  | [] => []
  | is => [.addrGlobal Reg.scratch1 v.index] :: initPieces 0 is

/-- The globals with their variables, if all can be looked up. -/
def globals? (p : Program) : Option (List (VarId × Var)) :=
  p.globals.mapM fun id => (p.vars.get? id).map fun v => (id, v)

/-- The code at the start of `main`, and how many instructions fit behind it in its storage. -/
structure Entry where
  code : List Instr
  room : Nat

/-- The code that stores all initial values of global arrays. -/
def entry (p : Program) (gs : List (VarId × Var)) : Entry :=
  let pieces := gs.flatMap fun (id, v) => arrayPieces p id v
  { code := pieces.flatten, room := (Storage.extent (pieces.map List.length)).room }

namespace Entry

/-- What a place holds after code is written over what it held: code that is longer stays beyond the
end of what covers it. -/
def overlay (old new : List Instr) : List Instr := new ++ old.drop new.length

/-- What stands behind the entry code after all bodies that fit there have been written. -/
def tail (e : Entry) (bodies : List (List Instr)) : List Instr :=
  (bodies.filter fun b => b.length ≤ e.room).foldl overlay []

/-- The entry code with a body of `main` behind it.  A body that fits stands in the storage of the
entry code, where the last one written over it shows; one that does not has storage of its own. -/
def join (e : Entry) (tail body : List Instr) : List Instr :=
  e.code ++ if body.length ≤ e.room then tail.take body.length else body

/-- Puts the entry code in front of every `main`; the flags tell which functions are. -/
def install (e : Entry) (fs : List (CodeFunc × Bool)) : List CodeFunc :=
  let tail := e.tail ((fs.filter Prod.snd).map fun f => f.1.body)
  fs.map fun (f, main) => if main then { f with body := e.join tail f.body } else f

/-- A single `main` is the entry code followed by its own body. -/
theorem join_tail_singleton (e : Entry) (body : List Instr) :
    e.join (e.tail [body]) body = e.code ++ body := by
  by_cases h : body.length ≤ e.room <;> simp [join, tail, overlay, h]

/-- Of bodies that fit, the last one is kept as it is. -/
theorem join_tail_concat (e : Entry) (bodies : List (List Instr)) (body : List Instr) :
    e.join (e.tail (bodies ++ [body])) body = e.code ++ body := by
  by_cases h : body.length ≤ e.room <;> simp [join, tail, overlay, h]

end Entry

/-- The code of one function: the hand-written one if the function is so marked. -/
def funcOrBuiltin (cx : Context) (c : Counters) : Except LowerFailure (CodeFunc × Counters) :=
  match cx.placed.func.builtin with
  | some b =>
    match Builtin.find? b with
    | some b => .ok (b.lower c)
    | none => .error (.unknownBuiltin cx.placed.func.name b)
  | none =>
    match func cx c with
    | .error (i, e) => .error (.stmt cx.placed.func.name i e)
    | .ok r => .ok r

/-- The code of functions in order, without the code at the start of `main`. -/
def funcs (vars : VarTable) (sets : ClobberSets) :
    Counters → List Placement → Except LowerFailure (List CodeFunc)
  | _, [] => .ok []
  | c, p :: ps =>
    match funcOrBuiltin { vars, sets, placed := p } c with
    | .error e => .error e
    | .ok (f, c) =>
      match funcs vars sets c ps with
      | .error e => .error e
      | .ok fs => .ok (f :: fs)

/-- The code of a program whose functions are placed. -/
def program (p : Program) (sets : ClobberSets) (ps : List Placement) :
    Except LowerFailure Code := do
  match globals? p with
  | none => .error .malformed
  | some gs =>
    let e := entry p gs
    let fs ← funcs p.vars sets p.counters ps
    let mains := ps.map fun q => q.func.name == "main"
    if !e.code.isEmpty && !mains.any id then .error .needsMain
    else pure { globals := gs.map fun (id, v) => globalVar p id v, funcs := e.install (fs.zip mains) }

end Lowering

end Tac
