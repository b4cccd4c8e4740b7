import Std.Data.TreeMap
import Tac.Builtin
import Tac.Tree.Fold

/-!
# From trees to statements

Each expression has two ways to be compiled: for its value, and for a jump taken when its truth is
as wanted.  Logical operators and negations inside conditions become jumps only; everywhere else an
expression becomes a constant, a variable or a temporary.  Constant expressions leave no statements.

Arrays are addressed by a base and a constant byte offset; computed indexes are added to the base by
statements.  A local array with fewer initial values than elements is zeroed first.
-/

namespace Tac.Tree

/-- What is wrong with a tree. -/
inductive GenCause where
  | globalNotConstant
  | tooManyParameters (count : Nat)
  | breakOutside
  | continueOutside
  | returnWithoutValue
  | returnWithValue
  | assignConstant (name : String)
  | assignArray (name : String)
  | divisionByZero
  | tooManyArguments (name : String) (count : Nat)
  | argumentCount (name : String) (want got : Nat)
  | voidAsValue (name : String)
  | tooManyIndexes (name : String)
  | indexOutOfRange (index : Int) (name : String)
  | undefinedVariable (name : String)
deriving DecidableEq, Repr

/-- The wording of a cause. -/
def GenCause.text : GenCause → String
  | globalNotConstant => "global initializer is not constant"
  | tooManyParameters n => "too many parameters: " ++ Text.decimal n
  | breakOutside => "break outside of loop"
  | continueOutside => "continue outside of loop"
  | returnWithoutValue => "return without value in int function"
  | returnWithValue => "return with value in void function"
  | assignConstant x => "assignment to constant " ++ x
  | assignArray x => "assignment to array " ++ x
  | divisionByZero => "division by constant zero"
  | tooManyArguments f n => "too many arguments to " ++ f ++ ": " ++ Text.decimal n
  | argumentCount f want got =>
    f ++ " expects " ++ Text.decimal want ++ " arguments, got " ++ Text.decimal got
  | voidAsValue f => "void function " ++ f ++ " used as value"
  | tooManyIndexes x => "too many indexes for " ++ x
  | indexOutOfRange c x => "index " ++ Text.decimal c ++ " out of range for " ++ x
  | undefinedVariable x => "undefined variable " ++ x

/-- A refused tree: the place, a position if known, and the cause. -/
inductive GenError where
  | refused (place : String) (cause : GenCause)
  /-- A scalar with an empty list of initial values, or a constant with too many indexes. -/
  | malformed
deriving DecidableEq, Repr

/-- The message of a refused tree. -/
def GenError.message : GenError → String
  | refused place cause => place ++ ": " ++ cause.text
  | malformed => ""

namespace Generate

/-- What a function is compiled under. -/
structure Env where
  decls : Decls
  func : FuncDef
  globals : Std.TreeMap Nat VarId

/-- The state while a function is compiled. -/
structure State where
  vars : VarTable
  counters : Counters
  /-- Parameters and the locals declared so far. -/
  scope : Std.TreeMap Nat VarId := {}
  locals : Array VarId := #[]
  temps : Array Int := #[]
  stmts : Array Stmt := #[]

/-- Compilation steps: they extend the state or stop with an error. -/
abbrev Gen := StateT State (Except GenError)

/-- The position if known, what is compiled otherwise. -/
def place (pos : Pos) (what : String) : String := if pos.text = "" then what else pos.text

/-- Stops with an error at a position of the function. -/
def refuse {α : Type} (env : Env) (pos : Pos) (cause : GenCause) : Gen α :=
  throw (.refused (place pos ("func " ++ env.func.name)) cause)

/-- Appends a statement. -/
def emit (s : Stmt) : Gen Unit := modify fun st => { st with stmts := st.stmts.push s }

/-- Draws a label. -/
def newLabel : Gen Int :=
  modifyGet fun st => (st.counters.labels, { st with counters := st.counters.nextLabel })

/-- Draws a temporary of the function. -/
def newTemp : Gen Val :=
  modifyGet fun st =>
    let t := st.counters.temps
    (.temp t, { st with counters := st.counters.nextTemp, temps := st.temps.push t })

/-- Adds a local variable for a declaration. -/
def newLocal (d : Decl) (id : DeclId) : Gen VarId :=
  modifyGet fun st =>
    let v : Var :=
      { name := d.name, cls := .loc, index := st.counters.vars
        dims := if d.isArray then some d.dims else none }
    let pos : VarId := st.vars.size
    (pos, { st with vars := st.vars.push v, counters := st.counters.nextVar
                    locals := st.locals.push pos, scope := st.scope.insert id pos })

/-- The outcome of folding as a step: a fault stops. -/
def folded (f : Folded) : Gen (Option Int) :=
  match f with
  | .ok c => pure c
  | .error _ => throw .malformed

/-- The variable of a declaration. -/
def lookup (env : Env) (d : DeclId) (pos : Pos) : Gen VarId := do
  match (← get).scope[d]?, env.globals[d]? with
  | some id, _ => pure id
  | none, some id => pure id
  | none, none => refuse env pos (.undefinedVariable (env.decls.at d).name)

/-! ## Expressions -/

/-- The ways to compile an expression: its constant value, its value as an operand, and a jump to a
label when its truth is as wanted. -/
structure Coded where
  const : Folded
  value : Gen Val
  jump : Int → Bool → Gen Unit

/-- Puts constants in front: a constant is its own operand and decides its jumps. -/
def guardConst (c : Folded) (value : Gen Val) (jump : Int → Bool → Gen Unit) : Coded where
  const := c
  value := do
    match ← folded c with
    | some n => pure (.const n)
    | none => value
  jump label want := do
    match ← folded c with
    | some n => if decide (n ≠ 0) == want then emit (.jump label) else pure ()
    | none => jump label want

/-- The jump on a value: it is compared with zero. -/
def jumpOnValue (value : Gen Val) (label : Int) (want : Bool) : Gen Unit := do
  let v ← value
  emit (.branch v (if want then .ne else .eq) (.const 0) label)

/-- Computes a binary operator into a new temporary. -/
def binaryTemp (l : Val) (op : BinOp) (r : Val) : Gen Val := do
  let t ← newTemp
  emit (.binary t l op r)
  pure t

/-- Whether a constant index is outside dimension `i`; the first dimension of a parameter is
open. -/
def outOfRange (d : Decl) (i : Nat) (c : Int) : Bool :=
  let n := d.dims.getD i 0
  c < 0 || (if i = 0 then n ≠ 0 && n ≤ c else n ≤ c)

/-- Goes through the indexes from number `i` on: adds up constant ones in `off` and computed ones in
the operand `dyn`. -/
def indexes (env : Env) (name : String) (pos : Pos) (d : Decl) :
    Nat → Int → Option Val → List Coded → Gen (Int × Option Val)
  | _, off, dyn, [] => pure (off, dyn)
  | i, off, dyn, x :: xs => do
    let stride := wrap64 (4 * d.stride i)
    match ← folded x.const with
    | some c =>
      if outOfRange d i c then refuse env pos (.indexOutOfRange c name)
      else indexes env name pos d (i + 1) (wrap64 (off + c * stride)) dyn xs
    | none =>
      let v ← x.value
      let t ← binaryTemp v .mul (.const stride)
      let t ← match dyn with
        | some s => binaryTemp s .add t
        | none => pure t
      indexes env name pos d (i + 1) off (some t) xs

/-- The base and the constant byte offset of an array element. -/
def address (env : Env) (id : VarId) (pos : Pos) (d : Decl) (xs : List Coded) :
    Gen (Val × Int) := do
  let (off, dyn) ← indexes env d.name pos d 0 0 none xs
  match dyn with
  | some v =>
    let b ← binaryTemp (.var id) .add v
    pure (b, off)
  | none => pure (.var id, off)

/-- The value of a variable, an array element or the address of a part of an array. -/
def lvalValue (env : Env) (id : DeclId) (pos : Pos) (xs : List Coded) : Gen Val := do
  let var ← lookup env id pos
  let d := env.decls.at id
  if !d.isArray then pure (.var var)
  else if d.dims.length < xs.length then refuse env pos (.tooManyIndexes d.name)
  else
    let (base, off) ← address env var pos d xs
    if xs.length < d.dims.length then
      if off = 0 then pure base else binaryTemp base .add (.const off)
    else
      let t ← newTemp
      emit (.load t base off)
      pure t

/-- The environment's name of a timing function; such calls pass the source line. -/
def timer? (name : String) : Option String :=
  if name = "starttime" then some "_sysy_starttime"
  else if name = "stoptime" then some "_sysy_stoptime"
  else none

/-- The operands of arguments in order. -/
def values : List Coded → Gen (List Val)
  | [] => pure []
  | x :: xs => do
    let v ← x.value
    let vs ← values xs
    pure (v :: vs)

/-- A call; with `wanted` its result goes to a new temporary. -/
def callValue (env : Env) (name : String) (callee : Option Signature) (args : List Coded)
    (pos : Pos) (wanted : Bool) : Gen Val := do
  let line : Coded := guardConst (.ok (some pos.line)) (pure (.const pos.line)) fun _ _ => pure ()
  let (target, args) := match timer? name with
    | some t => (t, [line])
    | none => (name, args)
  if Reg.argCount < args.length then refuse env pos (.tooManyArguments name args.length)
  match callee with
  | some sig =>
    if args.length ≠ sig.params then refuse env pos (.argumentCount name sig.params args.length)
    if wanted && sig.void then refuse env pos (.voidAsValue name)
  | none => pure ()
  let vs ← values args
  if wanted then
    let t ← newTemp
    emit (.call (some t) target vs)
    pure t
  else
    emit (.call none target vs)
    pure (.const 0)

/-- A logical operator as a value: the result of the short way is stored first, then replaced when
neither operand takes it. -/
def logicalValue (isOr : Bool) (l r : Coded) : Gen Val := do
  let t ← newTemp
  let done ← newLabel
  emit (.move t (.const (if isOr then 1 else 0)))
  l.jump done isOr
  r.jump done isOr
  emit (.move t (.const (if isOr then 0 else 1)))
  emit (.label done)
  pure t

/-- A logical operator as a jump.  When both operands must agree for the jump, the first one can
only skip it. -/
def logicalJump (isOr : Bool) (l r : Coded) (label : Int) (want : Bool) : Gen Unit := do
  if !isOr == want then
    let skip ← newLabel
    l.jump skip (!want)
    r.jump label want
    emit (.label skip)
  else
    l.jump label want
    r.jump label want

/-- An arithmetic operator or a comparison as a value. -/
def arithValue (env : Env) (op : BinOp) (l r : Coded) : Gen Val := do
  let divisor ← folded r.const
  if divisor = some 0 ∧ (op = .div ∨ op = .mod) then refuse env {} .divisionByZero
  let a ← l.value
  let b ← r.value
  binaryTemp a op b

/-- A unary operator as a value. -/
def unaryValue (op : UnOp) (x : Coded) : Gen Val := do
  let v ← x.value
  match op with
  | .plus => pure v
  | op =>
    let t ← newTemp
    emit (.unary t op v)
    pure t

mutual

/-- The ways to compile an expression. -/
def expr (env : Env) : Expr → Coded
  | .absent => guardConst (.ok (some 0)) (pure (.const 0)) fun _ _ => pure ()
  | .num n => guardConst (.ok (some n)) (pure (.const n)) fun _ _ => pure ()
  | .lval d index pos =>
    let value := lvalValue env d pos (exprs env index)
    guardConst ((Expr.lval d index pos).fold env.decls) value (jumpOnValue value)
  | .call name callee args pos =>
    let value := callValue env name callee (exprs env args) pos true
    guardConst (.ok none) value (jumpOnValue value)
  | .unary op x =>
    let cx := expr env x
    let value := unaryValue op cx
    let jump := match op with
      | .not => fun label want => cx.jump label (!want)
      | _ => jumpOnValue value
    guardConst ((Expr.unary op x).fold env.decls) value jump
  | .binary op l r =>
    let cl := expr env l
    let cr := expr env r
    let c := (Expr.binary op l r).fold env.decls
    match op with
    | .and => guardConst c (logicalValue false cl cr) (logicalJump false cl cr)
    | .or => guardConst c (logicalValue true cl cr) (logicalJump true cl cr)
    | op =>
      let value := arithValue env op cl cr
      guardConst c value (jumpOnValue value)

/-- The ways to compile each of several expressions. -/
def exprs (env : Env) : List Expr → List Coded
  | [] => []
  | e :: es => expr env e :: exprs env es

end

/-! ## Statements -/

/-- The labels of the loop around a statement. -/
structure Loop where
  head : Int
  done : Int

/-- Stores initial values of a local array, from element `k` on.  After a zero fill, zeros need no
store. -/
def initElements (env : Env) (id : VarId) (zeroed : Bool) : Int → List Expr → Gen Unit
  | _, [] => pure ()
  | k, .absent :: es => initElements env id zeroed (k + 1) es
  | k, e :: es => do
    let x := expr env e
    let c ← folded x.const
    if c = some 0 ∧ zeroed then pure ()
    else
      let v ← x.value
      emit (.store (.var id) (4 * k) v)
    initElements env id zeroed (k + 1) es

/-- Whether an initial value is absent. -/
def isAbsent : Expr → Bool
  | .absent => true
  | _ => false

/-- A local declaration with its initial values. -/
def declare (env : Env) (decl : DeclId) : Gen Unit := do
  let d := env.decls.at decl
  let id ← newLocal d decl
  match d.init with
  | none => pure ()
  | some init =>
    if !d.isArray then
      match init with
      | [] => throw .malformed
      | e :: _ =>
        let v ← (expr env e).value
        emit (.move (.var id) v)
    else
      let zeroed := decide ((init.length : Int) < d.elems) || init.any isAbsent
      if zeroed then emit (.zeroFill (.var id))
      initElements env id zeroed 0 init

/-- An assignment. -/
def assign (env : Env) (target : DeclId) (index : List Expr) (targetPos : Pos) (value : Expr)
    (pos : Pos) : Gen Unit := do
  let d := env.decls.at target
  if d.const then refuse env pos (.assignConstant d.name)
  let v ← (expr env value).value
  let id ← lookup env target targetPos
  if !d.isArray then emit (.move (.var id) v)
  else if index.length ≠ d.dims.length then refuse env pos (.assignArray d.name)
  else
    let (base, off) ← address env id targetPos d (exprs env index)
    emit (.store base off v)

/-- A return; it must match the function's kind. -/
def ret (env : Env) (value : Option Expr) (pos : Pos) : Gen Unit := do
  match value, env.func.void with
  | none, false => refuse env pos .returnWithoutValue
  | some _, true => refuse env pos .returnWithValue
  | none, true => emit (.ret none)
  | some e, false =>
    let v ← (expr env e).value
    emit (.ret (some v))

/-- An expression for its effect; a call keeps no result. -/
def effect (env : Env) (x : Expr) : Gen Unit := do
  match x with
  | .call name callee args pos =>
    let _ ← callValue env name callee (exprs env args) pos false
  | x =>
    let _ ← (expr env x).value

mutual

/-- A statement inside the given loops, the innermost first. -/
def node (env : Env) (loops : List Loop) : Node → Gen Unit
  | .skip => pure ()
  | .block items => nodes env loops items
  | .declare d => declare env d
  | .assign t index tp v pos => assign env t index tp v pos
  | .eval x => effect env x
  | .cond c yes no => do
    let els ← newLabel
    (expr env c).jump els false
    node env loops yes
    if no.isSkip then emit (.label els)
    else
      let done ← newLabel
      emit (.jump done)
      emit (.label els)
      node env loops no
      emit (.label done)
  | .loop c body => do
    let head ← newLabel
    let done ← newLabel
    emit (.label head)
    (expr env c).jump done false
    node env ({ head, done } :: loops) body
    emit (.jump head)
    emit (.label done)
  | .leave pos =>
    match loops with
    | [] => refuse env pos .breakOutside
    | l :: _ => emit (.jump l.done)
  | .again pos =>
    match loops with
    | [] => refuse env pos .continueOutside
    | l :: _ => emit (.jump l.head)
  | .ret value pos => ret env value pos

/-- Statements in order. -/
def nodes (env : Env) (loops : List Loop) : List Node → Gen Unit
  | [] => pure ()
  | s :: ss => do
    node env loops s
    nodes env loops ss

end

/-! ## Functions and programs -/

/-- The program made so far and the variables of the globals. -/
structure Progress where
  program : Program := {}
  globals : Std.TreeMap Nat VarId := {}

/-- Initial values of a global, from element `k` on; zeros need none. -/
def globalInits (decls : Decls) (d : Decl) (var : VarId) :
    Int → List Expr → Except GenError (List Init)
  | _, [] => .ok []
  | k, e :: es => do
    let rest := globalInits decls d var (k + 1) es
    match e.fold decls with
    | .error _ => .error .malformed
    | .ok none => .error (.refused (place d.pos ("var " ++ d.name)) .globalNotConstant)
    | .ok (some c) =>
      if c = 0 then rest
      else return { var, off := if d.isArray then 4 * k else -1, val := c } :: (← rest)

/-- Adds a global variable. -/
def addGlobal (decls : Decls) (p : Progress) (decl : DeclId) : Except GenError Progress := do
  let d := decls.at decl
  let (program, id) := p.program.newVar
    { name := d.name, cls := .global, index := 0, dims := if d.isArray then some d.dims else none }
  let inits ← globalInits decls d id 0 (d.init.getD [])
  pure { program := { program with globals := program.globals ++ [id]
                                   inits := program.inits ++ inits }
         globals := p.globals.insert decl id }

/-- Adds the parameters of a function to the table, from number `i` on. -/
def addParams (decls : Decls) (i : Nat) (st : State) : List DeclId → State × List VarId
  | [] => (st, [])
  | p :: ps =>
    let d := decls.at p
    let id : VarId := st.vars.size
    let v : Var :=
      { name := d.name, cls := .arg, index := i, dims := if d.isArray then some d.dims else none }
    let (st, ids) := addParams decls (i + 1)
      { st with vars := st.vars.push v, scope := st.scope.insert p id } ps
    (st, id :: ids)

/-- The hand-written implementation that replaces a function, if replacing is wanted. -/
def replacement (useBuiltins : Bool) (decls : Decls) (f : FuncDef) : Option String :=
  if useBuiltins then Builtin.match? decls f else none

/-- Compiles one function; a return is added at its end. -/
def addFunc (useBuiltins : Bool) (decls : Decls) (p : Progress) (f : FuncDef) :
    Except GenError Progress := do
  if Reg.argCount < f.params.length then
    .error (.refused (place f.pos ("func " ++ f.name)) (.tooManyParameters f.params.length))
  let (st, params) := addParams decls 0 { vars := p.program.vars, counters := p.program.counters }
    f.params
  let env : Env := { decls, func := f, globals := p.globals }
  let finish : Gen Unit := do
    nodes env [] f.body
    emit (.ret (if f.void then none else some (.const 0)))
  let ((), st) ← finish.run st
  let func : Func :=
    { name := f.name, void := f.void, params, locals := st.locals.toList, temps := st.temps.toList
      stmts := st.stmts.toList, builtin := replacement useBuiltins decls f }
  pure { p with program := { p.program with vars := st.vars, counters := st.counters
                                            funcs := p.program.funcs ++ [func] } }

/-- The program with the globals of a unit and no functions. -/
def withGlobals (u : CompUnit) : Except GenError Progress :=
  u.globals.foldlM (addGlobal u.decls) {}

end Generate

open Generate in
/-- Compiles a tree.  With `useBuiltins`, functions that a hand-written implementation can replace
are marked. -/
def CompUnit.generate (useBuiltins : Bool) (u : CompUnit) : Except GenError Program := do
  let p ← withGlobals u
  let p ← u.funcs.foldlM (addFunc useBuiltins u.decls) p
  pure p.program

end Tac.Tree
