import Tac.Operator
import Tac.Text.Decimal
import Tac.Word

/-!
# Three-address programs

A program is a table of variables, the list of its global variables with their initial values, and
its functions.  A function is a flat list of statements over constants, temporaries and variables;
control flow is by labels and jumps.

Variables are referred to by their position in the table.  A position outside the table can be
written down, so every look-up may fail; numbers are 64-bit.
-/

namespace Tac

/-- Where a variable is declared. -/
inductive VarClass where
  | global | loc | arg
deriving DecidableEq, Inhabited, Repr

/-- The position of a variable in the table. -/
abbrev VarId := Int

/-- A declared variable. -/
structure Var where
  name : String
  cls : VarClass
  /-- The number under which program text knows the variable. -/
  index : Int
  /-- The shape of an array; a scalar has none. -/
  dims : Option (List Int)
deriving DecidableEq, Inhabited, Repr

namespace Var

/-- Whether the variable is an array. -/
def isArray (v : Var) : Bool := v.dims.isSome

/-- The number of words that the variable occupies. -/
def elems (v : Var) : Int := wrapProduct (v.dims.getD [])

/-- The size in bytes. -/
def bytes (v : Var) : Int := wrap64 (4 * v.elems)

/-- The name in program text: arguments are `pN`, all other variables `TN`. -/
def text (v : Var) : String :=
  (match v.cls with | .arg => "p" | _ => "T") ++ Text.decimal v.index

end Var

/-- The variables of a program by position. -/
abbrev VarTable := Array Var

namespace VarTable

/-- The variable at a position. -/
def get? (vars : VarTable) (id : VarId) : Option Var :=
  if 0 ≤ id then vars[id.toNat]? else none

end VarTable

/-- An operand. -/
inductive Val where
  | const (n : Int)
  | temp (n : Int)
  | var (id : VarId)
deriving DecidableEq, Inhabited, Repr

namespace Val

/-- Whether the operand is a constant. -/
def isConst : Val → Bool
  | const _ => true
  | _ => false

/-- Whether the operand is a temporary. -/
def isTemp : Val → Bool
  | temp _ => true
  | _ => false

/-- Whether the operand is a variable. -/
def isVar : Val → Bool
  | var _ => true
  | _ => false

/-- The value of a constant operand. -/
def const? : Val → Option Int
  | const n => some n
  | _ => none

/-- The number of a temporary. -/
def temp? : Val → Option Int
  | temp n => some n
  | _ => none

end Val

/-- A statement.  Array offsets are in bytes. -/
inductive Stmt where
  /-- `dst = l op r` -/
  | binary (dst l : Val) (op : BinOp) (r : Val)
  /-- `dst = op x` -/
  | unary (dst : Val) (op : UnOp) (x : Val)
  /-- `dst = src` -/
  | move (dst src : Val)
  /-- `base[off] = src` -/
  | store (base : Val) (off : Int) (src : Val)
  /-- `dst = base[off]` -/
  | load (dst base : Val) (off : Int)
  /-- `if l rel r goto target` -/
  | branch (l : Val) (rel : Rel) (r : Val) (target : Int)
  /-- `goto target` -/
  | jump (target : Int)
  /-- A place that jumps can name. -/
  | label (id : Int)
  /-- A call, with the place of its result if the result is wanted. -/
  | call (ret : Option Val) (callee : String) (args : List Val)
  /-- The end of the function, with its result if it has one. -/
  | ret (value : Option Val)
  /-- Zeroes every word of a local array. -/
  | zeroFill (array : Val)
deriving DecidableEq, Inhabited, Repr

namespace Stmt

/-- The operand that the statement writes. -/
def dst? : Stmt → Option Val
  | binary d .. => some d
  | unary d .. => some d
  | move d _ => some d
  | load d .. => some d
  | call r _ _ => r
  | _ => none

/-- The same statement with another destination; none if it has no destination. -/
def withDst? (d : Val) : Stmt → Option Stmt
  | binary _ l op r => some (binary d l op r)
  | unary _ op x => some (unary d op x)
  | move _ s => some (move d s)
  | load _ b o => some (load d b o)
  | call (some _) f args => some (call (some d) f args)
  | _ => none

/-- The operands that the statement reads, in order.  The base of an array access is read: it may
hold an address. -/
def sources : Stmt → List Val
  | binary _ l _ r => [l, r]
  | unary _ _ x => [x]
  | move _ s => [s]
  | store b _ s => [b, s]
  | load _ b _ => [b]
  | branch l _ r _ => [l, r]
  | call _ _ args => args
  | ret v => v.toList
  | jump _ | label _ | zeroFill _ => []

/-- Every operand of the statement. -/
def operands (s : Stmt) : List Val :=
  s.dst?.toList ++ s.sources ++ (match s with | zeroFill a => [a] | _ => [])

/-- The callee of a call. -/
def callee? : Stmt → Option String
  | call _ f _ => some f
  | _ => none

/-- Whether the statement ends the function. -/
def isReturn : Stmt → Bool
  | ret _ => true
  | _ => false

end Stmt

/-- The initial value of a global: of a scalar, or of one word of an array at a byte offset. -/
structure Init where
  var : VarId
  /-- Byte offset inside an array; negative for scalars. -/
  off : Int
  val : Int
deriving DecidableEq, Inhabited, Repr

/-- A function. -/
structure Func where
  name : String
  /-- Whether the function returns no value. -/
  void : Bool
  params : List VarId := []
  locals : List VarId := []
  temps : List Int := []
  stmts : List Stmt := []
  /-- The hand-written implementation that replaces the statements, if any. -/
  builtin : Option String := none
deriving DecidableEq, Inhabited, Repr

/-- The numbers that the next new variable, temporary and label get. -/
structure Counters where
  vars : Int := 0
  temps : Int := 0
  labels : Int := 0
deriving DecidableEq, Inhabited, Repr

namespace Counters

/-- Skips numbers that are already in use. -/
def reserve (c : Counters) (vars temps labels : Int) : Counters :=
  ⟨max c.vars vars, max c.temps temps, max c.labels labels⟩

/-- The counters after one label was drawn; the label is the old count. -/
def nextLabel (c : Counters) : Counters := { c with labels := wrap64 (c.labels + 1) }

/-- The counters after one temporary was drawn; its number is the old count. -/
def nextTemp (c : Counters) : Counters := { c with temps := wrap64 (c.temps + 1) }

/-- The counters after one global or local variable was drawn; its index is the old count. -/
def nextVar (c : Counters) : Counters := { c with vars := wrap64 (c.vars + 1) }

end Counters

/-- A program. -/
structure Program where
  vars : VarTable := #[]
  globals : List VarId := []
  inits : List Init := []
  funcs : List Func := []
  counters : Counters := {}
deriving Inhabited

namespace Program

/-- Adds a variable.  Globals and locals are numbered by one counter, arguments by the caller. -/
def newVar (p : Program) (v : Var) : Program × VarId :=
  let (v, c) := match v.cls with
    | .arg => (v, p.counters)
    | _ => ({ v with index := p.counters.vars }, p.counters.nextVar)
  ({ p with vars := p.vars.push v, counters := c }, p.vars.size)

/-- Adds a function without statements. -/
def newFunc (p : Program) (name : String) (void : Bool) : Program × Func :=
  let f : Func := { name, void }
  ({ p with funcs := p.funcs ++ [f] }, f)

/-- The first function of a name. -/
def func? (p : Program) (name : String) : Option Func := p.funcs.find? fun f => f.name == name

/-- Skips numbers that are already in use. -/
def reserve (p : Program) (vars temps labels : Int) : Program :=
  { p with counters := p.counters.reserve vars temps labels }

end Program

end Tac
