import Tac.Program

/-!
# Virtual registers

Temporaries, local scalars and arguments compete for machine registers.  Each such operand is known
by one number: `3n` for temporary `n`, `3i + 1` for the local of index `i`, `3i + 2` for argument
`i`.  Constants, globals and local arrays have no number.

The number is computed in 64 bits.  A statement is *numbered* when all operands it reads or writes
can be looked up and have numbers that are not negative; analyses refuse a function with any other
statement.
-/

namespace Tac

/-- The number of a virtual register. -/
abbrev VReg := Nat

namespace VReg

/-- The number of argument `i`. -/
def param (i : Nat) : VReg := 3 * i + 2

/-- The number of an argument whose index is any 64-bit number. -/
def ofArg (index : Int) : Int := wrap64 (3 * index + 2)

/-- The kind and index behind a number, as it is written in text.  Numbers below zero name
nothing; they are written by truncated division. -/
def text (u : Int) : String :=
  (match Int.tmod u 3 with | 0 => "t" | 1 => "T" | _ => "p") ++ Text.decimal (Int.tdiv u 3)

/-- The argument index behind a number. -/
def paramIndex? (u : Int) : Option Nat :=
  if Int.tmod u 3 = 2 then some (Int.tdiv u 3).toNat else none

end VReg

namespace Var

/-- The number of a variable that competes for registers. -/
def number? (v : Var) : Option Int :=
  match v.cls with
  | .global => none
  | .loc => if v.isArray then none else some (wrap64 (3 * v.index + 1))
  | .arg => some (VReg.ofArg v.index)

end Var

namespace VarTable

/-- Whether the operand can be looked up. -/
def resolves (vars : VarTable) : Val → Bool
  | .var id => (vars.get? id).isSome
  | _ => true

/-- The number of an operand, computed in 64 bits. -/
def number? (vars : VarTable) : Val → Option Int
  | .const _ => none
  | .temp n => some (wrap64 (3 * n))
  | .var id => (vars.get? id).bind Var.number?

/-- The virtual register of an operand. -/
def vreg? (vars : VarTable) (v : Val) : Option VReg :=
  (vars.number? v).bind fun n => if 0 ≤ n then some n.toNat else none

/-- Whether the operand can be looked up and has no negative number. -/
def isNumbered (vars : VarTable) (v : Val) : Bool :=
  vars.resolves v && (vars.number? v).all fun n => decide (0 ≤ n)

end VarTable

namespace Stmt

/-- The virtual registers that the statement writes. -/
def defs (vars : VarTable) (s : Stmt) : List VReg :=
  s.dst?.toList.filterMap vars.vreg?

/-- The virtual registers that the statement reads, in order and with repetitions. -/
def uses (vars : VarTable) (s : Stmt) : List VReg :=
  s.sources.filterMap vars.vreg?

/-- The numbers of the operands that the statement reads, negative ones included. -/
def numbers (vars : VarTable) (s : Stmt) : List Int :=
  s.sources.filterMap vars.number?

/-- Whether every operand that the statement reads or writes is numbered. -/
def isNumbered (vars : VarTable) (s : Stmt) : Bool :=
  s.dst?.all vars.isNumbered && s.sources.all vars.isNumbered

end Stmt

end Tac
