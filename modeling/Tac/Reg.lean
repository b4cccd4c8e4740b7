import Tac.Text.Blank
import Tac.Text.Decimal
import Tac.Wire

/-!
# Registers and locations

The target has 28 registers: the constant zero `x0`, seven temporaries, eight argument registers and
twelve further ones.  A register is known by its number; a number outside the range names no
register of the target, and is still a value that can be printed and refused.  A set of registers
is a 32-bit mask, so numbers outside 0 to 31 leave no trace in it.
-/

namespace Tac

/-- A register by number. -/
structure Reg where
  num : Int
deriving DecidableEq, Inhabited, Repr

namespace Reg

/-- The number of registers of the target. -/
def count : Nat := 28

/-- The register that always reads zero. -/
def x0 : Reg := ⟨0⟩

/-- Temporary register `i`, for `i` from 0 to 6. -/
def t (i : Nat) : Reg := ⟨1 + i⟩

/-- Argument register `i`, for `i` from 0 to 7. -/
def a (i : Nat) : Reg := ⟨8 + i⟩

/-- Further register `i`, for `i` from 0 to 11. -/
def s (i : Nat) : Reg := ⟨16 + i⟩

/-- Scratch register for first operands and destinations; never allocated. -/
def scratch0 : Reg := t 0

/-- Scratch register for second operands and addresses; never allocated. -/
def scratch1 : Reg := t 1

/-- How many values are passed in registers. -/
def argCount : Nat := 8

/-- The argument registers in order. -/
def args : List Reg := (List.range argCount).map a

/-- The registers open to allocation, in priority order: all but `x0` and the scratch registers. -/
def allocatable : List Reg :=
  (List.range 5).map (fun i => t (i + 2)) ++ args ++ (List.range 12).map s

/-- The register that passes argument `i`; none beyond the eighth. -/
def arg? (i : Int) : Option Reg :=
  if 0 ≤ i ∧ i < argCount then some (a i.toNat) else none

/-- The position of an argument register among the arguments. -/
def argIndex? (r : Reg) : Option Nat :=
  if 8 ≤ r.num ∧ r.num ≤ 15 then some (r.num - 8).toNat else none

/-- The register's number when it is one of the target's. -/
def index? (r : Reg) : Option (Fin count) :=
  if h : 0 ≤ r.num ∧ r.num < count then some ⟨r.num.toNat, by omega⟩ else none

/-- A register's name; a number outside the target is written as such. -/
def name (r : Reg) : String :=
  if r.num = 0 then "x0"
  else if 1 ≤ r.num ∧ r.num ≤ 7 then "t" ++ Text.decimal (r.num - 1)
  else if 8 ≤ r.num ∧ r.num ≤ 15 then "a" ++ Text.decimal (r.num - 8)
  else if 16 ≤ r.num ∧ r.num ≤ 27 then "s" ++ Text.decimal (r.num - 16)
  else "reg(" ++ Text.decimal r.num ++ ")"

/-- Drops blanks, refusing a newline among them. -/
def skipBlanks? : List Char → Option (List Char)
  | [] => some []
  | c :: cs =>
    if c = '\n' then none
    else if Text.isBlank c then skipBlanks? cs
    else some (c :: cs)

/-- Reads a signed number from the start of the text and ignores what follows its digits. -/
def leadingInt? (cs : List Char) : Option Int :=
  let (sign, ds) := match cs with
    | '-' :: r => (['-'], r)
    | '+' :: r => (['+'], r)
    | r => ([], r)
  Text.readInt? 64 (sign ++ ds.takeWhile fun c => (Text.digit? c).isSome)

/-- Reads a register name: `x0`, or a letter of a bank and a number inside the bank.  Blanks may
stand before the number and anything after it. -/
def parse? (name : String) : Option Reg :=
  if name = "x0" then some x0
  else match name.toList with
    | [] => none
    | c :: cs =>
      match (skipBlanks? cs).bind leadingInt? with
      | none => none
      | some n =>
        if c = 't' ∧ 0 ≤ n ∧ n ≤ 6 then some (t n.toNat)
        else if c = 'a' ∧ 0 ≤ n ∧ n ≤ 7 then some (a n.toNat)
        else if c = 's' ∧ 0 ≤ n ∧ n ≤ 11 then some (s n.toNat)
        else none

end Reg

/-- A set of registers as a mask, bit `n` for register number `n`. -/
structure RegSet where
  mask : UInt32
deriving DecidableEq, Inhabited, Repr

namespace RegSet

/-- The set without registers. -/
def empty : RegSet := ⟨0⟩

/-- The bit of a register; zero for a number that the mask cannot hold. -/
def bit (r : Reg) : UInt32 :=
  if 0 ≤ r.num ∧ r.num < 32 then (1 : UInt32) <<< UInt32.ofNat r.num.toNat else 0

/-- Adds a register. -/
def insert (s : RegSet) (r : Reg) : RegSet := ⟨s.mask ||| bit r⟩

/-- Membership. -/
def contains (s : RegSet) (r : Reg) : Bool := s.mask &&& bit r != 0

/-- Union of two sets. -/
def union (s t : RegSet) : RegSet := ⟨s.mask ||| t.mask⟩

/-- Whether `t` is a part of `s`. -/
def includes (s t : RegSet) : Bool := s.mask &&& t.mask == t.mask

/-- The set of the registers of a list. -/
def ofList (rs : List Reg) : RegSet := rs.foldl insert empty

/-- The registers from number `l` to number `r`, both included. -/
def range (l r : Reg) : RegSet :=
  ofList ((List.range (r.num - l.num + 1).toNat).map fun (i : Nat) => ⟨l.num + i⟩)

/-- The members in ascending order of number. -/
def toList (s : RegSet) : List Reg :=
  ((List.range 32).map fun (i : Nat) => (⟨i⟩ : Reg)).filter s.contains

/-- The number of members. -/
def size (s : RegSet) : Nat := s.toList.length

/-- Every register but `x0`. -/
def all : RegSet := range (Reg.t 0) (Reg.s 11)

/-- The members' names between braces. -/
def text (s : RegSet) : String :=
  "\x7b" ++ " ".intercalate (s.toList.map Reg.name) ++ "\x7d"

/-- The log form: the list of names. -/
def wire (s : RegSet) : Wire.Bytes := Wire.list (s.toList.map fun r => Wire.text r.name)

end RegSet

/-- Where a value lives: in a register, or in `span` words of the stack frame from word `slot`. -/
inductive Loc where
  | reg (r : Reg)
  | stack (slot span : Int)
deriving DecidableEq, Inhabited, Repr

namespace Loc

/-- A stack location of at least one word. -/
def inStack (slot span : Int) : Loc := .stack slot (if span ≤ 0 then 1 else span)

/-- Whether the location is in the stack frame. -/
def isStack : Loc → Bool
  | .reg _ => false
  | .stack .. => true

/-- The register of a register location. -/
def reg? : Loc → Option Reg
  | .reg r => some r
  | .stack .. => none

/-- The first word of a stack location; zero for registers. -/
def slot : Loc → Int
  | .reg _ => 0
  | .stack s _ => s

/-- The number of words of a stack location; zero for registers. -/
def span : Loc → Int
  | .reg _ => 0
  | .stack _ n => n

/-- A location as shown to people. -/
def text : Loc → String
  | .reg r => "reg: " ++ r.name
  | .stack s _ => "stk #" ++ Text.decimal s

end Loc

end Tac
