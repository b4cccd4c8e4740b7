/-!
# Decimal integers

Reading accepts an optional sign and at least one ASCII digit, leading zeros included, and refuses
a value outside the given bounds.  Writing gives the shortest form, with a minus sign for negative
numbers only.
-/

namespace Tac.Text

/-- The value of a decimal digit. -/
def digit? (c : Char) : Option Nat :=
  if '0' ≤ c ∧ c ≤ '9' then some (c.toNat - '0'.toNat) else none

/-- Reads the digits that remain after a value `acc` was read. -/
def digitsFrom (acc : Nat) : List Char → Option Nat
  | [] => some acc
  | c :: cs => (digit? c).bind fun d => digitsFrom (10 * acc + d) cs

/-- Reads one or more digits and nothing else. -/
def readNat? : List Char → Option Nat
  | [] => none
  | cs => digitsFrom 0 cs

/-- Reads an optional sign and digits. -/
def readSigned? : List Char → Option Int
  | '-' :: cs => (readNat? cs).map fun n => -(n : Int)
  | '+' :: cs => (readNat? cs).map fun n => (n : Int)
  | cs => (readNat? cs).map fun n => (n : Int)

/-- Reads an integer of the given width in bits, two's complement. -/
def readInt? (bits : Nat) (cs : List Char) : Option Int :=
  let bound : Int := Nat.pow 2 (bits - 1)
  (readSigned? cs).filter fun n => -bound ≤ n && n < bound

/-- Writes an integer. -/
def decimal : Int → String
  | .ofNat n => Nat.repr n
  | .negSucc n => "-" ++ Nat.repr (n + 1)

/-- Lower-case hexadecimal digits of a number, at least `width` of them. -/
def hexDigits (width : Nat) (n : Nat) : String :=
  let ds := Nat.toDigits 16 n
  String.ofList (List.replicate (width - ds.length) '0' ++ ds)

/-- A signed number in hexadecimal, the sign before the base marker. -/
def signedHex (n : Int) : String :=
  (if n < 0 then "-0x" else "0x") ++ hexDigits 1 n.natAbs

end Tac.Text
