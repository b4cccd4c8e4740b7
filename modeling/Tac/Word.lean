/-!
# Integers of fixed width

Two widths occur.  The target machine computes on 32-bit words; the numbers of a program (sizes,
offsets, counters, constants not yet loaded into a register) are 64-bit.  Both are two's complement
and wrap around.
-/

namespace Tac

/-- A machine word: 32 bits, two's complement, arithmetic modulo 2^32. -/
abbrev Word := Int32

/-- The 64-bit two's complement value congruent to `n`. -/
def wrap64 (n : Int) : Int := Int.bmod n 18446744073709551616

/-- The machine word congruent to `n`. -/
def word (n : Int) : Word := Int32.ofInt n

/-- Truth as a word: one or zero. -/
def Word.ofBool (b : Bool) : Word := if b then 1 else 0

/-- Product of 64-bit numbers, each partial product wrapped. -/
def wrapProduct (ns : List Int) : Int := ns.foldl (fun acc n => wrap64 (acc * n)) 1

end Tac
