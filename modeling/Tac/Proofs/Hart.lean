import Mathlib
import Tac.Riscv

/-!
# The meaning of assembly

A processor of 32-bit RISC-V with multiplication: registers by name and memory by byte.  Lines are
read by their mnemonics, so what a line does hangs on what is printed.  Pseudo-instructions mean what
they stand for: `sgt` and `bgt` are `slt` and `blt` with their operands exchanged, `ble` is such a
`bge`, `seqz` and `snez` are unsigned comparisons with one and zero.

A line without a meaning has no outcome: an unknown mnemonic, an immediate or a shift count that has
no encoding, a symbol that nobody defines, an address of a word that is not a multiple of four.
Calls and returns are not lines of straight code and have no outcome here either.
-/

namespace Tac.Riscv

/-- What a register holds. -/
abbrev Bits := BitVec 32

/-- The state of a processor. -/
structure Hart where
  file : Operand → Bits
  mem : Bits → BitVec 8

/-! ## Operations by mnemonic -/

/-- A truth value as a register holds it. -/
def flag (b : Bool) : Bits := if b then 1 else 0

/-- Quotient; division by zero gives all ones. -/
def div (x y : Bits) : Bits := if y = 0 then BitVec.allOnes 32 else x.sdiv y

/-- Remainder; division by zero gives the dividend. -/
def rem (x y : Bits) : Bits := if y = 0 then x else x.srem y

/-- Operations on two registers. -/
def alu? : String → Option (Bits → Bits → Bits)
  | "add" => some fun x y => x + y
  | "sub" => some fun x y => x - y
  | "mul" => some fun x y => x * y
  | "div" => some div
  | "rem" => some rem
  | "slt" => some fun x y => flag (x.slt y)
  | "sgt" => some fun x y => flag (y.slt x)
  | "xor" => some fun x y => x ^^^ y
  | _ => none

/-- Operations on one register. -/
def alu1? : String → Option (Bits → Bits)
  | "mv" => some fun x => x
  | "neg" => some fun x => 0 - x
  | "seqz" => some fun x => flag (x.ult 1)
  | "snez" => some fun x => flag ((0 : Bits).ult x)
  | _ => none

/-- Whether a number fits the twelve bits of an immediate or an offset. -/
def fits12 (n : Int) : Bool := -2048 ≤ n && n ≤ 2047

/-- Operations on a register and an immediate, which has twelve bits, or five as a shift count. -/
def aluImm? (mnemonic : String) (n : Int) : Option (Bits → Bits) :=
  if mnemonic = "addi" then
    if fits12 n then some fun x => x + BitVec.ofInt 32 n else none
  else if 0 ≤ n ∧ n < 32 then
    match mnemonic with
    | "slli" => some fun x => x <<< n.toNat
    | "srli" => some fun x => x >>> n.toNat
    | "srai" => some fun x => x.sshiftRight n.toNat
    | _ => none
  else none

/-- Conditions of branches. -/
def condition? : String → Option (Bits → Bits → Bool)
  | "beq" => some fun x y => x == y
  | "bne" => some fun x y => x != y
  | "blt" => some fun x y => x.slt y
  | "bge" => some fun x y => !x.slt y
  | "bgt" => some fun x y => y.slt x
  | "ble" => some fun x y => !y.slt x
  | _ => none

/-- The lower part of an address, which an offset can hold. -/
def lower (a : Bits) : BitVec 12 := a.setWidth 12

/-- The upper part of an address: rounded, as the lower part counts with its sign. -/
def upper (a : Bits) : BitVec 20 := ((a + 0x800#32) >>> 12).setWidth 20

namespace Hart

/-- The value of a register; `x0` reads as zero. -/
def get (h : Hart) (o : Operand) : Bits := if o = .reg Reg.x0 then 0 else h.file o

/-- Writes a register. -/
def set (h : Hart) (o : Operand) (x : Bits) : Hart := { h with file := Function.update h.file o x }

/-- The word at an address, its lowest byte first. -/
def load (h : Hart) (a : Bits) : Option Bits :=
  if a.toNat % 4 = 0 then some (h.mem (a + 3#32) ++ h.mem (a + 2#32) ++ h.mem (a + 1#32) ++ h.mem a)
  else none

/-- Writes the word at an address. -/
def store (h : Hart) (a x : Bits) : Option Hart :=
  if a.toNat % 4 = 0 then
    some { h with mem := fun b =>
      if (b - a).toNat < 4 then x.extractLsb' (8 * (b - a).toNat) 8 else h.mem b }
  else none

/-- One line: the state after it, and the label that it jumps to.  `sym` are the addresses of
globals; a constant is loaded modulo 2^32. -/
def step (sym : Int → Option Bits) (h : Hart) : Inst → Option (Hart × Option Int)
  | .op3 op d l r => do
    let f ← alu? op.text
    some (h.set d (f (h.get l) (h.get r)), none)
  | .op2 op d x => do
    let f ← alu1? op.text
    some (h.set d (f (h.get x)), none)
  | .opImm op d x n => do
    let f ← aluImm? op.text n
    some (h.set d (f (h.get x)), none)
  | .li d n => some (h.set d (BitVec.ofInt 32 n), none)
  | .la d g => do
    let a ← sym g
    some (h.set d a, none)
  | .luiHi d g => do
    let a ← sym g
    some (h.set d (upper a ++ 0#12), none)
  | .lwLo d g b => do
    let a ← sym g
    let x ← h.load (h.get b + (lower a).signExtend 32)
    some (h.set d x, none)
  | .lw d off b =>
    if fits12 off then do
      let x ← h.load (h.get b + BitVec.ofInt 32 off)
      some (h.set d x, none)
    else none
  | .sw x off b =>
    if fits12 off then do
      let h' ← h.store (h.get b + BitVec.ofInt 32 off) (h.get x)
      some (h', none)
    else none
  | .branch rel l r target => do
    let c ← condition? (branchText rel)
    some (h, if c (h.get l) (h.get r) then some target else none)
  | .j target => some (h, some target)
  | .label _ | .comment _ => some (h, none)
  | .call _ | .ret => none

/-- Lines in order, up to the first jump that is taken. -/
def run (sym : Int → Option Bits) : Hart → List Inst → Option (Hart × Option Int)
  | h, [] => some (h, none)
  | h, x :: xs =>
    match h.step sym x with
    | some (h, none) => run sym h xs
    | r => r

/-! ## Registers and words -/

section Lemmas

variable {h : Hart} {sym : Int → Option Bits}

@[simp] theorem mem_set (o : Operand) (x : Bits) : (h.set o x).mem = h.mem := rfl

@[simp] theorem load_set (o : Operand) (x a : Bits) : (h.set o x).load a = h.load a := rfl

/-- What was written is read. -/
@[simp] theorem get_set_self {o : Operand} (ho : o ≠ .reg Reg.x0) (x : Bits) :
    (h.set o x).get o = x := by
  simp [get, set, ho]

/-- Other places are read as before. -/
@[simp] theorem get_set_of_ne {o q : Operand} (hne : q ≠ o) (x : Bits) :
    (h.set o x).get q = h.get q := by
  simp [get, set, hne]

/-- Words at different multiples of four do not overlap. -/
theorem outside_word {a b : Bits} (ha : a.toNat % 4 = 0) (hb : b.toNat % 4 = 0) (hne : b ≠ a)
    {n : Nat} (hn : n < 4) : ¬ (b + BitVec.ofNat 32 n - a).toNat < 4 := by
  intro hlt
  apply hne
  apply BitVec.eq_of_toNat_eq
  have hal := a.isLt
  have hbl := b.isLt
  simp only [BitVec.toNat_sub, BitVec.toNat_add, BitVec.toNat_ofNat] at hlt
  omega

/-- The bytes of a word put together. -/
theorem bytes_append (x : Bits) :
    x.extractLsb' 24 8 ++ x.extractLsb' 16 8 ++ x.extractLsb' 8 8 ++ x.extractLsb' 0 8 = x := by
  apply BitVec.eq_of_getLsbD_eq
  intro i hi
  simp only [BitVec.getLsbD_append, BitVec.getLsbD_extractLsb']
  -- the byte that bit `i` is in
  by_cases h8 : i < 8
  · simp [h8]
  · by_cases h16 : i < 16
    · simp [h8, show i - 8 < 8 by omega, show 8 + (i - 8) = i by omega]
    · by_cases h24 : i < 24
      · simp [h8, show ¬ i - 8 < 8 by omega, show i - 8 - 8 < 8 by omega,
          show 16 + (i - 8 - 8) = i by omega]
      · simp [h8, show ¬ i - 8 < 8 by omega, show ¬ i - 8 - 8 < 8 by omega,
          show i - 8 - 8 - 8 < 8 by omega, show 24 + (i - 8 - 8 - 8) = i by omega]

/-- A word that was written reads back, and the words beside it stay. -/
theorem load_store {a x : Bits} {h' : Hart} (hs : h.store a x = some h') {b : Bits}
    (hb : b.toNat % 4 = 0) : h'.load b = if b = a then some x else h.load b := by
  unfold store at hs
  split at hs
  · next ha =>
    cases hs
    by_cases heq : b = a
    · subst heq
      -- The four bytes of the word lie at the offsets below four.
      have hoff : ∀ n : Nat, n < 4 → (b + BitVec.ofNat 32 n - b).toNat = n := by
        intro n hn
        have := b.isLt
        simp only [BitVec.toNat_sub, BitVec.toNat_add, BitVec.toNat_ofNat]
        omega
      have h0 : (b - b).toNat = 0 := by simp
      simp only [load, hb, if_true, h0, hoff 1 (by omega), hoff 2 (by omega), hoff 3 (by omega)]
      exact congrArg some (bytes_append x)
    -- Aligned words that differ do not overlap.
    · have h0 := outside_word ha hb heq (n := 0) (by omega)
      rw [show b + BitVec.ofNat 32 0 = b by simp] at h0
      simp only [load, hb, if_true, heq, if_false, h0, outside_word ha hb heq (n := 1) (by omega),
        outside_word ha hb heq (n := 2) (by omega), outside_word ha hb heq (n := 3) (by omega)]
  · cases hs

end Lemmas

end Hart

end Tac.Riscv
