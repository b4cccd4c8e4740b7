import Mathlib
import Tac.Proofs.Emission
import Tac.Proofs.Labels
import Tac.Proofs.Walks

/-!
# The code of the modular multiplication

The hand-written code goes over the bits of the second factor from the lowest one.  It keeps the first
factor doubled as often as it took a bit, and a sum of what the bits taken so far ask for, both
reduced.  All remainders are truncated: they have the sign of the product, like the factor that is
doubled, so the sums stay below twice the modulus on one side of zero.

* **`Partial`** — the invariant of the loop: what is still to be multiplied and added makes up the
  product, and everything is reduced.
* **`walk_turns`** — from the head of the loop the code walks to its end with the remainder of the
  product, without an addition that overflows; **`walk_multiply`** is the whole code.
* **`call_multiply`** — calls of the code.
-/

namespace Tac

open Builtin (modulus)

/-! ## Remainders -/

/-- The truncated remainder is congruent to the number. -/
theorem tmod_modEq (n : Int) : Int.tmod n modulus ≡ n [ZMOD modulus] := by
  refine Int.modEq_iff_dvd.2 ⟨Int.tdiv n modulus, ?_⟩
  have := Int.tmod_add_mul_tdiv n modulus
  omega

/-- A reduced number with the sign of `n` and congruent to it is its remainder. -/
theorem eq_tmod {z n : Int} (hz : |z| < modulus) (hsign : 0 ≤ z ∧ 0 ≤ n ∨ z ≤ 0 ∧ n ≤ 0)
    (h : z ≡ n [ZMOD modulus]) : z = Int.tmod n modulus := by
  have hbounds := abs_lt.1 hz
  rcases hsign with ⟨hz0, hn⟩ | ⟨hz0, hn⟩
  · rw [Int.tmod_eq_emod_of_nonneg hn, ← h]
    exact (Int.emod_eq_of_lt hz0 hbounds.2).symm
  · -- the same for the opposites
    have hneg : -z ≡ -n [ZMOD modulus] := h.neg
    have hrem : -z = Int.tmod (-n) modulus := by
      rw [Int.tmod_eq_emod_of_nonneg (by omega), ← hneg]
      exact (Int.emod_eq_of_lt (by omega) (by omega)).symm
    rw [Int.neg_tmod] at hrem
    omega

theorem abs_tmod_lt (n : Int) : |Int.tmod n modulus| < modulus :=
  abs_lt.2 ⟨Int.lt_tmod_of_pos n (by decide), Int.tmod_lt_of_pos n (by decide)⟩

/-- The truncated remainder of a number that is not positive is not positive. -/
theorem tmod_nonpos {n : Int} (h : n ≤ 0) : Int.tmod n modulus ≤ 0 := by
  have := Int.tmod_nonneg modulus (show 0 ≤ -n by omega)
  rw [Int.neg_tmod] at this
  omega

/-! ## The invariant -/

/-- The factor `x`, the bits `y` still to be taken and the sum `z` make up a product modulo `modulus`;
factor and sum are reduced and have the sign of the product. -/
structure Partial (product x y z : Int) : Prop where
  bits : 0 ≤ y
  factor_small : |x| < modulus
  sum_small : |z| < modulus
  sign : 0 ≤ x ∧ 0 ≤ z ∧ 0 ≤ product ∨ x ≤ 0 ∧ z ≤ 0 ∧ product ≤ 0
  congr : z + x * y ≡ product [ZMOD modulus]

namespace Partial

variable {product x y z a b : Int}

/-- The invariant holds before the first turn. -/
theorem start (hb : 0 ≤ b) : Partial (a * b) (Int.tmod a modulus) b 0 where
  bits := hb
  factor_small := abs_tmod_lt a
  sum_small := by decide
  sign := by
    rcases le_total 0 a with ha | ha
    · exact Or.inl ⟨Int.tmod_nonneg _ ha, le_rfl, mul_nonneg ha hb⟩
    · exact Or.inr ⟨tmod_nonpos ha, le_rfl, mul_nonpos_of_nonpos_of_nonneg ha hb⟩
  congr := by
    rw [zero_add]
    exact (tmod_modEq a).mul_right b

/-- Sums of reduced numbers are words. -/
theorem sum_fits (h : Partial product x y z) :
    (-2147483648 ≤ z + x ∧ z + x < 2147483648) ∧ -2147483648 ≤ x + x ∧ x + x < 2147483648 := by
  have hx := abs_lt.1 h.factor_small
  have hz := abs_lt.1 h.sum_small
  unfold modulus at hx hz
  omega

/-- What the lowest bit asks for is added. -/
theorem add (h : Partial product x y z) (hy : y % 2 = 1) :
    Partial product x (y - 1) (Int.tmod (z + x) modulus) where
  bits := by have := h.bits; omega
  factor_small := h.factor_small
  sum_small := abs_tmod_lt _
  -- A remainder has the sign of what was reduced.
  sign := by
    rcases h.sign with ⟨hx, hz, hp⟩ | ⟨hx, hz, hp⟩
    · exact Or.inl ⟨hx, Int.tmod_nonneg _ (add_nonneg hz hx), hp⟩
    · exact Or.inr ⟨hx, tmod_nonpos (add_nonpos hz hx), hp⟩
  -- One copy of the factor moves from the open product into the sum.
  congr := by
    refine ((tmod_modEq (z + x)).add_right (x * (y - 1))).trans ?_
    rw [show z + x + x * (y - 1) = z + x * y by ring]
    exact h.congr

/-- Doubling the factor shifts the bits. -/
theorem double (h : Partial product x y z) (hy : y % 2 = 0) :
    Partial product (Int.tmod (x + x) modulus) (y / 2) z where
  bits := Int.ediv_nonneg h.bits (by decide)
  factor_small := abs_tmod_lt _
  sum_small := h.sum_small
  -- Doubling and reducing keep the sign.
  sign := by
    rcases h.sign with ⟨hx, hz, hp⟩ | ⟨hx, hz, hp⟩
    · exact Or.inl ⟨Int.tmod_nonneg _ (add_nonneg hx hx), hz, hp⟩
    · exact Or.inr ⟨tmod_nonpos (add_nonpos hx hx), hz, hp⟩
  -- The product is the same with the doubled factor and half of the even one.
  congr := by
    obtain ⟨k, rfl⟩ : ∃ k, y = 2 * k := ⟨y / 2, by omega⟩
    rw [Int.mul_ediv_cancel_left k (by decide)]
    refine (((tmod_modEq (x + x)).mul_right k).add_left z).trans ?_
    rw [show z + (x + x) * k = z + x * (2 * k) by ring]
    exact h.congr

/-- With no bits left the sum is the remainder of the product. -/
theorem result (h : Partial product x 0 z) : z = Int.tmod product modulus := by
  refine eq_tmod h.sum_small ?_ ?_
  · rcases h.sign with ⟨-, hz, hp⟩ | ⟨-, hz, hp⟩
    · exact Or.inl ⟨hz, hp⟩
    · exact Or.inr ⟨hz, hp⟩
  · have hcongr := h.congr
    rwa [mul_zero, add_zero] at hcongr

end Partial

/-! ## Words -/

/-- An addition that stays in 32 bits does not wrap. -/
theorem toInt_add {x y : Word} (h0 : -2147483648 ≤ x.toInt + y.toInt)
    (h1 : x.toInt + y.toInt < 2147483648) : (x + y).toInt = x.toInt + y.toInt := by
  have hword : word y.toInt = y := Int32.ofInt_toInt y
  rw [← toInt_add_word h0 h1, hword]

/-- Shifting the lowest bit to the top leaves nothing of an even word. -/
theorem shiftLeft_top (y : Word) : (y <<< word 31 == 0) = decide (y.toInt % 2 = 0) := by
  have hshift : y <<< word 31 = y * word 2147483648 := shiftLeft_word y (k := 31) (by decide)
  have hmul : (y <<< word 31).toInt = Int.bmod (y.toInt * -2147483648) 4294967296 := by
    rw [hshift, Int32.toInt_mul]
    rfl
  rw [Bool.eq_iff_iff, beq_iff_eq, decide_eq_true_eq, ← Int32.toInt_inj, hmul, Int32.toInt_zero,
    Int.bmod_def]
  split <;> omega

/-- Shifting right halves, rounding down. -/
theorem toInt_half (y : Word) : (y >>> word 1).toInt = y.toInt / 2 := by
  have hbits := Riscv.toBitVec_shiftRight (x := y) (n := 1) (by decide) (by decide)
  rw [← Int32.toInt_toBitVec, hbits, BitVec.toInt_sshiftRight, Int.shiftRight_eq_div_pow]
  rfl

/-! ## The loop -/

namespace Machine

/-- If the instruction is an addition, its sum is a word. -/
def AddsExactly (m : Machine) : Instr → Prop
  | .binary _ .add l r =>
    -2147483648 ≤ (m.val l).toInt + (m.val r).toInt ∧ (m.val l).toInt + (m.val r).toInt < 2147483648
  | .addImm _ x n => -2147483648 ≤ (m.val x).toInt + n ∧ (m.val x).toInt + n < 2147483648
  | _ => True

/-- The machine in the loop, with the bits `y` still to be taken. -/
structure Turning (product y : Int) (m : Machine) : Prop where
  zero : m.val Reg.x0 = 0
  modulus : m.val (Reg.t 1) = word modulus
  part : Partial product (m.val (Reg.a 0)).toInt y (m.val (Reg.a 2)).toInt

/-- Code that does not touch the registers of the loop keeps its invariant. -/
theorem Turning.keep {product y : Int} {touched : Reg → Prop} {m m' : Machine}
    (h : Turning product y m) (hk : Keeps touched m m')
    (hn : ∀ q ∈ [Reg.x0, Reg.t 1, Reg.a 0, Reg.a 2], ¬ touched q) : Turning product y m' where
  zero := (hk.val _ (by decide) (hn _ (by simp))).trans h.zero
  modulus := (hk.val _ (by decide) (hn _ (by simp))).trans h.modulus
  part := by
    rw [hk.val (Reg.a 0) (by decide) (hn _ (by simp)), hk.val (Reg.a 2) (by decide) (hn _ (by simp))]
    exact h.part

section Loop

variable (im : Image) {f : LoadedFunc} {m : Machine} {product : Int}

/-- An exact sum in a register and then its remainder. -/
theorem writes_addMod {d x y : Reg} (hz : m.val Reg.x0 = 0) (hd : d.Valid) (hd0 : d ≠ Reg.x0)
    (hd1 : Reg.t 1 ≠ d) (hx : x.Valid) (hy : y.Valid) (hmod : m.val (Reg.t 1) = word modulus)
    (h0 : -2147483648 ≤ (m.val x).toInt + (m.val y).toInt)
    (h1 : (m.val x).toInt + (m.val y).toInt < 2147483648) :
    ∃ w, Writes im f m [.binary d .add x y, .binary d .mod d (Reg.t 1)] d w ∧
      w.toInt = Int.tmod ((m.val x).toInt + (m.val y).toInt) Builtin.modulus := by
  have hx0 : Reg.x0.Valid := by decide
  have ht1 : (Reg.t 1).Valid := by decide
  obtain ⟨m₁, hline₁, hval₁, hmem₁, hkeep₁⟩ :
      Writes im f m [.binary d .add x y] d (m.val x + m.val y) :=
    writes_binary hz hd hd0 hx hy rfl
  -- The sum is not written over the modulus.
  have hmod₁ : m₁.val (Reg.t 1) = word Builtin.modulus := (hkeep₁.val _ ht1 hd1).trans hmod
  have hz₁ : m₁.val Reg.x0 = 0 := (hkeep₁.val _ hx0 (Ne.symm hd0)).trans hz
  obtain ⟨m₂, hline₂, hval₂, hmem₂, hkeep₂⟩ : Writes im f m₁ [.binary d .mod d (Reg.t 1)] d
      ((m.val x + m.val y) % word Builtin.modulus) :=
    writes_binary hz₁ hd hd0 hd ht1 (by rw [hval₁, hmod₁]; rfl)
  refine ⟨_, ⟨m₂, line?_append_of hline₁ hline₂, hval₂, hmem₂.trans hmem₁, hkeep₁.trans hkeep₂⟩, ?_⟩
  rw [Int32.toInt_mod, toInt_add h0 h1]
  rfl

variable {loop skip done : Int} (hbody : f.body = (Builtin.multiplyCode loop skip done).toArray)

include hbody

/-- An odd factor: the other one is added to the product, and the factor loses its lowest
bit. -/
theorem walk_odd {y : Int} (h : Turning product y m) (hy : y % 2 = 1) :
    ∃ m', Walk AddsExactly im f 3 m 7 m' 10 ∧ Turning product (y - 1) m' ∧
      m'.val (Reg.a 1) = m.val (Reg.a 1) := by
  have hcode : CodeAt f 7 [.binary (Reg.a 2) .add (Reg.a 2) (Reg.a 0),
      .binary (Reg.a 2) .mod (Reg.a 2) (Reg.t 1)] := codeAt_of_body hbody ⟨_, rfl⟩
  have hlabel : f.body[9]? = some (Instr.label skip) := by rw [hbody]; rfl
  -- The two summands are remainders, so their sum does not overflow.
  have hfits := h.part.sum_fits.1
  obtain ⟨w, hw, hsum⟩ := writes_addMod im (f := f) (d := Reg.a 2) h.zero (by decide)
    (by decide) (by decide) (by decide) (show (Reg.a 0).Valid by decide) h.modulus hfits.1 hfits.2
  obtain ⟨m₁, hwalk, hval, hmem, hkeep⟩ := walk_writes im (P := AddsExactly) hcode hw
    (by simpa [AddsExactly] using hfits) (by simp [AddsExactly])
  have hz₁ : m₁.val Reg.x0 = 0 := (hkeep.val _ (by decide) (by decide)).trans h.zero
  have hidle := keeps_idle hz₁
  refine ⟨_, hwalk.trans (walk_label hlabel trivial), ?_, ?_⟩
  · have hturning : Turning product (y - 1) m₁ := {
      zero := hz₁
      modulus := (hkeep.val _ (by decide) (by decide)).trans h.modulus
      part := by
        rw [hkeep.val (Reg.a 0) (by decide) (by decide), hval, hsum]
        exact h.part.add hy }
    exact hturning.keep hidle fun _ _ => not_false
  · exact (hidle.val _ (by decide) not_false).trans (hkeep.val _ (by decide) (by decide))

/-- A turn takes the lowest bit. -/
theorem walk_bit (hskip : f.labels[skip]? = some 9) {y : Word} (h : Turning product y.toInt m)
    (hy : m.val (Reg.a 1) = y) (hy0 : y ≠ 0) :
    ∃ k m', k ≤ 6 ∧ Walk AddsExactly im f k m 4 m' 10 ∧
      Turning product (2 * (y.toInt / 2)) m' ∧ m'.val (Reg.a 1) = y := by
  have hexit : f.body[4]? = some (Instr.branch (Reg.a 1) Reg.x0 .eq done) := by rw [hbody]; rfl
  have htest : f.body[6]? = some (Instr.branch (Reg.t 0) Reg.x0 .eq skip) := by rw [hbody]; rfl
  have hcode : CodeAt f 5 [.shift (Reg.t 0) (Reg.a 1) .left 31] := codeAt_of_body hbody ⟨_, rfl⟩
  -- there are bits left, so the loop goes on
  have hwalk₁ : Walk AddsExactly im f 1 m 4 m.tick.resetZero 5 :=
    walk_untaken hexit trivial (by decide) (by decide) (by
      rw [hy, h.zero]
      simpa [Rel.holds] using hy0)
  have hkeep₁ := keeps_idle h.zero
  revert hwalk₁ hkeep₁
  generalize m.tick.resetZero = m₁
  intro hwalk₁ hkeep₁
  have h₁ := h.keep hkeep₁ fun _ _ => not_false
  have hy₁ : m₁.val (Reg.a 1) = y := (hkeep₁.val _ (by decide) not_false).trans hy
  obtain ⟨m₂, hwalk₂, hval₂, hmem₂, hkeep₂⟩ := walk_writes im (P := AddsExactly) hcode
    (writes_shift h₁.zero (by decide) (by decide) (by decide) rfl)
    (by simp [AddsExactly]) (by simp [AddsExactly])
  have h₂ := h₁.keep hkeep₂ (by decide)
  have hy₂ : m₂.val (Reg.a 1) = y := (hkeep₂.val _ (by decide) (by decide)).trans hy₁
  have hrel : Rel.eq.holds (m₂.val (Reg.t 0)) (m₂.val Reg.x0) = decide (y.toInt % 2 = 0) := by
    rw [hval₂, h₂.zero, hy₁]
    exact shiftLeft_top y
  have hkeep₃ := keeps_idle h₂.zero
  have h₃ := h₂.keep hkeep₃ fun _ _ => not_false
  have hy₃ : m₂.tick.resetZero.val (Reg.a 1) = y := (hkeep₃.val _ (by decide) not_false).trans hy₂
  -- the shifted word is zero when the lowest bit is, and then the addition is skipped
  rcases Int.emod_two_eq_zero_or_one y.toInt with heven | hodd
  · have hwalk₃ : Walk AddsExactly im f 1 m₂ 6 m₂.tick.resetZero 10 :=
      walk_taken htest trivial (by decide) (by decide) (by rw [hrel, decide_eq_true heven]) hskip
    refine ⟨3, _, by decide, (hwalk₁.trans hwalk₂).trans hwalk₃, ?_, hy₃⟩
    rwa [show 2 * (y.toInt / 2) = y.toInt by omega]
  · have hwalk₃ : Walk AddsExactly im f 1 m₂ 6 m₂.tick.resetZero 7 :=
      walk_untaken htest trivial (by decide) (by decide)
        (by rw [hrel, decide_eq_false (by omega)])
    obtain ⟨m₄, hwalk₄, h₄, hy₄⟩ := walk_odd im hbody h₃ hodd
    refine ⟨6, m₄, by decide, ((hwalk₁.trans hwalk₂).trans hwalk₃).trans hwalk₄, ?_, hy₄.trans hy₃⟩
    rwa [show 2 * (y.toInt / 2) = y.toInt - 1 by omega]

/-- And then the factor is doubled. -/
theorem walk_double (hloop : f.labels[loop]? = some 3) {y : Word}
    (h : Turning product (2 * (y.toInt / 2)) m) (hy : m.val (Reg.a 1) = y) :
    ∃ m', Walk AddsExactly im f 4 m 10 m' 4 ∧ Turning product (y.toInt / 2) m' ∧
      (m'.val (Reg.a 1)).toInt = y.toInt / 2 := by
  have hcode : CodeAt f 10 [.binary (Reg.a 0) .add (Reg.a 0) (Reg.a 0),
      .binary (Reg.a 0) .mod (Reg.a 0) (Reg.t 1)] := codeAt_of_body hbody ⟨_, rfl⟩
  have hshift : CodeAt f 12 [.shift (Reg.a 1) (Reg.a 1) .arithRight 1] :=
    codeAt_of_body hbody ⟨_, rfl⟩
  have hjump : f.body[13]? = some (Instr.jump loop) := by rw [hbody]; rfl
  have hfits := h.part.sum_fits.2
  obtain ⟨w, hw, hsum⟩ := writes_addMod im (f := f) (d := Reg.a 0) h.zero (by decide)
    (by decide) (by decide) (by decide) (show (Reg.a 0).Valid by decide) h.modulus hfits.1 hfits.2
  obtain ⟨m₁, hwalk₁, hval₁, hmem₁, hkeep₁⟩ := walk_writes im (P := AddsExactly) hcode hw
    (by simpa [AddsExactly] using hfits) (by simp [AddsExactly])
  have hz₁ : m₁.val Reg.x0 = 0 := (hkeep₁.val _ (by decide) (by decide)).trans h.zero
  obtain ⟨m₂, hwalk₂, hval₂, hmem₂, hkeep₂⟩ := walk_writes im (P := AddsExactly) hshift
    (writes_shift hz₁ (by decide) (by decide) (by decide) rfl)
    (by simp [AddsExactly]) (by simp [AddsExactly])
  have hz₂ : m₂.val Reg.x0 = 0 := (hkeep₂.val _ (by decide) (by decide)).trans hz₁
  have hidle := keeps_idle hz₂
  refine ⟨_, (hwalk₁.trans hwalk₂).trans (walk_jump hjump trivial hloop), ?_, ?_⟩
  · have hturning : Turning product (y.toInt / 2) m₁ := {
      zero := hz₁
      modulus := (hkeep₁.val _ (by decide) (by decide)).trans h.modulus
      part := by
        -- the bits that are left are even by now, so halving them loses nothing
        have hdouble := h.part.double (by omega)
        rw [Int.mul_ediv_cancel_left _ (by decide)] at hdouble
        rw [hval₁, hsum, hkeep₁.val (Reg.a 2) (by decide) (by decide)]
        exact hdouble }
    exact (hturning.keep hkeep₂ (by decide)).keep hidle fun _ _ => not_false
  · rw [hidle.val _ (by decide) not_false, hval₂, hkeep₁.val _ (by decide) (by decide), hy]
    exact toInt_half y

/-- With no bits left the code goes to its return. -/
theorem walk_exit (hdone : f.labels[done]? = some 14) (h : Turning product 0 m)
    (hy : m.val (Reg.a 1) = 0) : ∃ m', Walk AddsExactly im f 2 m 4 m' 16 ∧
      (m'.val (Reg.a 0)).toInt = Int.tmod product Builtin.modulus := by
  have hexit : f.body[4]? = some (Instr.branch (Reg.a 1) Reg.x0 .eq done) := by rw [hbody]; rfl
  have hcode : CodeAt f 15 [.move (Reg.a 0) (Reg.a 2)] := codeAt_of_body hbody ⟨_, rfl⟩
  have hwalk₁ : Walk AddsExactly im f 1 m 4 m.tick.resetZero 15 :=
    walk_taken hexit trivial (by decide) (by decide) (by rw [hy, h.zero]; rfl) hdone
  have h₁ := h.keep (keeps_idle h.zero) fun _ _ => not_false
  obtain ⟨m₂, hwalk₂, hval₂, -, -⟩ := walk_writes im (P := AddsExactly) hcode
    (writes_move h₁.zero (by decide) (by decide) (by decide))
    (by simp [AddsExactly]) (by simp [AddsExactly])
  refine ⟨m₂, hwalk₁.trans hwalk₂, ?_⟩
  rw [hval₂]
  exact h₁.part.result

/-- From the head of the loop the code walks to its return with the remainder of the product, in up to
ten steps for each bit. -/
theorem walk_turns (hloop : f.labels[loop]? = some 3) (hskip : f.labels[skip]? = some 9)
    (hdone : f.labels[done]? = some 14) (n : Nat) {y : Word} (h : Turning product y.toInt m)
    (hy : m.val (Reg.a 1) = y) (hn : y.toInt < 2 ^ n) :
    ∃ k m', k ≤ 10 * n + 2 ∧ Walk AddsExactly im f k m 4 m' 16 ∧
      (m'.val (Reg.a 0)).toInt = Int.tmod product Builtin.modulus := by
  -- the induction is on the number of bits; each turn takes one of them
  induction n generalizing m y with
  | zero =>
    have hbits := h.part.bits
    have hzero : y = 0 := Int32.toInt_inj.1 (show y.toInt = 0 by omega)
    obtain ⟨m', hwalk, hresult⟩ := walk_exit im hbody hdone (hzero ▸ h) (hy.trans hzero)
    exact ⟨2, m', by omega, hwalk, hresult⟩
  | succ n ih =>
    by_cases hzero : y = 0
    · obtain ⟨m', hwalk, hresult⟩ := walk_exit im hbody hdone (hzero ▸ h) (hy.trans hzero)
      exact ⟨2, m', by omega, hwalk, hresult⟩
    · obtain ⟨k, m₁, hk, hwalk₁, h₁, hy₁⟩ := walk_bit im hbody hskip h hy hzero
      obtain ⟨m₂, hwalk₂, h₂, hy₂⟩ := walk_double im hbody hloop h₁ hy₁
      obtain ⟨k', m', hk', hwalk', hresult⟩ := ih (hy₂ ▸ h₂) rfl (by rw [hy₂]; omega)
      exact ⟨k + 4 + k', m', by omega, (hwalk₁.trans hwalk₂).trans hwalk', hresult⟩

/-- Before the loop the first factor is reduced and the sum is zero. -/
theorem walk_start {a b : Word} (ha : m.val (Reg.a 0) = a) (hb : m.val (Reg.a 1) = b)
    (hb0 : 0 ≤ b.toInt) : ∃ m', Walk AddsExactly im f 4 m 0 m' 4 ∧
      Turning (a.toInt * b.toInt) b.toInt m' ∧ m'.val (Reg.a 1) = b := by
  have himm : f.body[0]? = some (Instr.imm (Reg.t 1) Builtin.modulus) := by rw [hbody]; rfl
  have hmod : CodeAt f 1 [.binary (Reg.a 0) .mod (Reg.a 0) (Reg.t 1)] :=
    codeAt_of_body hbody ⟨_, rfl⟩
  have hsum : CodeAt f 2 [.imm (Reg.a 2) 0] := codeAt_of_body hbody ⟨_, rfl⟩
  have hlabel : f.body[3]? = some (Instr.label loop) := by rw [hbody]; rfl
  -- a caller may leave anything in `x0`; the first instruction resets it
  obtain ⟨m₁, hwalk₁, hz₁, hval₁, -, hkeep₁⟩ := walk_write im (P := AddsExactly) himm trivial
    (show (Reg.t 1).index? = some ⟨2, by decide⟩ from rfl) (by decide) (by decide) rfl
  have ha₁ : m₁.val (Reg.a 0) = a := (hkeep₁.val _ (by decide) (by decide)).trans ha
  have hb₁ : m₁.val (Reg.a 1) = b := (hkeep₁.val _ (by decide) (by decide)).trans hb
  obtain ⟨m₂, hwalk₂, hval₂, -, hkeep₂⟩ := walk_writes im (P := AddsExactly) hmod
    (writes_binary (w := a % word Builtin.modulus) hz₁ (by decide) (by decide) (by decide)
      (by decide) (by rw [ha₁, hval₁]; rfl))
    (by simp [AddsExactly]) (by simp [AddsExactly])
  have hz₂ : m₂.val Reg.x0 = 0 := (hkeep₂.val _ (by decide) (by decide)).trans hz₁
  obtain ⟨m₃, hwalk₃, hval₃, -, hkeep₃⟩ := walk_writes im (P := AddsExactly) hsum
    (writes_imm hz₂ (by decide) (by decide) 0)
    (by simp [AddsExactly]) (by simp [AddsExactly])
  have hturning : Turning (a.toInt * b.toInt) b.toInt m₃ := {
    zero := (hkeep₃.val _ (by decide) (by decide)).trans hz₂
    modulus := (hkeep₃.val _ (by decide) (by decide)).trans
      ((hkeep₂.val _ (by decide) (by decide)).trans hval₁)
    part := by
      rw [hkeep₃.val (Reg.a 0) (by decide) (by decide), hval₂, hval₃, Int32.toInt_mod]
      exact Partial.start hb0 }
  have hidle := keeps_idle hturning.zero
  refine ⟨_, ((hwalk₁.trans hwalk₂).trans hwalk₃).trans (walk_label hlabel trivial),
    hturning.keep hidle fun _ _ => not_false, ?_⟩
  rw [hidle.val _ (by decide) not_false, hkeep₃.val _ (by decide) (by decide),
    hkeep₂.val _ (by decide) (by decide), hb₁]

end Loop

end Machine

/-! ## Calls -/

namespace Builtin

open Machine

/-- Where the labels of the multiplication stand. -/
theorem labelTable_multiplyCode {loop skip done : Int} (h : [loop, skip, done].Nodup) :
    (Image.labelTable (multiplyCode loop skip done))[loop]? = some 3 ∧
      (Image.labelTable (multiplyCode loop skip done))[skip]? = some 9 ∧
      (Image.labelTable (multiplyCode loop skip done))[done]? = some 14 := by
  have htable : Image.labelTable (multiplyCode loop skip done) =
      ((({} : Std.TreeMap Int Nat).insert loop 3).insert skip 9).insert done 14 := rfl
  simp only [List.nodup_cons, List.mem_cons, List.not_mem_nil, or_false, not_or] at h
  obtain ⟨⟨hls, hld⟩, hsd, -⟩ := h
  rw [htable]
  simp only [Std.TreeMap.getElem?_insert, Std.LawfulEqCmp.compare_eq_iff_eq, Ne.symm hls, Ne.symm hld,
    Ne.symm hsd, if_true, if_false, and_self]

/-- After its arguments are passed, the code walks to its return with the remainder of the product. -/
theorem walk_multiply (c : Counters) (im : Image) (m : Machine) {a b : Word} (hb : 0 ≤ b.toInt) :
    ∃ n m', n ≤ 316 ∧ Walk AddsExactly im (Image.loadFunc (multiply.lower c).1) n
        ((m.passArgs [a, b]).1.entered (Image.loadFunc (multiply.lower c).1)) 0 m' 16 ∧
      (m'.val (Reg.a 0)).toInt = Int.tmod (a.toInt * b.toInt) modulus := by
  obtain ⟨hloop, hskip, hdone⟩ := labelTable_multiplyCode
    (nodup_drawLabels (n := 3) (by decide) c)
  have hargs : [a, b].length ≤ Reg.argCount := by simp [Reg.argCount]
  have hbody : (Image.loadFunc (multiply.lower c).1).body = (multiplyCode _ _ _).toArray := rfl
  -- The start loads the modulus and clears the sum; then each bit takes a turn.
  obtain ⟨m₁, hwalk₁, hturning, hb₁⟩ := walk_start im
    (m := (m.passArgs [a, b]).1.entered (Image.loadFunc (multiply.lower c).1)) hbody
    (val_passArgs m hargs (i := 0) (by simp))
    (val_passArgs m hargs (i := 1) (by simp)) hb
  obtain ⟨k, m', hk, hwalk₂, hresult⟩ := walk_turns im hbody hloop hskip hdone 31 hturning hb₁
    (Int32.toInt_lt b)
  exact ⟨4 + k, m', by omega, hwalk₁.trans hwalk₂, hresult⟩

theorem ret_multiply (c : Counters) : (Image.loadFunc (multiply.lower c).1).body[16]? = some Instr.ret := rfl

/-- A call of the multiplication by a factor that is not negative returns the remainder of the
product, and no addition on the way overflows. -/
theorem call_multiply (c : Counters) {im : Image} {lim : Limits} {m : Machine} {a b : Word}
    (hb : 0 ≤ b.toInt) (hadmits : Admits im lim m "multiply" (Image.loadFunc (multiply.lower c).1))
    (hlim : Allows lim (m.steps + 317)) :
    (∃ m' r, m.call im lim "multiply" [a, b] = (m', .returned r) ∧
      r.toInt = Int.tmod (a.toInt * b.toInt) modulus) ∧
    ∀ m' top rest x, Visits im lim ((m.passArgs [a, b]).1.entered (Image.loadFunc (multiply.lower c).1))
        ⟨Image.loadFunc (multiply.lower c).1, 0⟩ [] m' top rest →
      top.func.body[top.pc]? = some x → AddsExactly m' x := by
  obtain ⟨n, m', hn, hwalk, hresult⟩ := walk_multiply c im m (a := a) hb
  constructor
  · exact ⟨_, _, call_of_walk (by simp [Reg.argCount]) hadmits hwalk (ret_multiply c)
      (hlim.mono (by omega)) (by omega), hresult⟩
  -- The states on the way are those of the walk, and the return behind it.
  · intro m₂ top rest x hvisits hx
    rcases hwalk.visited (ret_multiply c) hvisits hx with rfl | h
    · trivial
    · exact h

/-- The least word times the greatest one. -/
theorem call_multiply_extremes : ∃ m' r,
    fresh.call (Image.ofCode { funcs := [(multiply.lower {}).1] }) {} "multiply"
      [-2147483648, 2147483647] = (m', .returned r) ∧ r.toInt = -581140212 := by
  have hadmits := admits_fresh (g := (multiply.lower {}).1) rfl
  obtain ⟨m', r, hcall, hr⟩ := (call_multiply {} (a := -2147483648) (b := 2147483647) (by decide)
    hadmits (Or.inr (by decide))).1
  exact ⟨m', r, hcall, hr.trans (by decide)⟩

end Builtin

end Tac
