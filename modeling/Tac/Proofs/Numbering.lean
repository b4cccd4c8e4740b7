import Mathlib
import Tac.VReg
import Tac.Proofs.Allocation
import Tac.Proofs.Reading

/-!
# Numbers of virtual registers

A virtual register is a temporary, a local or a parameter with a number in its name; both go into one
number, three times the one plus a mark of the other.  The names of a program that is read have any
number of 64 bits, so the product wraps for the upper two thirds of them.

* **`VReg.Kind.number_cases`** — below the bound the number is exact, then negative, then that of another
  register.
* **`VReg.Kind.number_eq_iff`** — two registers have one number iff they are the same, or the name of
  one is a whole turn above that of the other.
* **`VReg.Kind.text_number_iff`** — the name can be had from the number iff the number is exact.
* **`Program.numbers_of_parse`** — so for all operands of a program that is read;
  **`Program.numbers_collide`** is a program with two operands of one number.
-/

namespace Tac

namespace VReg

/-- What competes for registers. -/
inductive Kind where
  | temp | loc | param
deriving DecidableEq, Repr

namespace Kind

/-- The mark of the kind in a number. -/
def code : Kind → Int
  | temp => 0
  | loc => 1
  | param => 2

/-- The mark of the kind in a name. -/
def marker : Kind → String
  | temp => "t"
  | loc => "T"
  | param => "p"

/-- The number of a register, in 64 bits. -/
def number (k : Kind) (n : Int) : Int := wrap64 (3 * n + k.code)

/-- The number does not wrap. -/
def Fits (k : Kind) (n : Int) : Prop := 3 * n + k.code < 9223372036854775808

/-- The number goes around once and is not negative again. -/
def Around (k : Kind) (n : Int) : Prop := 18446744073709551616 ≤ 3 * n + k.code

instance (k : Kind) (n : Int) : Decidable (k.Fits n) := inferInstanceAs (Decidable (_ < _))

variable {k l : Kind} {m n : Int}

theorem code_bounds (k : Kind) : 0 ≤ k.code ∧ k.code ≤ 2 := by
  cases k <;> decide

/-- Different kinds have different codes. -/
theorem code_injective : Function.Injective code := by
  intro k l h
  cases k <;> cases l <;> first | rfl | cases h

/-- A name of 64 bits goes around once at most. -/
theorem number_cases (k : Kind) (hn : FitsName n) :
    (k.Fits n ∧ k.number n = 3 * n + k.code) ∨
      (¬ k.Fits n ∧ k.number n = 3 * n + k.code - 18446744073709551616) := by
  obtain ⟨h0, hmax⟩ := hn
  have hcode := k.code_bounds
  unfold Fits number
  rw [wrap64, Int.bmod_def]
  split <;> omega

/-- A number is not negative just if it fits or wraps all the way around. -/
theorem number_nonneg_iff (hn : FitsName n) : 0 ≤ k.number n ↔ k.Fits n ∨ k.Around n := by
  have hcode := k.code_bounds
  have h0 := hn.1
  unfold Around
  rcases number_cases k hn with ⟨hf, h⟩ | ⟨hf, h⟩ <;> rw [h] <;> unfold Fits at * <;> omega

/-- Kind and name follow from the sum. -/
theorem sum_eq_iff : 3 * n + k.code = 3 * m + l.code ↔ k = l ∧ n = m := by
  constructor
  · intro h
    have hk := k.code_bounds
    have hl := l.code_bounds
    exact ⟨code_injective (by omega), by omega⟩
  · rintro ⟨rfl, rfl⟩
    rfl

/-- Two values share a number just if they are the same, or one of them wraps onto the
other. -/
theorem number_eq_iff (hn : FitsName n) (hm : FitsName m) : k.number n = l.number m ↔
    (k = l ∧ n = m) ∨ 3 * n + k.code = 3 * m + l.code + 18446744073709551616 ∨
      3 * m + l.code = 3 * n + k.code + 18446744073709551616 := by
  rw [← sum_eq_iff]
  have hk := k.code_bounds
  have hl := l.code_bounds
  have hn' := number_cases k hn
  have hm' := number_cases l hm
  obtain ⟨hn0, hnmax⟩ := hn
  obtain ⟨hm0, hmmax⟩ := hm
  -- both numbers fit 64 bits, so the sums are equal or one turn apart
  unfold Fits at *
  omega

/-- Numbers that do not wrap are different for different registers. -/
theorem eq_of_number_eq (hn : FitsName n) (hm : FitsName m) (hk : k.Fits n) (hl : l.Fits m)
    (h : k.number n = l.number m) : k = l ∧ n = m := by
  have hk0 := k.code_bounds
  have hl0 := l.code_bounds
  have hn0 := hn.1
  have hm0 := hm.1
  rcases (number_eq_iff hn hm).1 h with h | h | h
  · exact h
  all_goals unfold Fits at *; omega

/-! ## From the number back to the name -/

/-- The number of what fits is not wrapped. -/
theorem number_of_fits (hn : FitsName n) (hk : k.Fits n) : k.number n = 3 * n + k.code := by
  rcases number_cases k hn with h | h
  · exact h.2
  · exact absurd hk h.1

/-- Dividing by three splits a number into kind and name. -/
theorem split_sum (k : Kind) (h0 : 0 ≤ n) :
    Int.tmod (3 * n + k.code) 3 = k.code ∧ Int.tdiv (3 * n + k.code) 3 = n := by
  have hcode := k.code_bounds
  rw [Int.tmod_eq_emod_of_nonneg (by omega), Int.tdiv_eq_ediv_of_nonneg (by omega)]
  omega

/-- A number that fits is that of a parameter just if it was made for one. -/
theorem paramIndex?_number (hn : FitsName n) (hk : k.Fits n) :
    paramIndex? (k.number n) = if k = .param then some n.toNat else none := by
  obtain ⟨hmod, hdiv⟩ := split_sum k hn.1
  rw [number_of_fits hn hk, paramIndex?, hmod, hdiv]
  cases k <;> rfl

/-- The decimal of a name is that of the number divided by three, so it says whether the number
wrapped. -/
theorem text_number_iff (hn : FitsName n) :
    VReg.text (k.number n) = k.marker ++ Text.decimal n ↔ k.Fits n := by
  constructor
  · intro h
    have hdecimal : Int.tdiv (k.number n) 3 = n := by
      apply Text.decimal_injective
      -- all marks have one letter
      have hlen : ∀ {a b c d : String}, a.length = 1 → c.length = 1 → a ++ b = c ++ d → b = d := by
        intro a b c d ha hc heq
        have hlist : a.toList ++ b.toList = c.toList ++ d.toList := by
          rw [← String.toList_append, ← String.toList_append, heq]
        refine String.toList_inj.1 (List.append_inj_right hlist ?_)
        rw [String.length_toList, String.length_toList, ha, hc]
      refine hlen ?_ ?_ h
      · split <;> rfl
      · cases k <;> rfl
    rcases number_cases k hn with ⟨hf, -⟩ | ⟨hf, hnum⟩
    · exact hf
    · have hcode := k.code_bounds
      obtain ⟨h0, hmax⟩ := hn
      unfold Fits at hf ⊢
      rcases Int.le_total 0 (k.number n) with hpos | hneg
      · rw [Int.tdiv_eq_ediv_of_nonneg hpos] at hdecimal
        omega
      · -- then the quotient is not above zero, and no name below zero wraps
        have hopp : Int.tdiv (-k.number n) 3 = -n := by rw [Int.neg_tdiv, hdecimal]
        rw [Int.tdiv_eq_ediv_of_nonneg (by omega)] at hopp
        omega
  · intro hk
    obtain ⟨hmod, hdiv⟩ := split_sum k hn.1
    rw [number_of_fits hn hk, VReg.text, hmod, hdiv]
    cases k <;> rfl

end Kind

end VReg

/-! ## Operands -/

/-- The kind of an operand that competes for registers, and the number in its name. -/
def VarTable.pooled? (vars : VarTable) : Val → Option (VReg.Kind × Int)
  | .const _ => none
  | .temp n => some (.temp, n)
  | .var id => (vars.get? id).bind fun x =>
    match x.cls with
    | .global => none
    | .loc => if x.isArray then none else some (.loc, x.index)
    | .arg => some (.param, x.index)

/-- An operand has a number iff it competes for registers. -/
theorem VarTable.number?_eq (vars : VarTable) (v : Val) :
    vars.number? v = (vars.pooled? v).map fun x => x.1.number x.2 := by
  cases v with
  | const c => rfl
  | temp n => simp [VarTable.number?, VarTable.pooled?, VReg.Kind.number, VReg.Kind.code]
  | var id =>
    rw [VarTable.number?, VarTable.pooled?]
    cases vars.get? id with
    | none => rfl
    | some x =>
      simp only [Option.bind_some, Var.number?]
      cases x.cls with
      | global => rfl
      | loc => cases x.isArray <;> rfl
      | arg => rfl

/-- What the reader accepts bounds the numbers of the values it names. -/
theorem Program.Reader.fitsName_of_pooled? {file text : String} {p : Program}
    (h : Program.parse file text = .ok p) {f : Func} (hf : f ∈ p.funcs) {s : Stmt} (hs : s ∈ f.stmts)
    {v : Val} (hv : v ∈ s.operands) {k : VReg.Kind} {n : Int} (hk : p.vars.pooled? v = some (k, n)) :
    FitsName n ∧ (k = .param → n < 2147483648) := by
  obtain ⟨-, hvars, hfuncs⟩ := Program.sane_of_parse h
  -- A temporary is numbered by its name, a variable by the index that was read.
  cases v with
  | const c => cases hk
  | temp m =>
    cases hk
    exact ⟨((hfuncs f hf).stmts s hs).operands _ hv _ rfl, fun hp => by cases hp⟩
  | var id =>
    obtain ⟨x, hx, hk⟩ := Option.bind_eq_some_iff.1 hk
    have hsane : x.Sane := by
      unfold VarTable.get? at hx
      split at hx
      · exact hvars x (Array.mem_toList_iff.2 (Array.mem_of_getElem? hx))
      · cases hx
    split at hk
    · cases hk
    · split at hk
      · cases hk
      · cases hk
        exact ⟨hsane.index, fun hp => by cases hp⟩
    · next hcls =>
      cases hk
      exact ⟨hsane.index, fun _ => hsane.few hcls⟩

namespace Program

/-- The numbers of operands in a program that is read.  They are exact, with kind and name in them, as
long as they fit 64 bits; parameters always do.  Above that a number is negative first, and then it is
that of another register. -/
theorem numbers_of_parse {file text : String} {p : Program} (h : parse file text = .ok p) {f : Func}
    (hf : f ∈ p.funcs) {s t : Stmt} (hs : s ∈ f.stmts) (ht : t ∈ f.stmts) {v w : Val}
    (hv : v ∈ s.operands) (hw : w ∈ t.operands) {k l : VReg.Kind} {n m : Int}
    (hk : p.vars.pooled? v = some (k, n)) (hl : p.vars.pooled? w = some (l, m)) :
    (p.vars.number? v = some (k.number n) ∧ 0 ≤ n ∧ (k = .param → k.Fits n)) ∧
      (0 ≤ k.number n ↔ k.Fits n ∨ k.Around n) ∧
      (VReg.text (k.number n) = k.marker ++ Text.decimal n ↔ k.Fits n) ∧
      (k.Fits n → VReg.paramIndex? (k.number n) = if k = .param then some n.toNat else none) ∧
      (p.vars.number? v = p.vars.number? w ↔
        (k = l ∧ n = m) ∨ 3 * n + k.code = 3 * m + l.code + 18446744073709551616 ∨
          3 * m + l.code = 3 * n + k.code + 18446744073709551616) ∧
      (k.Fits n → l.Fits m → p.vars.number? v = p.vars.number? w → k = l ∧ n = m) := by
  obtain ⟨hn, hparam⟩ := Reader.fitsName_of_pooled? h hf hs hv hk
  obtain ⟨hm, -⟩ := Reader.fitsName_of_pooled? h hf ht hw hl
  have hnum : p.vars.number? v = some (k.number n) := by rw [VarTable.number?_eq, hk]; rfl
  have hnum' : p.vars.number? w = some (l.number m) := by rw [VarTable.number?_eq, hl]; rfl
  refine ⟨⟨hnum, hn.1, ?_⟩, VReg.Kind.number_nonneg_iff hn, VReg.Kind.text_number_iff hn,
    VReg.Kind.paramIndex?_number hn, ?_, ?_⟩
  -- The reader takes fewer parameters than would wrap.
  · rintro rfl
    have hlt := hparam rfl
    have hcode : VReg.Kind.param.code = 2 := rfl
    unfold VReg.Kind.Fits
    omega
  · rw [hnum, hnum', Option.some_inj]
    exact VReg.Kind.number_eq_iff hn hm
  · intro hkn hlm heq
    rw [hnum, hnum', Option.some_inj] at heq
    exact VReg.Kind.eq_of_number_eq hn hm hkn hlm heq

/-- A temporary, a local and a parameter. -/
def mixedText : String :=
  "f_main [1]\n    var t0\n    var T5\n    T5 = p0\n    t0 = T5 + p0\n    return t0\nend f_main\n"

/-- The temporary and the parameter of the sum have their own numbers. -/
theorem numbers_of_parse_mixed : ∃ p, parse "in.e" mixedText = .ok p ∧ ∃ f ∈ p.funcs, ∃ s ∈ f.stmts,
    ∃ v ∈ s.operands, ∃ w ∈ s.operands, p.vars.pooled? v = some (.temp, 0) ∧
      p.vars.pooled? w = some (.param, 0) ∧ p.vars.number? v ≠ p.vars.number? w := by
  have htext : mixedText = String.ofList _ := rfl
  have htest : (parse "in.e" mixedText).toOption.any (fun p => p.funcs.any fun f => f.stmts.any fun s =>
      s.operands.any fun v => s.operands.any fun w =>
        decide (p.vars.pooled? v = some (.temp, 0)) && decide (p.vars.pooled? w = some (.param, 0))) =
      true := by
    rw [htext, parse, String.toList_ofList]
    decide +kernel
  obtain ⟨p, hp, htest⟩ := exists_ok_of_any htest
  simp only [List.any_eq_true, Bool.and_eq_true, decide_eq_true_eq] at htest
  obtain ⟨f, hf, s, hs, v, hv, w, hw, hk, hl⟩ := htest
  refine ⟨p, hp, f, hf, s, hs, v, hv, w, hw, hk, hl, fun heq => ?_⟩
  have hsame := (numbers_of_parse hp hf hs hs hv hw hk hl).2.2.2.2.2 (by decide) (by decide) heq
  exact absurd hsame.1 (by decide)

/-- A local whose number goes around to that of a temporary. -/
def collidingText : String :=
  "f_main [0]\n    var t0\n    var T6148914691236517205\n    T6148914691236517205 = 1\n    t0 = 2\n" ++
    "    t0 = t0 + T6148914691236517205\n    return t0\nend f_main\n"

/-- Both operands of the sum are one virtual register. -/
theorem numbers_collide : ∃ p, parse "in.e" collidingText = .ok p ∧ ∃ f ∈ p.funcs, ∃ s ∈ f.stmts,
    ∃ v ∈ s.operands, ∃ w ∈ s.operands, p.vars.pooled? v = some (.temp, 0) ∧
      p.vars.pooled? w = some (.loc, 6148914691236517205) ∧ p.vars.number? v = p.vars.number? w := by
  have htext : collidingText = String.ofList _ := Text.append_eq_ofList rfl rfl
  have htest : (parse "in.e" collidingText).toOption.any (fun p => p.funcs.any fun f =>
      f.stmts.any fun s => s.operands.any fun v => s.operands.any fun w =>
        decide (p.vars.pooled? v = some (.temp, 0)) &&
          decide (p.vars.pooled? w = some (.loc, 6148914691236517205)) &&
            decide (p.vars.number? v = p.vars.number? w)) = true := by
    rw [htext, parse, String.toList_ofList]
    decide +kernel
  obtain ⟨p, hp, htest⟩ := exists_ok_of_any htest
  simp only [List.any_eq_true, Bool.and_eq_true, decide_eq_true_eq, and_assoc] at htest
  exact ⟨p, hp, htest⟩

end Program

end Tac
