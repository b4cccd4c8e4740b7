import Mathlib
import Tac.Reg

/-!
# Members of register sets

A set of registers is a 32-bit mask, so it holds exactly the registers whose numbers lie from 0 to
31 (`Reg.Masked`); inserting any other leaves no trace.  All registers of the target are among them.

* **`contains_insert`, `contains_union`, `contains_ofList`** — members after each operation.
* **`mem_toList`, `nodup_toList`** — the listing holds exactly the members, once each.
* **`Reg.mem_allocatable_iff`, `Reg.argIndex?_eq_some_iff`** — the fixed lists of registers by number.
-/

namespace Tac

namespace Reg

/-- A register whose number has a bit in the mask of a set. -/
def Masked (r : Reg) : Prop := 0 ≤ r.num ∧ r.num < 32

instance (r : Reg) : Decidable r.Masked := inferInstanceAs (Decidable (_ ∧ _))

/-- A register of the target, from `x0` to the last further one. -/
def Valid (r : Reg) : Prop := 0 ≤ r.num ∧ r.num < count

instance (r : Reg) : Decidable r.Valid := inferInstanceAs (Decidable (_ ∧ _))

/-- A register of the machine fits the mask. -/
theorem Valid.masked {r : Reg} (h : r.Valid) : r.Masked := by
  obtain ⟨h0, h1⟩ := h
  simp only [count] at h1
  exact ⟨h0, by omega⟩

/-- Registers are known by their numbers. -/
theorem ext_num {r q : Reg} (h : r.num = q.num) : r = q := by
  cases r
  cases q
  simp only at h
  rw [h]

/-- The registers open to allocation are those numbered from 3 on. -/
theorem mem_allocatable_iff (r : Reg) : r ∈ allocatable ↔ 3 ≤ r.num ∧ r.num < 28 := by
  constructor
  · intro h
    have hall : ∀ q ∈ allocatable, 3 ≤ q.num ∧ q.num < 28 := by decide
    exact hall r h
  · rintro ⟨hlo, hhi⟩
    -- the list is short enough to be searched for every number
    have hall : ∀ n : Fin 28, 3 ≤ n.val → (⟨(n.val : Int)⟩ : Reg) ∈ allocatable := by decide
    have hnat : ((r.num.toNat : Nat) : Int) = r.num := Int.toNat_of_nonneg (by omega)
    have hmem := hall ⟨r.num.toNat, by omega⟩ (by simp only; omega)
    rwa [show (⟨((r.num.toNat : Nat) : Int)⟩ : Reg) = r from ext_num hnat] at hmem

/-- The registers that are given to values are registers of the machine. -/
theorem valid_of_mem_allocatable {r : Reg} (h : r ∈ allocatable) : r.Valid := by
  obtain ⟨hlo, hhi⟩ := (mem_allocatable_iff r).1 h
  simp only [Valid, count]
  omega

theorem num_a (i : Nat) : (a i).num = 8 + i := rfl

/-- Different arguments have different registers. -/
theorem a_injective {i j : Nat} (h : a i = a j) : i = j := by
  have := congrArg Reg.num h
  rw [num_a, num_a] at this
  omega

/-- The argument registers are given to values too. -/
theorem a_mem_allocatable {i : Nat} (h : i < argCount) : a i ∈ allocatable := by
  rw [mem_allocatable_iff, num_a]
  simp only [argCount] at h
  omega

theorem valid_a {i : Nat} (h : i < argCount) : (a i).Valid :=
  valid_of_mem_allocatable (a_mem_allocatable h)

/-- Exactly the first eight arguments have a register. -/
theorem arg?_eq (i : Nat) : arg? (i : Int) = if i < argCount then some (a i) else none := by
  unfold arg?
  by_cases h : i < argCount
  · rw [if_pos h, if_pos ⟨by omega, by omega⟩, Int.toNat_natCast]
  · rw [if_neg h, if_neg (by omega)]

/-- A register is an argument register exactly when it passes the argument of its index. -/
theorem argIndex?_eq_some_iff (r : Reg) (j : Nat) :
    r.argIndex? = some j ↔ j < argCount ∧ r = a j := by
  unfold argIndex?
  constructor
  -- Argument registers are numbered one after the other.
  · intro h
    split at h
    · next hr =>
      obtain rfl := Option.some.inj h
      refine ⟨by simp only [argCount]; omega, ext_num ?_⟩
      rw [num_a]
      omega
    · cases h
  · rintro ⟨hj, rfl⟩
    simp only [argCount] at hj
    rw [num_a, if_pos (by omega)]
    congr 1
    omega

/-- A register of the machine has its number as index. -/
theorem index?_of_valid {r : Reg} (h : r.Valid) :
    ∃ i : Fin count, r.index? = some i ∧ (i.val : Int) = r.num := by
  obtain ⟨h0, h1⟩ := h
  refine ⟨⟨r.num.toNat, by simp only [count] at h1 ⊢; omega⟩, ?_, ?_⟩
  · unfold index?
    rw [dif_pos ⟨h0, h1⟩]
  · simp only
    omega

end Reg

namespace RegSet

/-! ## The mask -/

/-- The bit of a register as a bit vector. -/
theorem toBitVec_bit {r : Reg} (h : r.Masked) : (bit r).toBitVec = BitVec.twoPow 32 r.num.toNat := by
  obtain ⟨h0, h1⟩ := h
  have hs : (BitVec.ofNat 32 r.num.toNat % (32 : BitVec 32)).toNat = r.num.toNat := by
    rw [BitVec.toNat_umod, BitVec.toNat_ofNat]
    rw [show (32 : BitVec 32).toNat = 32 from rfl]
    rw [Nat.mod_eq_of_lt (show r.num.toNat < 2 ^ 32 by omega), Nat.mod_eq_of_lt (by omega)]
  rw [bit, if_pos ⟨h0, h1⟩, UInt32.toBitVec_shiftLeft, BitVec.shiftLeft_eq',
    UInt32.toBitVec_ofNat', hs]
  rfl

/-- A register that does not fit the mask has no bit. -/
theorem bit_of_not_masked {r : Reg} (h : ¬ r.Masked) : bit r = 0 := by
  unfold Reg.Masked at h
  rw [bit, if_neg h]

/-- Membership reads the bit of the register's number; a register outside the mask is in no set. -/
theorem contains_eq (s : RegSet) (r : Reg) :
    s.contains r = (decide r.Masked && s.mask.toBitVec.getLsbD r.num.toNat) := by
  by_cases hr : r.Masked
  · have hlt : r.num.toNat < 32 := by
      have := hr.2
      have := hr.1
      omega
    -- Masking leaves a single bit or nothing.
    have hand : (s.mask &&& bit r).toBitVec =
        if s.mask.toBitVec.getLsbD r.num.toNat then BitVec.twoPow 32 r.num.toNat else 0 := by
      rw [UInt32.toBitVec_and, toBitVec_bit hr, BitVec.and_twoPow]
      rfl
    rw [contains, decide_eq_true hr, Bool.true_and]
    cases h : s.mask.toBitVec.getLsbD r.num.toNat with
    | false =>
      rw [h] at hand
      have : s.mask &&& bit r = 0 := UInt32.toBitVec_inj.1 (by rw [hand]; rfl)
      simp [this]
    | true =>
      rw [h] at hand
      have hne : s.mask &&& bit r ≠ 0 := by
        intro h0
        rw [h0] at hand
        have hb := congrArg (fun v : BitVec 32 => v.getLsbD r.num.toNat) hand
        simp [hlt] at hb
      simp [hne]
  -- A register without a bit is in no set.
  · rw [contains, bit_of_not_masked hr]
    simp [hr]

/-- The members of a set fit the mask. -/
theorem masked_of_contains {s : RegSet} {r : Reg} (h : s.contains r = true) : r.Masked := by
  rw [contains_eq, Bool.and_eq_true] at h
  exact of_decide_eq_true h.1

/-! ## Members after each operation -/

@[simp] theorem contains_empty (r : Reg) : empty.contains r = false := by
  rw [contains_eq]
  simp [empty]

/-- Inserting adds one member, if it fits the mask. -/
theorem contains_insert (s : RegSet) (q r : Reg) :
    (s.insert q).contains r = ((decide (r = q) && decide r.Masked) || s.contains r) := by
  rw [contains_eq, contains_eq]
  by_cases hr : r.Masked
  · by_cases hq : q.Masked
    · have hlt : r.num.toNat < 32 := by
        have := hr.2
        have := hr.1
        omega
      have hiff : q.num.toNat = r.num.toNat ↔ r = q := by
        constructor
        · intro h
          apply Reg.ext_num
          have := hr.1
          have := hq.1
          omega
        · intro h
          rw [h]
      simp only [insert, UInt32.toBitVec_or, BitVec.getLsbD_or, toBitVec_bit hq,
        BitVec.getLsbD_twoPow, hr, hiff]
      by_cases h : r = q
      · subst h
        simp [hlt]
      · simp [h]
    · -- a register without a bit is not inserted, and is no member
      have hne : r ≠ q := fun h => hq (h ▸ hr)
      simp [insert, bit_of_not_masked hq, hne]
  · simp [hr]

/-- The members of a union. -/
@[simp] theorem contains_union (s t : RegSet) (r : Reg) :
    (s.union t).contains r = (s.contains r || t.contains r) := by
  rw [contains_eq, contains_eq, contains_eq]
  simp only [union, UInt32.toBitVec_or, BitVec.getLsbD_or]
  cases decide r.Masked <;> rfl

/-- Inserting a list adds those of its members that fit the mask. -/
theorem contains_foldl_insert (rs : List Reg) (s : RegSet) (r : Reg) :
    (rs.foldl insert s).contains r = ((decide (r ∈ rs) && decide r.Masked) || s.contains r) := by
  induction rs generalizing s with
  | nil => simp
  | cons q rs ih =>
    rw [List.foldl_cons, ih, contains_insert]
    by_cases hr : r.Masked
    · by_cases hq : r = q
      · subst hq
        simp [hr]
      · simp [hq, hr]
    · simp [hr]

/-- The set of a list holds those of its registers that the mask can hold. -/
theorem contains_ofList (rs : List Reg) (r : Reg) :
    (ofList rs).contains r = (decide (r ∈ rs) && decide r.Masked) := by
  rw [ofList, contains_foldl_insert, contains_empty, Bool.or_false]

/-! ## The listing -/

/-- The members are listed. -/
theorem mem_toList (s : RegSet) (r : Reg) : r ∈ s.toList ↔ s.contains r = true := by
  rw [toList, List.mem_filter]
  constructor
  · exact fun h => h.2
  · intro h
    refine ⟨?_, h⟩
    obtain ⟨h0, h1⟩ := masked_of_contains h
    refine List.mem_map.2 ⟨r.num.toNat, List.mem_range.2 (by omega), Reg.ext_num ?_⟩
    simp only
    omega

/-- No member is listed twice. -/
theorem nodup_toList (s : RegSet) : s.toList.Nodup := by
  rw [toList]
  refine List.Nodup.filter _ (List.Nodup.map ?_ List.nodup_range)
  intro i j hij
  have := congrArg Reg.num hij
  simp only at this
  omega

end RegSet

end Tac
