import Mathlib
import Tac.Coloring
import Tac.Proofs.Coloring

/-!
# Where parameters end up

Parameters are put into the registers that pass them one after the other, each by a swap of two
registers in *all* locations.  A later swap can therefore carry an earlier parameter away again, and
it does so exactly when the two share a register.

* **`placeParams_spec`** — what the remaining swaps do to a register: one that no remaining parameter
  holds stays if it was already placed, and one that a remaining parameter holds ends up as the
  register of the last such parameter.
* **`Placed.last_sharer`** — so a parameter in a register ends up where the last parameter that
  shares its location is passed.
-/

namespace Tac

namespace Loc

/-- The location with its register renamed. -/
def rename (σ : Equiv.Perm Reg) : Loc → Loc
  | reg r => reg (σ r)
  | l => l

theorem rename_refl : rename (Equiv.refl Reg) = id := by
  funext l
  cases l <;> rfl

theorem rename_trans (σ τ : Equiv.Perm Reg) : rename τ ∘ rename σ = rename (σ.trans τ) := by
  funext l
  cases l <;> rfl

/-- Renaming registers brings no two locations together. -/
theorem clashes_rename (σ : Equiv.Perm Reg) (l m : Loc) :
    (l.rename σ).clashes (m.rename σ) = l.clashes m := by
  cases l <;> cases m <;> simp [rename, clashes]

/-- Renaming registers leaves slots alone. -/
theorem rename_eq_stack_iff (σ : Equiv.Perm Reg) (l : Loc) (s n : Int) :
    l.rename σ = stack s n ↔ l = stack s n := by
  cases l <;> simp [rename]

end Loc

namespace Coloring

/-- Swapping two registers in a location is renaming by a transposition. -/
theorem swapLoc_eq (a b : Reg) (l : Loc) : swapLoc a b l = l.rename (Equiv.swap a b) := by
  cases l with
  | reg r => simp only [swapLoc, Loc.rename, Equiv.swap_apply_def]
  | stack s n => rfl

/-- Swapping two registers in the table renames every location. -/
theorem getElem?_swapAll (a b : Reg) (locs : Locs) (u : VReg) :
    (swapAll a b locs)[u]? = (locs[u]?).map (Loc.rename (Equiv.swap a b)) := by
  rw [swapAll, Std.TreeMap.getElem?_map, funext (swapLoc_eq a b)]

/-- The parameters from number `i` to below `n` that hold register `r`. -/
def Held (locs : Locs) (i n : Nat) (r : Reg) : Prop :=
  ∃ j, i ≤ j ∧ j < n ∧ locs[VReg.param j]? = some (.reg r)

/-- What the swaps for the parameters from number `i` to below `n` do to all locations. -/
structure Placed (locs locs' : Locs) (i n : Nat) (σ : Equiv.Perm Reg) : Prop where
  renamed : ∀ u : VReg, locs'[u]? = (locs[u]?).map (Loc.rename σ)
  in_register : ∀ j, i ≤ j → j < n → ∀ l, locs[VReg.param j]? = some l → ∃ r, l = .reg r
  stays : ∀ k, k < i → ¬ Held locs i n (Reg.a k) → σ (Reg.a k) = Reg.a k
  moves : ∀ j r, i ≤ j → j < n → locs[VReg.param j]? = some (.reg r) →
    ¬ Held locs (j + 1) n r → σ r = Reg.a j

/-- When all parameters are placed nothing is swapped any more. -/
theorem placed_done (locs : Locs) (i : Nat) : Placed locs locs i i (Equiv.refl Reg) := by
  refine ⟨fun u => ?_, fun j h1 h2 => ?_, fun k _ _ => rfl, fun j r h1 h2 => ?_⟩
  · rw [Loc.rename_refl, Option.map_id_fun, id]
  · omega
  · omega

/-- A parameter without a location changes nothing. -/
theorem Placed.unused {locs locs' : Locs} {i n : Nat} {σ : Equiv.Perm Reg}
    (h : Placed locs locs' (i + 1) n σ) (hi : locs[VReg.param i]? = none) :
    Placed locs locs' i n σ := by
  refine ⟨h.renamed, fun j h1 h2 l hl => ?_, fun k hk hheld => ?_, fun j r h1 h2 hr hheld => ?_⟩
  -- A parameter without a location is passed over.
  · have hj : j ≠ i := by
      rintro rfl
      rw [hi] at hl
      cases hl
    exact h.in_register j (by omega) h2 l hl
  · refine h.stays k (by omega) fun ⟨j, h1, h2, hj⟩ => hheld ⟨j, by omega, h2, hj⟩
  · have hj : j ≠ i := by
      rintro rfl
      rw [hi] at hr
      cases hr
    exact h.moves j r (by omega) h2 hr hheld

/-- A parameter that is swapped into place.  One that is in place already is the case where the two
registers are the same. -/
theorem Placed.swap {locs locs₁ locs' : Locs} {i n : Nat} {σ : Equiv.Perm Reg} {r : Reg}
    (hin : i < n) (hi : locs[VReg.param i]? = some (.reg r))
    (hswap : ∀ u : VReg, locs₁[u]? = (locs[u]?).map (Loc.rename (Equiv.swap r (Reg.a i))))
    (h : Placed locs₁ locs' (i + 1) n σ) :
    Placed locs locs' i n ((Equiv.swap r (Reg.a i)).trans σ) := by
  generalize hτ : Equiv.swap r (Reg.a i) = τ at hswap
  -- `locs₁` holds `τ q` where `locs` holds `q`, so who holds what is the same up to `τ`
  have hget : ∀ (u : VReg) (q : Reg),
      locs₁[u]? = some (.reg (τ q)) ↔ locs[u]? = some (.reg q) := by
    intro u q
    rw [hswap, Option.map_eq_some_iff]
    constructor
    · rintro ⟨l, hl, heq⟩
      cases l with
      | reg p =>
        have hpq : p = q := τ.injective (Loc.reg.inj heq)
        rw [hl, hpq]
      | stack s m => cases heq
    · intro hl
      exact ⟨_, hl, rfl⟩
  have hheld : ∀ j q, Held locs₁ j n (τ q) ↔ Held locs j n q := by
    intro j q
    simp only [Held, hget]
  refine ⟨fun u => ?_, fun j h1 h2 l hl => ?_, fun k hk hnot => ?_, fun j q h1 h2 hq hnot => ?_⟩
  · rw [h.renamed, hswap, Option.map_map, Loc.rename_trans]
  · by_cases hj : j = i
    · subst hj
      rw [hi] at hl
      exact ⟨r, (Option.some.inj hl).symm⟩
    · cases l with
      | reg q => exact ⟨q, rfl⟩
      | stack s m =>
        have hl' : locs₁[VReg.param j]? = some (.stack s m) := by
          rw [hswap, hl]
          rfl
        obtain ⟨q, hq⟩ := h.in_register j (by omega) h2 _ hl'
        cases hq
  · -- neither of the two registers is that of parameter `k`
    have hkr : Reg.a k ≠ r := by
      rintro rfl
      exact hnot ⟨i, le_refl i, hin, hi⟩
    have hki : Reg.a k ≠ Reg.a i := fun heq => by
      have := Reg.a_injective heq
      omega
    have hfix : τ (Reg.a k) = Reg.a k := by
      rw [← hτ]
      exact Equiv.swap_apply_of_ne_of_ne hkr hki
    rw [Equiv.trans_apply, hfix]
    refine h.stays k (by omega) fun hh => hnot ?_
    rw [← hfix, hheld] at hh
    obtain ⟨j, h1, h2, hj⟩ := hh
    exact ⟨j, by omega, h2, hj⟩
  · rw [Equiv.trans_apply]
    by_cases hj : j = i
    · -- the parameter that is placed now: no later one takes its register away
      subst hj
      rw [hi] at hq
      obtain rfl := Loc.reg.inj (Option.some.inj hq)
      have hr : τ r = Reg.a j := by
        rw [← hτ]
        exact Equiv.swap_apply_left r (Reg.a j)
      rw [hr]
      refine h.stays j (by omega) fun hh => hnot ?_
      rwa [← hr, hheld] at hh
    · exact h.moves j _ (by omega) h2 ((hget _ _).2 hq) fun hh => hnot ((hheld _ _).1 hh)

/-- Placing parameters without error, as a renaming of registers. -/
theorem placeParams_spec {func : String} {count : Nat} : ∀ (left i : Nat) {locs locs' : Locs}
    {fates fates' : List ParamFate},
    placeParams func count left i locs fates = (locs', fates', none) →
      ∃ σ, Placed locs locs' i (i + left) σ := by
  intro left
  -- induction on the parameters left; in place already counts as a swap of equal registers
  induction left with
  | zero =>
    intro i locs locs' fates fates' h
    cases h
    exact ⟨_, placed_done locs i⟩
  | succ left ih =>
    intro i locs locs' fates fates' h
    have hsum : i + (left + 1) = i + 1 + left := by omega
    rw [hsum]
    unfold placeParams at h
    split at h
    · next hnone =>
      obtain ⟨σ, hσ⟩ := ih (i + 1) h
      exact ⟨σ, hσ.unused hnone⟩
    · next l hl =>
      split at h
      · cases h
      · cases h
      · next want r hwant =>
        have hw : want = Reg.a i := by
          rw [Reg.arg?_eq] at hwant
          split at hwant
          · exact (Option.some.inj hwant).symm
          · cases hwant
        subst hw
        split at h
        · next heq =>
          subst heq
          obtain ⟨σ, hσ⟩ := ih (i + 1) h
          refine ⟨_, Placed.swap (by omega) hl (fun u => ?_) hσ⟩
          rw [Equiv.swap_self, Loc.rename_refl, Option.map_id_fun, id]
        · obtain ⟨σ, hσ⟩ := ih (i + 1) h
          exact ⟨_, Placed.swap (by omega) hl (getElem?_swapAll _ _ _) hσ⟩

/-- A parameter in a register ends up in the argument register of the last parameter that shares
it. -/
theorem Placed.last_sharer {locs locs' : Locs} {n : Nat} {σ : Equiv.Perm Reg}
    (h : Placed locs locs' 0 n σ) {i : Nat} (hi : i < n) {l : Loc}
    (hl : locs'[VReg.param i]? = some l) : ∃ m, i ≤ m ∧ m < n ∧ l = .reg (Reg.a m) ∧
      locs'[VReg.param m]? = some l ∧ ∀ j, m < j → j < n → locs'[VReg.param j]? ≠ some l := by
  rw [h.renamed, Option.map_eq_some_iff] at hl
  obtain ⟨l₀, hl₀, rfl⟩ := hl
  obtain ⟨r, rfl⟩ := h.in_register i (Nat.zero_le i) hi l₀ hl₀
  -- the last parameter that holds the register before the swaps
  let P := fun j => j < n ∧ locs[VReg.param j]? = some (Loc.reg r)
  have hbound : P (Nat.findGreatest P n) :=
    Nat.findGreatest_spec (P := P) (le_of_lt hi) ⟨hi, hl₀⟩
  have hle : i ≤ Nat.findGreatest P n := Nat.le_findGreatest (le_of_lt hi) ⟨hi, hl₀⟩
  generalize hm : Nat.findGreatest P n = m at hbound hle
  have hlast : ∀ j, m < j → j < n → locs[VReg.param j]? ≠ some (Loc.reg r) := by
    intro j hj hjn heq
    exact Nat.findGreatest_is_greatest (P := P) (hm ▸ hj) (le_of_lt hjn) ⟨hjn, heq⟩
  have hσ : σ r = Reg.a m := by
    refine h.moves m r (Nat.zero_le m) hbound.1 hbound.2 ?_
    rintro ⟨j, hj, hjn, heq⟩
    exact hlast j (by omega) hjn heq
  refine ⟨m, hle, hbound.1, by rw [Loc.rename, hσ], ?_, fun j hj hjn heq => ?_⟩
  · rw [h.renamed, hbound.2]
    rfl
  · rw [h.renamed, Option.map_eq_some_iff] at heq
    obtain ⟨l₁, hl₁, heq⟩ := heq
    -- the renaming is one to one: sharing after the swaps is sharing before them
    have hsame : l₁ = .reg r := by
      cases l₁ with
      | reg q => rw [σ.injective (Loc.reg.inj heq)]
      | stack s k => cases heq
    exact hlast j hj hjn (hsame ▸ hl₁)

end Coloring

end Tac
