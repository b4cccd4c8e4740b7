import Mathlib
import Tac.Clobber
import Tac.Proofs.Places

/-!
# Saving registers and passing arguments

The first half of a call saves registers and puts the arguments into theirs.  The arguments are a
parallel move made one after the other: an argument register that holds a later argument may be
overwritten before that argument is read, but then it was saved.

* **`Clobber.mem_saved`** — the saved registers are those that hold live values and are destroyed.
* **`line_saves`, `line_restores`** — storing registers in the frame and fetching them back.
* **`operand`** — the value of an operand in a machine state.
* **`passArgs_not_unsaved`** — no argument is lost.
* **`Passing`** — the invariant of argument passing: what is not overwritten is as before, what is
  overwritten holds its argument.  `Passing.step` is one argument, `Passing.run` all of them.
-/

namespace Tac

/-! ## Saved registers -/

namespace Clobber

/-- The saved registers are those that hold something live and are destroyed. -/
theorem mem_saved {p : Placement} {i : Nat} {destroy : RegSet} {r : Reg} :
    r ∈ saved p i destroy ↔ destroy.contains r = true ∧
      ∃ u : VReg, p.Live i u ∧ p.locs[u]? = some (.reg r) := by
  have hlive : ∀ u, u ∈ p.liveAt i ↔ p.Live i u := fun u => BitSet.mem_toList _ u
  rw [saved, held, RegSet.mem_toList, RegSet.contains_ofList, Bool.and_eq_true, decide_eq_true_eq,
    decide_eq_true_eq, List.mem_filterMap]
  simp only [Option.filter_eq_some_iff, Option.bind_eq_some_iff]
  constructor
  · rintro ⟨⟨u, hu, ⟨l, hl, hr⟩, hd⟩, _⟩
    -- Only what is in a register is saved; what has a slot is in memory already.
    cases l with
    | reg q =>
      cases hr
      exact ⟨hd, u, (hlive u).1 hu, hl⟩
    | stack s n => cases hr
  · rintro ⟨hd, u, hu, hl⟩
    exact ⟨⟨u, (hlive u).2 hu, ⟨_, hl, rfl⟩, hd⟩, RegSet.masked_of_contains hd⟩

/-- A running maximum is above all it has seen. -/
theorem le_foldl_max {α : Type} (g : α → Nat) : ∀ (xs : List α) (n : Nat),
    n ≤ xs.foldl (fun n x => max n (g x)) n ∧
      ∀ x ∈ xs, g x ≤ xs.foldl (fun n x => max n (g x)) n := by
  intro xs
  induction xs with
  | nil => exact fun n => ⟨le_refl n, fun x hx => (nomatch hx)⟩
  | cons y xs ih =>
    intro n
    obtain ⟨hstart, hall⟩ := ih (max n (g y))
    refine ⟨le_trans (le_max_left _ _) hstart, fun x hx => ?_⟩
    rcases List.mem_cons.1 hx with rfl | hx
    · exact le_trans (le_max_right _ _) hstart
    · exact hall x hx

/-- The frame part for saved registers is large enough for every call. -/
theorem length_saved_le {sets : ClobberSets} {p : Placement} {i : Nat} {ret : Option Val}
    {callee : String} {args : List Val} {destroy : RegSet}
    (hst : p.func.stmts[i]? = some (.call ret callee args)) (hset : sets[callee]? = some destroy) :
    (saved p i destroy).length ≤ callerSave sets p := by
  -- The frame has room for the call that saves the most.
  have hmem : (i, callee) ∈ calls p.func := by
    refine List.mem_filterMap.2 ⟨(.call ret callee args, i), ?_, rfl⟩
    exact List.mem_zipIdx_iff_getElem?.2 hst
  have hle := (le_foldl_max (fun x : Nat × String =>
    (saved p x.1 (sets.getD x.2 RegSet.empty)).length) (calls p.func) 0).2 _ hmem
  have hget : sets.getD callee RegSet.empty = destroy := by
    rw [Std.TreeMap.getD_eq_getD_getElem?, hset]
    rfl
  rw [← hget]
  exact hle

end Clobber

namespace Activation

open Machine Lowering

variable {A : Activation} {fl : Flow} {live : VReg → Prop} {s s' : Semantics.State}
  {m m' : Machine} {i : Nat}

/-- The frame has room for the saved registers of every call behind spilled values and arrays. -/
structure Roomy (A : Activation) : Prop where
  nonneg : 0 ≤ A.cx.placed.spillSize
  room : A.cx.placed.spillSize + Clobber.callerSave A.cx.sets A.cx.placed ≤ A.words

/-- The memory word that keeps the register saved as number `k`. -/
def saveWord (A : Activation) (k : Nat) : Nat := A.frameWord (A.cx.placed.spillSize + k)

/-- Arrays end before the saved registers. -/
theorem not_array_saveWord (hs : A.cx.placed.Sound A.cx.vars fl) (k : Nat) {id : VarId} {l : Loc}
    (hl : A.cx.placed.arrays[id]? = some l) : A.cx.placed.spillSize + k ∉ l.words := by
  obtain ⟨t, n, rfl, h0, hpos, hend⟩ := hs.arrays_inside id l hl
  simp only [Loc.words, Set.mem_Ico]
  omega

section Frame

variable (hr : A.Roomy) {size : Nat} (hf : A.Fits size)

include hr hf

/-- Different saves have different words. -/
theorem saveWord_injective {j k : Nat} (h : A.saveWord j = A.saveWord k) : j = k := by
  have hnonneg := hr.nonneg
  have := hf.frameWord_injective (by omega) (by omega) h
  omega

/-- The address of a save slot is a word of the memory. -/
theorem wordIndex?_saveSlot {k : Nat} (hk : k < Clobber.callerSave A.cx.sets A.cx.placed)
    (hsp : m.sp = A.sp) (hm : m.mem.size = size) :
    m.wordIndex? (m.slotAddr (saveSlot A.cx k)) = some (A.saveWord k) := by
  have hnonneg := hr.nonneg
  have hroom := hr.room
  have hsmall := hf.small
  have habove := hf.above
  -- the frame fits into memory, so the slot has not wrapped
  have hslot : saveSlot A.cx k = A.cx.placed.spillSize + k := wrap64_of_range (by omega) (by omega)
  rw [hslot, slotAddr, hsp]
  exact hf.wordIndex?_slot hm (by omega) (by omega)

variable (hs : A.cx.placed.Sound A.cx.vars fl)

include hs

/-- The words of saves are no data of the program. -/
theorem data_saveWord {k : Nat} (hk : k < Clobber.callerSave A.cx.sets A.cx.placed) :
    A.data (A.saveWord k) = false := by
  have hnonneg := hr.nonneg
  have hroom := hr.room
  cases hd : A.data (A.saveWord k) with
  | false => rfl
  | true =>
    obtain ⟨id, l, hl, hmem⟩ := hf.data_apart _ (by omega) (by omega) hd
    exact absurd hmem (not_array_saveWord hs k hl)

/-- Spilled values lie before the saved registers. -/
theorem saveWord_ne (k : Nat) {u : VReg} {slot n : Int}
    (hl : A.cx.placed.locs[u]? = some (.stack slot n)) : A.saveWord k ≠ A.frameWord slot := by
  intro heq
  obtain ⟨h0, h1⟩ := hs.values_inside u slot n hl
  have hnonneg := hr.nonneg
  have := hf.frameWord_injective (by omega) h0 heq
  omega

end Frame

/-! ## Saves and restores -/

/-- Registers are stored one after the other in the words for saved registers. -/
theorem line_saves (hr : A.Roomy) : ∀ (rs : List Reg) (j : Nat) (m : Machine),
    m.val Reg.x0 = 0 → m.sp = A.sp → A.Fits m.mem.size → (∀ r ∈ rs, r.Valid) →
    j + rs.length ≤ Clobber.callerSave A.cx.sets A.cx.placed →
    ∃ m', line? A.im A.func m ((rs.zipIdx j).map fun (r, k) => .storeStack r (saveSlot A.cx k)) =
        some m' ∧ Keeps (fun _ => False) m m' ∧
      (∀ k r, rs[k]? = some r → m'.mem.get (A.saveWord (j + k)) = m.val r) ∧
      ∀ w, (∀ k, k < rs.length → w ≠ A.saveWord (j + k)) → m'.mem.get w = m.mem.get w := by
  intro rs
  -- On the registers that are left to save; the slots written so far lie below.
  induction rs with
  | nil =>
    intro j m _ _ _ _ _
    exact ⟨m, rfl, Keeps.refl _ _, fun k r hk => by simp at hk, fun _ _ => rfl⟩
  | cons r rs ih =>
    intro j m hz hsp hf hvalid hlen
    simp only [List.length_cons] at hlen
    obtain ⟨m₁, hline₁, hmem₁, hkeeps₁⟩ : Stores A.im A.func m
      [.storeStack r (saveSlot A.cx j)] (A.saveWord j) (m.val r) :=
        stores_storeStack hz (hvalid r List.mem_cons_self)
          (wordIndex?_saveSlot hr hf (by omega) hsp rfl)
    have hval₁ : ∀ q, q.Valid → m₁.val q = m.val q := fun q hq => hkeeps₁.val q hq not_false
    obtain ⟨m₂, hline₂, hkeeps₂, hsaved₂, hrest₂⟩ := ih (j + 1) m₁
      (by rw [hval₁ _ (by decide), hz]) (hkeeps₁.sp.trans hsp) (by rw [hkeeps₁.size]; exact hf)
      (fun q hq => hvalid q (List.mem_cons_of_mem _ hq)) (by omega)
    refine ⟨m₂, line?_append_of hline₁ hline₂, hkeeps₁.trans hkeeps₂, fun k q hk => ?_,
      fun w hw => ?_⟩
    · cases k with
      | zero =>
        cases hk
        -- the later stores go to other words
        rw [add_zero, hrest₂ _ fun k _ heq => ?_, hmem₁, Memory.get_set, if_pos rfl]
        have := saveWord_injective hr hf heq
        omega
      | succ k =>
        have hq := List.mem_of_getElem? hk
        rw [show j + (k + 1) = j + 1 + k by omega, hsaved₂ k q hk, hval₁ q (hvalid q hq)]
    · have hne : ¬ A.saveWord j = w := fun heq => hw 0 (Nat.succ_pos _) heq.symm
      rw [hrest₂ w fun k hk => ?_, hmem₁, Memory.get_set, if_neg hne]
      rw [show j + 1 + k = j + (k + 1) by omega]
      exact hw (k + 1) (Nat.succ_lt_succ hk)

/-- The registers that are restored, with their numbers: all saved ones but that of the result. -/
def restored (saved : List Reg) (result : Option Reg) : List (Reg × Nat) :=
  saved.zipIdx.filter fun (r, _) => some r ≠ result

theorem restoreCode_eq (saved : List Reg) (result : Option Reg) :
    restoreCode A.cx saved result =
      (restored saved result).map fun (r, k) => .loadStack r (saveSlot A.cx k) := rfl

/-- What is restored: all that was saved but the register of the result. -/
theorem mem_restored {saved : List Reg} {result : Option Reg} {p : Reg × Nat} :
    p ∈ restored saved result ↔ saved[p.2]? = some p.1 ∧ some p.1 ≠ result := by
  rw [restored, List.mem_filter, List.mem_zipIdx_iff_getElem?, decide_eq_true_eq]

/-- Registers are fetched back; `g` are the values that were saved. -/
theorem line_restores (hr : A.Roomy) (g : Reg → Word) : ∀ (ps : List (Reg × Nat)) (m : Machine),
    m.val Reg.x0 = 0 → m.sp = A.sp → A.Fits m.mem.size →
    (∀ p ∈ ps, p.1.Valid ∧ p.1 ≠ Reg.x0 ∧ p.2 < Clobber.callerSave A.cx.sets A.cx.placed ∧
      m.mem.get (A.saveWord p.2) = g p.1) →
    ∃ m', line? A.im A.func m (ps.map fun (r, k) => .loadStack r (saveSlot A.cx k)) = some m' ∧
      m'.mem = m.mem ∧ (∀ p ∈ ps, m'.val p.1 = g p.1) ∧ Keeps (fun q => ∃ p ∈ ps, p.1 = q) m m' := by
  intro ps
  -- On the registers that are left to restore; no slot is written.
  induction ps with
  | nil =>
    intro m _ _ _ _
    exact ⟨m, rfl, rfl, fun p hp => (nomatch hp), Keeps.refl _ _⟩
  | cons p ps ih =>
    intro m hz hsp hf hall
    obtain ⟨r, k⟩ := p
    obtain ⟨hvalid, hne, hk, hmem⟩ := hall (r, k) List.mem_cons_self
    obtain ⟨m₁, hline₁, hval₁, hmem₁, hkeeps₁⟩ : Writes A.im A.func m
      [.loadStack r (saveSlot A.cx k)] r (m.mem.get (A.saveWord k)) :=
        writes_loadStack hz hvalid hne (wordIndex?_saveSlot hr hf hk hsp rfl)
    obtain ⟨m₂, hline₂, hmem₂, hval₂, hkeeps₂⟩ := ih m₁
      (by rw [hkeeps₁.val _ (by decide) (Ne.symm hne), hz]) (hkeeps₁.sp.trans hsp)
      (by rw [hkeeps₁.size]; exact hf)
      (fun p hp => by rw [hmem₁]; exact hall p (List.mem_cons_of_mem _ hp))
    refine ⟨m₂, line?_append_of hline₁ hline₂, hmem₂.trans hmem₁, fun p hp => ?_, ?_⟩
    · rcases List.mem_cons.1 hp with rfl | hp
      · -- a register listed again is fetched again, with the same value
        by_cases hagain : ∃ p ∈ ps, p.1 = r
        · obtain ⟨q, hq, rfl⟩ := hagain
          exact hval₂ q hq
        · rw [hkeeps₂.val r hvalid hagain, hval₁, hmem]
      · exact hval₂ p hp
    · refine (hkeeps₁.mono fun q hq => ?_).trans (hkeeps₂.mono fun q hq => ?_)
      · exact ⟨(r, k), List.mem_cons_self, hq.symm⟩
      · obtain ⟨p, hp, hq⟩ := hq
        exact ⟨p, List.mem_cons_of_mem _ hp, hq⟩

/-! ## Values of operands -/

/-- The state of the program that a machine state shows. -/
def view (A : Activation) (m : Machine) : Semantics.State where
  env u := (A.cx.placed.locs[u]?).elim 0 (A.valueAt m)
  mem := m.mem.get

/-- The value of an operand in a machine state. -/
def operand (A : Activation) (m : Machine) (v : Val) : Option Word :=
  (A.view m).eval A.layout A.cx.vars v

/-- The machine runs the activation. -/
structure Running (A : Activation) (m : Machine) : Prop where
  zero : m.val Reg.x0 = 0
  sp_eq : m.sp = A.sp
  fits : A.Fits m.mem.size

/-- Every global has its place, a scalar one among the words of globals and arrays. -/
def GlobalsPlaced (A : Activation) : Prop :=
  ∀ (id : VarId) (x : Var), A.cx.vars.get? id = some x → x.cls = .global →
    ∃ a, A.im.globals[x.index]? = some a ∧ (x.isArray = false → ∃ k, A.layout.index? a = some k)

/-- A running activation is related to what it looks like. -/
theorem Running.related (h : A.Running m) (live : VReg → Prop) : A.Related live (A.view m) m := by
  refine ⟨h.zero, h.sp_eq, h.fits, fun u l _ hl => ?_, fun _ _ => rfl⟩
  simp only [view, hl, Option.elim_some]

/-- The value of a variable is in its location. -/
theorem operand_of_loc {v : Val} {u : VReg} {l : Loc} (hu : A.cx.vars.vreg? v = some u)
    (hl : A.cx.placed.locs[u]? = some l) : A.operand m v = some (A.valueAt m l) := by
  rw [operand, Semantics.State.eval_of_vreg hu]
  simp only [view, hl, Option.elim_some]

/-- Operands have the value that a related state gives them. -/
theorem Related.operand_eq (h : A.Related live s m) {v : Val}
    (hlive : ∀ u, A.cx.vars.vreg? v = some u → live u ∧ ∃ l, A.cx.placed.locs[u]? = some l) :
    A.operand m v = s.eval A.layout A.cx.vars v := by
  -- words of globals and arrays are the same in both states
  have hload : ∀ a, (A.view m).load A.layout a = s.load A.layout a := by
    intro a
    simp only [Semantics.State.load]
    cases hk : A.layout.index? a with
    | none => rfl
    | some k =>
      obtain ⟨_, hdata⟩ := h.fits.wordIndex?_data rfl hk
      exact congrArg some (h.words_eq k hdata)
  cases hu : A.cx.vars.vreg? v with
  | some u =>
    obtain ⟨hlu, l, hl⟩ := hlive u hu
    rw [operand_of_loc hu hl, Semantics.State.eval_of_vreg hu, h.values u l hlu hl]
  | none =>
    cases v with
    | const n => rfl
    | temp n => simp only [operand, Semantics.State.eval, hu]
    | var id => simp only [operand, Semantics.State.eval, hu, hload]

/-- An operand that can be fetched has a value. -/
theorem exists_eval_of_fetch (hg : A.GlobalsPlaced) {scratch r : Reg} {v : Val} {code : List Instr}
    (h : Lowering.fetch A.cx scratch v = .ok (code, r)) (s : Semantics.State) :
    ∃ w, s.eval A.layout A.cx.vars v = some w := by
  -- only a global could be without a value, if it had no place
  cases hu : A.cx.vars.vreg? v with
  | some u => exact ⟨_, Semantics.State.eval_of_vreg hu⟩
  | none =>
    cases v with
    | const n => exact ⟨_, rfl⟩
    | temp n =>
      simp only [Lowering.fetch, hu] at h
      cases h
    | var id =>
      simp only [Lowering.fetch, hu] at h
      simp only [Semantics.State.eval, hu]
      split at h
      · cases h
      · next x hx =>
        simp only [hx, Option.bind_eq_bind, Option.bind_some]
        by_cases hcls : x.cls = .global
        · obtain ⟨a, ha, hscalar⟩ := hg id x hx hcls
          have hga : A.layout.globalAddr x.index = some a := ha
          rw [if_pos hcls, hga]
          simp only [Option.bind_some]
          cases harr : x.isArray with
          | true => exact ⟨a, rfl⟩
          | false =>
            obtain ⟨k, hk⟩ := hscalar harr
            exact ⟨s.mem k, by simp [Semantics.State.load, hk]⟩
        · rw [if_neg hcls]
          split at h
          · next hgl _ => exact absurd hgl hcls
          · next hgl _ => exact absurd hgl hcls
          · split at h
            · cases h
            · next l hl =>
              exact ⟨A.sp + word (4 * l.slot), by simp only [layout, hl, Option.map_some]⟩

/-- A destination that has a target register can be given a value. -/
theorem exists_assign_of_target (hg : A.GlobalsPlaced) {d : Reg} {v : Val}
    (h : target A.cx v = .ok d) (s : Semantics.State) (w : Word) :
    ∃ s', s.assign A.layout A.cx.vars v w = some s' := by
  cases hu : A.cx.vars.vreg? v with
  | some u => exact ⟨_, by simp only [Semantics.State.assign, hu]; rfl⟩
  | none =>
    -- Neither constants nor temporaries without a register can be lowered to a target.
    cases v with
    | const n =>
      simp only [target, hu] at h
      cases h
    | temp n =>
      simp only [target, hu] at h
      cases h
    | var id =>
      simp only [target, hu] at h
      split at h
      · cases h
      · next x hx =>
        split at h
        · next hcond =>
          obtain ⟨a, ha, hscalar⟩ := hg id x hx hcond.1
          -- A global scalar can be written because its address is that of a word.
          obtain ⟨k, hk⟩ := hscalar (by simpa using hcond.2)
          have hga : A.layout.globalAddr x.index = some a := ha
          refine ⟨{ s with mem := Function.update s.mem k w }, ?_⟩
          simp only [Semantics.State.assign, hu, hx, Option.bind_eq_bind, Option.bind_some,
            if_pos hcond, hga, Semantics.State.store, hk, Option.map_some]
        · cases h

/-! ## Passing arguments -/

/-- Moving an operand never fails for want of a save. -/
theorem moveInto_not_unsaved {d : Reg} {v : Val} {u : VReg} {r : Reg} :
    moveInto A.cx d v ≠ .error (.argumentNotSaved u r) := by
  -- Fetching fails for other reasons, such as a variable without a location.
  have hfetch : Lowering.fetch A.cx Reg.scratch1 v ≠ .error (.argumentNotSaved u r) := by
    unfold Lowering.fetch
    intro h
    repeat' split at h
    all_goals cases h
  intro h
  unfold moveInto at h
  split at h
  · cases h
  · cases hf : Lowering.fetch A.cx Reg.scratch1 v with
    | ok x =>
      rw [hf] at h
      cases h
    | error e =>
      rw [hf] at h
      cases h
      exact hfetch hf

section Passing

variable {saved : List Reg}

/-- An argument whose register an earlier one overwrote is found among the saved registers, so no
argument is lost. -/
theorem passArgs_not_unsaved {vs : List Val} {k n : Nat} (hn : k + vs.length ≤ n)
    (hsaved : ∀ v ∈ vs, ∀ (u : VReg) (j : Nat), A.cx.vars.vreg? v = some u →
      A.cx.placed.locs[u]? = some (.reg (Reg.a j)) → j < n → Reg.a j ∈ saved)
    (u : VReg) (r : Reg) : Lowering.passArgs A.cx saved k vs ≠ .error (.argumentNotSaved u r) := by
  -- On the arguments that are left; the registers before the `k`-th have been overwritten.
  induction vs generalizing k with
  | nil =>
    intro h
    cases h
  | cons v vs ih =>
    simp only [List.length_cons] at hn
    have hone : passArg A.cx saved k (Reg.a k) v ≠ .error (.argumentNotSaved u r) := by
      intro h
      unfold passArg at h
      split at h
      · cases h
      · split at h
        · exact moveInto_not_unsaved h
        · next t ht =>
          split at h
          · cases h
          · next q hq =>
            split at h
            · -- an earlier argument overwrites the register: the callee destroys it, so it is saved
              next hover =>
              obtain ⟨j, hj, hlt⟩ := (Option.any_eq_true _ _).1 hover
              obtain ⟨_, rfl⟩ := (Reg.argIndex?_eq_some_iff q j).1 hj
              have hlt : j < k := of_decide_eq_true hlt
              have hmem := hsaved v List.mem_cons_self t j ht hq (by omega)
              split at h
              · cases h
              · next hnone => exact List.idxOf?_eq_none_iff.1 hnone hmem
            · exact moveInto_not_unsaved h
          · exact moveInto_not_unsaved h
    intro h
    unfold Lowering.passArgs at h
    cases h₁ : passArg A.cx saved k (Reg.a k) v with
    | error e =>
      rw [h₁] at h hone
      exact hone h
    | ok c₁ =>
      have hrest := ih (k := k + 1) (by omega) fun w hw => hsaved w (List.mem_cons_of_mem _ hw)
      rw [h₁] at h
      cases h₂ : Lowering.passArgs A.cx saved (k + 1) vs with
      | error e =>
        simp only [h₂] at h hrest
        exact hrest h
      | ok c₂ =>
        simp only [h₂] at h
        cases h

/-- Arguments that can be passed have values. -/
theorem exists_eval_of_passArgs (hg : A.GlobalsPlaced) (s : Semantics.State) {vs : List Val} {k : Nat}
    {code : List Instr} (h : Lowering.passArgs A.cx saved k vs = .ok code) :
    ∀ v ∈ vs, ∃ w, s.eval A.layout A.cx.vars v = some w := by
  induction vs generalizing k code with
  | nil => exact fun v hv => absurd hv List.not_mem_nil
  | cons v vs ih =>
    unfold Lowering.passArgs at h
    obtain ⟨c₁, h₁, h⟩ := bind_eq_ok.1 h
    obtain ⟨c₂, h₂, _⟩ := bind_eq_ok.1 h
    intro w hw
    rcases List.mem_cons.1 hw with rfl | hw
    -- A virtual register always has a value; for the others the lowering has looked up what
    -- the state needs.
    · cases hu : A.cx.vars.vreg? w with
      | some u => exact ⟨_, Semantics.State.eval_of_vreg hu⟩
      | none =>
        cases w with
        | const n => exact ⟨_, rfl⟩
        | temp n =>
          simp only [passArg, hu] at h₁
          obtain ⟨⟨c, r⟩, hf, _⟩ := bind_eq_ok.1 h₁
          exact exists_eval_of_fetch hg hf s
        | var id =>
          simp only [passArg, hu] at h₁
          obtain ⟨⟨c, r⟩, hf, _⟩ := bind_eq_ok.1 h₁
          exact exists_eval_of_fetch hg hf s
    · exact ih h₂ w hw

/-- The registers that are saved stand in the frame with the values that they have in `m`. -/
def Holds (A : Activation) (saved : List Reg) (m : Machine) (mem : Memory) : Prop :=
  ∀ k r, saved[k]? = some r → mem.get (A.saveWord k) = m.val r

/-- The first `k` arguments are passed: their registers hold the values `xs`, and live values in
other registers, like all of memory, are as they were before in `m₀`. -/
structure Passing (A : Activation) (i : Nat) (s : Semantics.State) (xs : List Word) (m₀ : Machine)
    (k : Nat) (m : Machine) : Prop where
  related : A.Related (fun u => A.cx.placed.Live i u ∧
    ∀ j, j < k → A.cx.placed.locs[u]? ≠ some (.reg (Reg.a j))) s m
  passed : ∀ j x, j < k → xs[j]? = some x → m.val (Reg.a j) = x
  mem_eq : m.mem = m₀.mem
  keeps : Keeps (fun q => q.Scratch ∨ ∃ j, j < k ∧ q = Reg.a j) m₀ m

variable (hs : A.cx.placed.Sound A.cx.vars fl) (hr : A.Roomy) {xs : List Word} {m₀ m₁ : Machine}
  (hlen : saved.length ≤ Clobber.callerSave A.cx.sets A.cx.placed) {k : Nat}

theorem not_scratch_a {k : Nat} (hk : k < Reg.argCount) : ¬ (Reg.a k).Scratch :=
  Reg.not_scratch_of_allocatable (Reg.a_mem_allocatable hk)

include hs hr hlen

/-- The code of one argument ends with an instruction that writes the register of the argument, from
a place that no earlier argument has overwritten. -/
theorem Passing.writes (h : Passing A i s xs m₁ k m) (hrel : A.Related (A.cx.placed.Live i) s m₀)
    (hsaved : A.Holds saved m₀ m₁.mem) (hk : k < Reg.argCount) {v : Val} {x : Word}
    {code : List Instr} (hlive : ∀ u, A.cx.vars.vreg? v = some u → A.cx.placed.Live i u)
    (hcode : passArg A.cx saved k (Reg.a k) v = .ok code)
    (hx : s.eval A.layout A.cx.vars v = some x) :
    ∃ c₁ instr m', code = c₁ ++ [instr] ∧ line? A.im A.func m c₁ = some m' ∧ m'.mem = m.mem ∧
      Keeps (· = Reg.scratch1) m m' ∧ Writes A.im A.func m' [instr] (Reg.a k) x := by
  have hvalid := Reg.valid_a hk
  have hne := Reg.ne_x0_of_allocatable (Reg.a_mem_allocatable hk)
  unfold passArg at hcode
  split at hcode
  · cases hcode
    cases hx
    exact ⟨[], _, m, rfl, rfl, rfl, Keeps.refl _ _, writes_imm h.related.zero hvalid hne _⟩
  · split at hcode
    · next hnone =>
      refine h.related.moveInto hs hvalid hne (fun u hu => ?_) hcode hx
      rw [hnone] at hu
      cases hu
    · next u hu =>
      rw [Semantics.State.eval_of_vreg hu] at hx
      obtain rfl := Option.some.inj hx
      -- the plain case: no earlier argument has taken the register of `u`
      have hmove : (∀ j, j < k → A.cx.placed.locs[u]? ≠ some (.reg (Reg.a j))) →
          moveInto A.cx (Reg.a k) v = .ok code →
            ∃ c₁ instr m', code = c₁ ++ [instr] ∧ line? A.im A.func m c₁ = some m' ∧
              m'.mem = m.mem ∧ Keeps (· = Reg.scratch1) m m' ∧
              Writes A.im A.func m' [instr] (Reg.a k) (s.env u) := by
        intro hfree hcode
        refine h.related.moveInto hs hvalid hne (fun t ht => ?_) hcode
          (Semantics.State.eval_of_vreg hu)
        rw [hu] at ht
        obtain rfl := Option.some.inj ht
        exact ⟨hlive u hu, hfree⟩
      split at hcode
      · cases hcode
      · next r hl =>
        split at hcode
        · -- the register is overwritten, so the argument comes from its saved copy
          split at hcode
          · next j hj =>
            cases hcode
            obtain ⟨hlt, hget, _⟩ := List.idxOf?_eq_some_iff.1 hj
            have hold : m.mem.get (A.saveWord j) = s.env u := by
              rw [h.mem_eq, hsaved j r (by rw [List.getElem?_eq_getElem hlt, hget])]
              exact hrel.values u _ (hlive u hu) hl
            refine ⟨[], _, m, rfl, rfl, rfl, Keeps.refl _ _, ?_⟩
            rw [← hold]
            exact writes_loadStack h.related.zero hvalid hne
              (wordIndex?_saveSlot hr h.related.fits (by omega) h.related.sp_eq rfl)
          · cases hcode
        · next hfree =>
          refine hmove (fun j hj heq => hfree ?_) hcode
          rw [hl] at heq
          cases heq
          rw [(Reg.argIndex?_eq_some_iff _ j).2 ⟨by omega, rfl⟩]
          exact decide_eq_true hj
      · next l hnot hl =>
        refine hmove (fun j hj heq => ?_) hcode
        rw [hl] at heq
        exact hnot _ (Option.some.inj heq)

/-- One more argument is passed. -/
theorem Passing.step (h : Passing A i s xs m₁ k m) (hrel : A.Related (A.cx.placed.Live i) s m₀)
    (hsaved : A.Holds saved m₀ m₁.mem) (hk : k < Reg.argCount) {v : Val} {x : Word}
    {code : List Instr} (hlive : ∀ u, A.cx.vars.vreg? v = some u → A.cx.placed.Live i u)
    (hcode : passArg A.cx saved k (Reg.a k) v = .ok code)
    (hx : s.eval A.layout A.cx.vars v = some x) (hxs : xs[k]? = some x) :
    ∃ m', line? A.im A.func m code = some m' ∧ Passing A i s xs m₁ (k + 1) m' := by
  obtain ⟨c₁, instr, m₂, rfl, hline₂, hmem₂, hkeeps₂, m₃, hline₃, hval₃, hmem₃, hkeeps₃⟩ :=
    h.writes hs hr hlen hrel hsaved hk hlive hcode hx
  have hkeeps : Keeps (fun q => q.Scratch ∨ q = Reg.a k) m m₃ :=
    (hkeeps₂.mono fun q hq => Or.inl (Or.inr hq)).trans (hkeeps₃.mono fun q hq => Or.inr hq)
  refine ⟨m₃, line?_append_of hline₂ hline₃, ?_, fun j y hj hy => ?_, ?_, ?_⟩
  · refine h.related.keep hs hkeeps (hmem₃.trans hmem₂) ?_ (fun u hu => ?_) fun u r hu hl => ?_
    · rintro (hscr | heq)
      · exact hscr.ne_x0 rfl
      · exact Reg.ne_x0_of_allocatable (Reg.a_mem_allocatable hk) heq.symm
    · exact ⟨hu.1, fun j hj => hu.2 j (by omega)⟩
    · rintro (hscr | rfl)
      · exact Reg.not_scratch_of_allocatable (hs.allocatable u r hl) hscr
      · exact hu.2 k (by omega) hl
  · by_cases hjk : j = k
    · subst hjk
      rw [hxs] at hy
      rw [hval₃, Option.some.inj hy]
    · -- the registers of earlier arguments stay
      rw [hkeeps.val _ (Reg.valid_a (by omega)) ?_, h.passed j y (by omega) hy]
      rintro (hscr | heq)
      · exact not_scratch_a (by omega) hscr
      · exact hjk (Reg.a_injective heq)
  · rw [hmem₃, hmem₂, h.mem_eq]
  · refine (h.keeps.mono fun q hq => ?_).trans (hkeeps.mono fun q hq => ?_)
    · rcases hq with hscr | ⟨j, hj, heq⟩
      · exact Or.inl hscr
      · exact Or.inr ⟨j, by omega, heq⟩
    · rcases hq with hscr | heq
      · exact Or.inl hscr
      · exact Or.inr ⟨k, by omega, heq⟩

/-- All arguments are passed. -/
theorem Passing.run (hrel : A.Related (A.cx.placed.Live i) s m₀)
    (hsaved : A.Holds saved m₀ m₁.mem) : ∀ {vs : List Val} {k : Nat} {m : Machine}
      {code : List Instr}, Passing A i s xs m₁ k m → k + vs.length ≤ Reg.argCount →
      (∀ v ∈ vs, ∀ u, A.cx.vars.vreg? v = some u → A.cx.placed.Live i u) →
      Lowering.passArgs A.cx saved k vs = .ok code →
      (∀ j v, vs[j]? = some v → ∃ x, s.eval A.layout A.cx.vars v = some x ∧
        xs[k + j]? = some x) →
      ∃ m', line? A.im A.func m code = some m' ∧ Passing A i s xs m₁ (k + vs.length) m' := by
  intro vs
  -- induction on the arguments left; `xs` stays the list of all values
  induction vs with
  | nil =>
    intro k m code h _ _ hcode _
    cases hcode
    exact ⟨m, rfl, h⟩
  | cons v vs ih =>
    intro k m code h hcount hlive hcode hxs
    simp only [List.length_cons] at hcount ⊢
    unfold Lowering.passArgs at hcode
    obtain ⟨c₁, hc₁, hcode⟩ := bind_eq_ok.1 hcode
    obtain ⟨c₂, hc₂, hcode⟩ := bind_eq_ok.1 hcode
    cases hcode
    obtain ⟨x, hx, hxk⟩ := hxs 0 v rfl
    obtain ⟨m₂, hline₂, h₂⟩ := h.step hs hr hlen hrel hsaved (by omega)
      (hlive v List.mem_cons_self) hc₁ hx hxk
    obtain ⟨m₃, hline₃, h₃⟩ := ih h₂ (by omega)
      (fun w hw => hlive w (List.mem_cons_of_mem _ hw)) hc₂ fun j w hw => by
        rw [show k + 1 + j = k + (j + 1) by omega]
        exact hxs (j + 1) w hw
    refine ⟨m₃, line?_append_of hline₂ hline₃, ?_⟩
    rw [show k + (vs.length + 1) = k + 1 + vs.length by omega]
    exact h₃

end Passing

end Activation

end Tac
