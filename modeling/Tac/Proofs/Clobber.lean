import Mathlib
import Tac.Builtin
import Tac.Proofs.Coloring

/-!
# Destroyed registers are closed under calls

Sweeps over the functions let each function absorb what its callees destroy.  A sweep only ever makes
sets grow, and one that changes something makes the total size grow, which is bounded by 32 registers
a function; so the sweeps end with sets that absorb nothing more.

* **`Closed`** — a function destroys what its callees destroy; functions of known sets apart.
* **`Sweeps`** — sweeping without a bound until a sweep changes nothing; the bound of the definition is
  never met (`sweeps_close`).
* **`Propagated`** — what the final sets are: closed, above the registers of the function's own
  statements, and fixed for hand-written bodies and the environment.
-/

namespace Tac

namespace RegSet

/-! ## Inclusion -/

/-- Every member of `s` is one of `t`. -/
def Subset (s t : RegSet) : Prop := ∀ r, s.contains r = true → t.contains r = true

theorem Subset.refl (s : RegSet) : Subset s s := fun _ h => h

theorem Subset.trans {s t u : RegSet} (h₁ : Subset s t) (h₂ : Subset t u) : Subset s u :=
  fun r h => h₂ r (h₁ r h)

/-- Sets with the same members are equal. -/
theorem eq_of_contains {s t : RegSet} (h : ∀ r, s.contains r = t.contains r) : s = t := by
  have hmask : s.mask = t.mask := by
    apply UInt32.toBitVec_inj.1
    apply BitVec.eq_of_getLsbD_eq
    intro i hi
    have := h ⟨i⟩
    have hi' : Reg.Masked ⟨i⟩ := ⟨by simp, by simpa⟩
    rw [contains_eq, contains_eq, decide_eq_true hi'] at this
    simpa using this
  cases s
  cases t
  simp only at hmask
  rw [hmask]

/-- There are 32 registers in all. -/
theorem size_le (s : RegSet) : s.size ≤ 32 := by
  unfold size toList
  refine le_trans (List.length_filter_le _ _) ?_
  simp

/-- A set that grows has more members. -/
theorem size_lt_of_subset {s t : RegSet} (hsub : Subset s t) (hne : s ≠ t) : s.size < t.size := by
  have hlist : s.toList.Sublist t.toList := by
    unfold toList
    exact List.monotone_filter_right _ hsub
  apply lt_of_le_of_ne hlist.length_le
  intro hlen
  apply hne
  apply eq_of_contains
  intro r
  rw [Bool.eq_iff_iff, ← mem_toList, ← mem_toList, hlist.eq_of_length hlen]

/-- A smaller set has at most as many members. -/
theorem size_le_of_subset {s t : RegSet} (h : Subset s t) : s.size ≤ t.size := by
  by_cases heq : s = t
  · rw [heq]
  · exact le_of_lt (size_lt_of_subset h heq)

end RegSet

namespace Clobber

variable {fixed sets : ClobberSets} {ps : List Placement}

/-- What calls of a function destroy. -/
def setOf (sets : ClobberSets) (g : String) : RegSet := sets.getD g RegSet.empty

theorem setOf_eq {g : String} {s : RegSet} (h : sets[g]? = some s) : setOf sets g = s := by
  rw [setOf, Std.TreeMap.getD_eq_getD_getElem?, h]
  rfl

/-- Writing the set of one name leaves the others as they are. -/
theorem setOf_insert (sets : ClobberSets) (f g : String) (s : RegSet) :
    setOf (sets.insert f s) g = if f = g then s else setOf sets g := by
  simp [setOf, Std.TreeMap.getD_insert, Std.LawfulEqCmp.compare_eq_iff_eq]

/-! ## One function -/

/-- The union over a list of calls has what it started with and what the callees destroy. -/
theorem contains_foldl_union (cs : List (Nat × String)) (s : RegSet) (r : Reg) :
    (cs.foldl (fun s (_, g) => s.union (sets.getD g RegSet.empty)) s).contains r = true ↔
      s.contains r = true ∨ ∃ c ∈ cs, (setOf sets c.2).contains r = true := by
  induction cs generalizing s with
  | nil => simp
  | cons c cs ih =>
    rw [List.foldl_cons, ih, RegSet.contains_union, Bool.or_eq_true, List.exists_mem_cons_iff,
      or_assoc]
    rfl

/-- A function absorbs its own set and those of its callees, and nothing else. -/
theorem contains_absorb {f : Func} {r : Reg} : (absorb sets f).contains r = true ↔
    (setOf sets f.name).contains r = true ∨
      ∃ c ∈ calls f, (setOf sets c.2).contains r = true :=
  contains_foldl_union (calls f) _ r

/-- One function of a sweep. -/
def visit (fixed : ClobberSets) (acc : ClobberSets × Bool) (p : Placement) : ClobberSets × Bool :=
  if fixed.contains p.func.name then acc
  else if absorb acc.1 p.func = setOf acc.1 p.func.name then acc
  else (acc.1.insert p.func.name (absorb acc.1 p.func), true)

theorem sweep_eq (fixed : ClobberSets) (ps : List Placement) (sets : ClobberSets) :
    sweep fixed ps sets = ps.foldl (visit fixed) (sets, false) := rfl

/-- All sets stay or grow. -/
def Grows (a b : ClobberSets) : Prop := ∀ g, RegSet.Subset (setOf a g) (setOf b g)

theorem Grows.refl (a : ClobberSets) : Grows a a := fun _ => RegSet.Subset.refl _

theorem Grows.trans {a b c : ClobberSets} (h₁ : Grows a b) (h₂ : Grows b c) : Grows a c :=
  fun g => (h₁ g).trans (h₂ g)

/-- The total size of the functions' sets. -/
def weight (ps : List Placement) (sets : ClobberSets) : Nat :=
  (ps.map fun p => (setOf sets p.func.name).size).sum

/-- The sets of all functions together have at most 32 members for each. -/
theorem weight_le (ps : List Placement) (sets : ClobberSets) : weight ps sets ≤ 32 * ps.length := by
  unfold weight
  induction ps with
  | nil => simp
  | cons p ps ih =>
    rw [List.map_cons, List.sum_cons, List.length_cons]
    have := RegSet.size_le (setOf sets p.func.name)
    omega

theorem weight_mono (ps : List Placement) {a b : ClobberSets} (h : Grows a b) : weight ps a ≤ weight ps b :=
  List.sum_le_sum fun p _ => RegSet.size_le_of_subset (h p.func.name)

/-- If the set of one function grew indeed, the weight did. -/
theorem weight_lt {a b : ClobberSets} (h : Grows a b) {p : Placement} (hp : p ∈ ps)
    (hne : setOf a p.func.name ≠ setOf b p.func.name) : weight ps a < weight ps b := by
  apply List.sum_lt_sum
  · exact fun q _ => RegSet.size_le_of_subset (h q.func.name)
  · exact ⟨p, hp, RegSet.size_lt_of_subset (h p.func.name) hne⟩

/-- A visit never takes a register away. -/
theorem visit_grows (fixed : ClobberSets) (acc : ClobberSets × Bool) (p : Placement) : Grows acc.1 (visit fixed acc p).1 := by
  unfold visit
  split
  · exact Grows.refl _
  · split
    · exact Grows.refl _
    · intro g r hr
      rw [setOf_insert]
      split
      · next heq => exact contains_absorb.2 (Or.inl (heq ▸ hr))
      · exact hr

/-- A known set is not touched, nor one of a name that no function has. -/
theorem visit_fixed {acc : ClobberSets × Bool} {p : Placement} {g : String}
    (hg : fixed.contains g = true ∨ p.func.name ≠ g) :
    setOf (visit fixed acc p).1 g = setOf acc.1 g := by
  unfold visit
  split
  · rfl
  · next hnot =>
    split
    · rfl
    · rw [setOf_insert, if_neg]
      -- The set that a visit changes is that of a function with code of its own.
      rintro rfl
      rcases hg with hg | hg
      · exact hnot hg
      · exact hg rfl

/-- A visit that does not raise the flag changes nothing, as there is nothing to absorb. -/
theorem visit_unchanged {acc : ClobberSets × Bool} {p : Placement}
    (h : (visit fixed acc p).2 = false) : visit fixed acc p = acc ∧
      (fixed.contains p.func.name = true ∨ absorb acc.1 p.func = setOf acc.1 p.func.name) := by
  unfold visit at h ⊢
  split at h
  · next hf => exact ⟨if_pos hf, Or.inl hf⟩
  · next hf =>
    split at h
    · next habs => exact ⟨by rw [if_neg hf, if_pos habs], Or.inr habs⟩
    · cases h

/-- A visit that raises the flag makes the total size grow. -/
theorem visit_changed {acc : ClobberSets × Bool} {p : Placement} (hp : p ∈ ps)
    (h : (visit fixed acc p).2 = true) :
    acc.2 = true ∨ weight ps acc.1 < weight ps (visit fixed acc p).1 := by
  by_cases hsame : visit fixed acc p = acc
  · rw [hsame] at h
    exact Or.inl h
  · right
    -- A set that changed has grown, as it only can.
    apply weight_lt (visit_grows fixed acc p) hp
    intro heq
    apply hsame
    unfold visit at heq ⊢
    split
    · rfl
    · next hf =>
      rw [if_neg hf] at heq
      split
      · rfl
      · next habs =>
        rw [if_neg habs, setOf_insert, if_pos rfl] at heq
        exact absurd heq.symm habs

/-! ## Sweeps -/

/-- Visits never take a register away. -/
theorem foldl_visit_grows (fixed : ClobberSets) (qs : List Placement) (acc : ClobberSets × Bool) :
    Grows acc.1 (qs.foldl (visit fixed) acc).1 := by
  induction qs generalizing acc with
  | nil => exact Grows.refl _
  | cons q qs ih => exact (visit_grows fixed acc q).trans (ih _)

/-- If the flag stays down, no visit changed anything, so every function had absorbed its
callees already. -/
theorem foldl_visit_unchanged (qs : List Placement) (acc : ClobberSets × Bool)
    (h : (qs.foldl (visit fixed) acc).2 = false) : qs.foldl (visit fixed) acc = acc ∧
      ∀ q ∈ qs, fixed.contains q.func.name = true ∨ absorb acc.1 q.func = setOf acc.1 q.func.name := by
  induction qs generalizing acc with
  | nil => exact ⟨rfl, fun q hq => nomatch hq⟩
  | cons q qs ih =>
    rw [List.foldl_cons] at h ⊢
    -- Had the first visit changed anything, the mark would stay.
    obtain ⟨hsame, hall⟩ := ih _ h
    rw [hsame] at h
    obtain ⟨hq, habs⟩ := visit_unchanged h
    rw [hq] at hsame hall
    rw [hq]
    exact ⟨hsame, List.forall_mem_cons.2 ⟨habs, hall⟩⟩

/-- If the flag goes up during some visits, the weight went up as well. This is what makes
the sweeps end. -/
theorem foldl_visit_changed {qs : List Placement} (hsub : qs ⊆ ps) (acc : ClobberSets × Bool)
    (h : (qs.foldl (visit fixed) acc).2 = true) :
    acc.2 = true ∨ weight ps acc.1 < weight ps (qs.foldl (visit fixed) acc).1 := by
  -- On the visits; a flag that is up stays up, so the visit that raised it has to be found.
  induction qs generalizing acc with
  | nil => exact Or.inl h
  | cons q qs ih =>
    obtain ⟨hq, hqs⟩ := List.cons_subset.1 hsub
    rw [List.foldl_cons] at h ⊢
    have hlater := weight_mono ps (foldl_visit_grows fixed qs (visit fixed acc q))
    have hfirst := weight_mono ps (visit_grows fixed acc q)
    -- the flag was raised by this visit or by a later one
    rcases ih hqs _ h with hflag | hlt
    · rcases visit_changed hq hflag with hacc | hlt
      · exact Or.inl hacc
      · exact Or.inr (by omega)
    · exact Or.inr (by omega)

/-- Every function destroys what its callees destroy, but for functions of known sets. -/
def Closed (fixed : ClobberSets) (ps : List Placement) (sets : ClobberSets) : Prop :=
  ∀ p ∈ ps, fixed.contains p.func.name = false → ∀ c ∈ calls p.func,
    RegSet.Subset (setOf sets c.2) (setOf sets p.func.name)

/-- If every function has absorbed its callees, the sets are closed under calls. -/
theorem closed_of_absorbed (h : ∀ p ∈ ps, fixed.contains p.func.name = true ∨
    absorb sets p.func = setOf sets p.func.name) : Closed fixed ps sets := by
  intro p hp hnot c hc r hr
  rcases h p hp with hf | habs
  · rw [hnot] at hf
    cases hf
  · rw [← habs]
    exact contains_absorb.2 (Or.inr ⟨c, hc, hr⟩)

/-! ## Whole sweeps -/

/-- Sweeps until one changes nothing, however many that takes. -/
inductive Sweeps (fixed : ClobberSets) (ps : List Placement) : ClobberSets → Nat → ClobberSets → Prop where
  | last {sets sets' : ClobberSets} (h : sweep fixed ps sets = (sets', false)) :
      Sweeps fixed ps sets 1 sets'
  | more {sets sets' sets'' : ClobberSets} {n : Nat} (h : sweep fixed ps sets = (sets', true))
      (rest : Sweeps fixed ps sets' n sets'') : Sweeps fixed ps sets (n + 1) sets''

/-- What visits keep is kept by sweeps, from start to end. -/
theorem Sweeps.induct {I : ClobberSets → Prop} {n : Nat} {sets' : ClobberSets}
    (h : Sweeps fixed ps sets n sets')
    (hvisit : ∀ (acc : ClobberSets × Bool), ∀ p ∈ ps, I acc.1 → I (visit fixed acc p).1)
    (hstart : I sets) : I sets' := by
  -- A sweep visits functions of the list only.
  have hfold : ∀ (qs : List Placement), qs ⊆ ps → ∀ acc : ClobberSets × Bool, I acc.1 →
      I (qs.foldl (visit fixed) acc).1 := by
    intro qs
    induction qs with
    | nil => exact fun _ _ hacc => hacc
    | cons q qs ih =>
      intro hsub acc hacc
      obtain ⟨hq, hqs⟩ := List.cons_subset.1 hsub
      exact ih hqs _ (hvisit acc q hq hacc)
  have hsweep : ∀ {s s' : ClobberSets} {b : Bool}, sweep fixed ps s = (s', b) → I s → I s' := by
    intro s s' b heq hs
    have := hfold ps (List.Subset.refl ps) (s, false) hs
    rwa [← sweep_eq, heq] at this
  induction h with
  | last heq => exact hsweep heq hstart
  | more heq _ ih => exact ih (hsweep heq hstart)

/-- The last sweep changed nothing. -/
theorem Sweeps.stable {n : Nat} {sets' : ClobberSets} (h : Sweeps fixed ps sets n sets') :
    sweep fixed ps sets' = (sets', false) := by
  induction h with
  | @last sets sets' heq =>
    have hsame := (foldl_visit_unchanged ps (sets, false) (by rw [← sweep_eq, heq])).1
    rw [← sweep_eq, heq] at hsame
    obtain rfl : sets' = sets := congrArg Prod.fst hsame
    exact heq
  | more _ _ ih => exact ih

/-- The last sweep changes nothing, so the sets are closed. -/
theorem Sweeps.closed {n : Nat} {sets' : ClobberSets} (h : Sweeps fixed ps sets n sets') :
    Closed fixed ps sets' :=
  closed_of_absorbed (foldl_visit_unchanged ps (sets', false) (by rw [← sweep_eq, h.stable])).2

/-- As each sweep but the last makes the total size grow, the bound is never met. -/
theorem sweeps_close (fixed : ClobberSets) (fuel n : Nat) (sets : ClobberSets)
    (hfuel : 32 * ps.length < weight ps sets + fuel) :
    ∃ k ≤ fuel, (close fixed ps fuel n sets).2 = n + k ∧
      Sweeps fixed ps sets k (close fixed ps fuel n sets).1 := by
  -- On the fuel: the weight goes up with every sweep but the last, and `weight_le` says how
  -- far.
  induction fuel generalizing n sets with
  | zero =>
    have := weight_le ps sets
    omega
  | succ fuel ih =>
    unfold close
    split
    · next sets' heq =>
      have hlt : weight ps sets < weight ps sets' := by
        have hflag : (ps.foldl (visit fixed) (sets, false)).2 = true := by rw [← sweep_eq, heq]
        have hgrow := foldl_visit_changed (List.Subset.refl ps) (sets, false) hflag
        rw [← sweep_eq, heq] at hgrow
        exact hgrow.resolve_left (by simp)
      obtain ⟨k, hk, hn, hs⟩ := ih (n + 1) sets' (by omega)
      exact ⟨k + 1, by omega, by omega, .more heq hs⟩
    · next sets' heq => exact ⟨1, by omega, rfl, .last heq⟩

/-- Propagation fails at a call that names no function, and otherwise sweeps to the end. -/
theorem propagate_cases (fixed : ClobberSets) (ps : List Placement) :
    (∃ e, propagate fixed ps = .error e ∧ undefined? (start fixed ps) ps = some e) ∨
      ∃ r, propagate fixed ps = .ok r ∧ undefined? (start fixed ps) ps = none ∧
        r.sweeps ≤ 32 * ps.length + 1 ∧ Sweeps fixed ps (start fixed ps) r.sweeps r.sets := by
  unfold propagate
  simp only
  cases hdef : undefined? (start fixed ps) ps with
  | some e => exact Or.inl ⟨e, rfl, rfl⟩
  | none =>
    -- Each sweep but the last adds a register to some set, so they are few.
    obtain ⟨k, hk, hn, hs⟩ := sweeps_close fixed (32 * ps.length + 1) 0
      (start fixed ps) (Nat.lt_of_lt_of_le (Nat.lt_succ_self (32 * ps.length)) (Nat.le_add_left ..))
    refine Or.inr ⟨_, rfl, rfl, ?_, ?_⟩
    · simp only [hn]
      omega
    · simpa only [hn, Nat.zero_add] using hs

/-! ## Sets of hand-written bodies -/

/-- The set of a function with a hand-written body. -/
def known? (f : Func) : Option RegSet := (f.builtin.bind Builtin.find?).map Builtin.clobber

/-- Adds the set of a function with a hand-written body. -/
def addKnown (m : ClobberSets) (f : Func) : ClobberSets :=
  match known? f with
  | some s => m.insert f.name s
  | none => m

/-- The table of the known sets is built function by function. -/
theorem clobbers_eq (fs : List Func) : Builtin.clobbers fs = fs.foldl addKnown {} := by
  unfold Builtin.clobbers
  congr 1
  funext m f
  unfold addKnown known?
  cases f.builtin.bind Builtin.find? <;> rfl

/-- A function adds its known set under its own name only. -/
theorem getElem?_addKnown (m : ClobberSets) (f : Func) (g : String) :
    (addKnown m f)[g]? = if f.name = g then (known? f).or m[g]? else m[g]? := by
  unfold addKnown
  cases known? f with
  | none => simp
  | some s =>
    rw [Std.TreeMap.getElem?_insert]
    simp [Std.LawfulEqCmp.compare_eq_iff_eq]

/-- Functions with other names leave an entry alone. -/
theorem getElem?_foldl_addKnown (fs : List Func) (m : ClobberSets) (g : String)
    (hnot : ∀ f ∈ fs, f.name ≠ g) : (fs.foldl addKnown m)[g]? = m[g]? := by
  induction fs generalizing m with
  | nil => rfl
  | cons f fs ih =>
    rw [List.foldl_cons, ih _ fun f' hf' => hnot f' (List.mem_cons_of_mem _ hf'),
      getElem?_addKnown, if_neg (hnot f List.mem_cons_self)]

/-- Of functions with different names each has its own set, if it is hand-written. -/
theorem getElem?_clobbers {fs : List Func} (hnodup : (fs.map Func.name).Nodup) {f : Func}
    (hf : f ∈ fs) : (Builtin.clobbers fs)[f.name]? = known? f := by
  have hgen : ∀ (m : ClobberSets), m[f.name]? = none → (fs.foldl addKnown m)[f.name]? = known? f := by
    -- On the functions before `f`, which have other names, and then on those behind it, which
    -- have others too.
    induction fs with
    | nil => cases hf
    | cons f' fs ih =>
      intro m hm
      rw [List.map_cons, List.nodup_cons] at hnodup
      rw [List.foldl_cons]
      rcases List.mem_cons.1 hf with rfl | hf
      · have hlater : ∀ f' ∈ fs, f'.name ≠ f.name := fun f' hf' heq =>
          hnodup.1 (heq ▸ List.mem_map_of_mem hf')
        rw [getElem?_foldl_addKnown fs _ _ hlater, getElem?_addKnown, if_pos rfl, hm]
        simp
      · have hne : f'.name ≠ f.name := fun heq => hnodup.1 (heq ▸ List.mem_map_of_mem hf)
        apply ih hnodup.2 hf
        rw [getElem?_addKnown, if_neg hne, hm]
  rw [clobbers_eq]
  exact hgen {} Std.TreeMap.getElem?_emptyc

/-! ## The final sets -/

/-- What the sets of a program are. -/
structure Propagated (fixed : ClobberSets) (ps : List Placement) (sets : ClobberSets) : Prop where
  closed : Closed fixed ps sets
  direct : ∀ p ∈ ps, fixed.contains p.func.name = false →
    RegSet.Subset (Clobber.direct p) (setOf sets p.func.name)
  known : ∀ p ∈ ps, ∀ s, fixed[p.func.name]? = some s → setOf sets p.func.name = s
  runtime : ∀ g ∈ runtimeNames, (∀ p ∈ ps, p.func.name ≠ g) → setOf sets g = RegSet.all
  defined : ∀ p ∈ ps, ∀ c ∈ calls p.func, (∀ q ∈ ps, q.func.name ≠ c.2) → c.2 ∈ runtimeNames

/-- At the start a function has its fixed set, or else the registers it writes itself. -/
theorem getElem?_start_of_mem (hnodup : (ps.map fun p => p.func.name).Nodup) {p : Placement}
    (hp : p ∈ ps) :
    (start fixed ps)[p.func.name]? = some (fixed.getD p.func.name (Clobber.direct p)) :=
  getElem?_foldl_insert_of_mem hnodup hp

/-- Names that no function of the program has keep what the environment gives them. -/
theorem getElem?_start_of_not_mem {g : String} (hnot : ∀ p ∈ ps, p.func.name ≠ g) :
    (start fixed ps)[g]? =
      (runtimeNames.foldl (fun m n => m.insert n RegSet.all) ({} : ClobberSets))[g]? := by
  have hnone : ps.reverse.find? (fun p => p.func.name == g) = none := by
    rw [List.find?_eq_none]
    intro p hp
    simpa using hnot p (List.mem_reverse.1 hp)
  rw [start, getElem?_foldl_insert (fun p : Placement => p.func.name), hnone]
  rfl

/-- A runtime function without a body destroys everything. -/
theorem getElem?_start_of_runtime {g : String} (hg : g ∈ runtimeNames)
    (hnot : ∀ p ∈ ps, p.func.name ≠ g) : (start fixed ps)[g]? = some RegSet.all := by
  have hdistinct : (runtimeNames.map id).Nodup := by decide
  rw [getElem?_start_of_not_mem hnot]
  exact getElem?_foldl_insert_of_mem hdistinct hg

/-- Only functions of the program and of the environment have a set at the start. -/
theorem runtime_of_start {g : String} (hg : (start fixed ps).contains g = true)
    (hnot : ∀ p ∈ ps, p.func.name ≠ g) : g ∈ runtimeNames := by
  rw [Std.TreeMap.contains_eq_isSome_getElem?, getElem?_start_of_not_mem hnot,
    getElem?_foldl_insert (fun n : String => n)] at hg
  cases hf : runtimeNames.reverse.find? fun n => n == g with
  | none =>
    rw [hf] at hg
    simp at hg
  | some n =>
    have hn : n = g := by simpa using List.find?_some hf
    exact hn ▸ List.mem_reverse.1 (List.mem_of_find?_eq_some hf)

/-- Once no name is missing, every callee has a set. -/
theorem contains_of_undefined (h : undefined? sets ps = none) {p : Placement} (hp : p ∈ ps)
    {c : Nat × String} (hc : c ∈ calls p.func) : sets.contains c.2 = true := by
  have hnone := List.findSome?_eq_none_iff.1 h p hp
  rw [Option.map_eq_none_iff, List.find?_eq_none] at hnone
  simpa using hnone c hc

/-- What a successful propagation says about its sets: they are closed, hold what each
function writes itself, and keep the fixed sets and those of the runtime as they were. -/
theorem propagated_of_ok (hnodup : (ps.map fun p => p.func.name).Nodup) {r : Result}
    (h : propagate fixed ps = .ok r) : Propagated fixed ps r.sets := by
  obtain ⟨r', hok, hdef, -, hsweeps⟩ : ∃ r', propagate fixed ps = .ok r' ∧
      undefined? (start fixed ps) ps = none ∧ r'.sweeps ≤ 32 * ps.length + 1 ∧
      Sweeps fixed ps (start fixed ps) r'.sweeps r'.sets := by
    rcases propagate_cases fixed ps with ⟨e, herr, -⟩ | hok
    · rw [h] at herr
      cases herr
    · exact hok
  cases h.symm.trans hok
  have hgrows : Grows (start fixed ps) r.sets :=
    hsweeps.induct (fun acc p _ hacc => hacc.trans (visit_grows fixed acc p)) (Grows.refl _)
  -- A name that is fixed, or that belongs to no function, is never written by a visit.
  have hkept : ∀ g, (fixed.contains g = true ∨ ∀ q ∈ ps, q.func.name ≠ g) →
      setOf r.sets g = setOf (start fixed ps) g := fun g hg =>
    hsweeps.induct (I := fun s => setOf s g = setOf (start fixed ps) g)
      (fun acc p hp hacc => (visit_fixed (hg.imp id fun h => h p hp)).trans hacc) rfl
  refine ⟨hsweeps.closed, ?_, ?_, ?_, ?_⟩
  · intro p hp hnot
    refine RegSet.Subset.trans ?_ (hgrows p.func.name)
    rw [setOf_eq (getElem?_start_of_mem hnodup hp),
      Std.TreeMap.getD_eq_fallback_of_contains_eq_false hnot]
    exact RegSet.Subset.refl _
  · intro p hp s hs
    have hc : fixed.contains p.func.name = true := by
      rw [Std.TreeMap.contains_eq_isSome_getElem?, hs]
      rfl
    rw [hkept _ (Or.inl hc), setOf_eq (getElem?_start_of_mem hnodup hp),
      Std.TreeMap.getD_eq_getD_getElem?, hs]
    rfl
  · intro g hg hnot
    rw [hkept g (Or.inr hnot), setOf_eq (getElem?_start_of_runtime hg hnot)]
  · intro p hp c hc hnot
    exact runtime_of_start (contains_of_undefined hdef hp hc) hnot

end Clobber

end Tac
