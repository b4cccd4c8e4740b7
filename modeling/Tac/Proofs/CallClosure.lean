import Mathlib
import Tac.Proofs.Clobber
import Tac.Proofs.Passing

/-!
# Destroyed registers are those of the functions that calls lead to

The sets after propagation are closed under calls; this module adds that they are the least such sets.
Every member found on the way belongs to a function that a path of calls leads to, and this is kept by
each visit, in whatever order the functions are visited.

* **`CallsOn`**, **`Owns`** — a call that passes registers on, and the registers of a function itself.
* **`Justified`** — every member has a path to an owner; kept by visits (`Justified.visit`).
* **`propagate_exact`** — when propagation fails, what the sets are when it does not, and what the frame
  part for saved registers is.
-/

namespace Tac

namespace Clobber

open Relation

section Paths

variable (fixed : ClobberSets) (ps : List Placement)

/-- Function `g` calls `h` and takes over what it destroys: a function of the program whose set is not
known beforehand. -/
def CallsOn (g h : String) : Prop :=
  fixed.contains g = false ∧ ∃ p ∈ ps, p.func.name = g ∧ ∃ c ∈ calls p.func, c.2 = h

/-- The registers that a function destroys apart from its calls: those of its own statements, those it
is known to destroy, or all registers if it comes from the environment. -/
inductive Owns : String → Reg → Prop where
  | direct {p : Placement} {r : Reg} (hp : p ∈ ps) (hfree : fixed.contains p.func.name = false)
      (h : (Clobber.direct p).contains r = true) : Owns p.func.name r
  | known {p : Placement} {s : RegSet} {r : Reg} (hp : p ∈ ps) (hs : fixed[p.func.name]? = some s)
      (h : s.contains r = true) : Owns p.func.name r
  | runtime {g : String} {r : Reg} (hg : g ∈ runtimeNames) (hnot : ∀ p ∈ ps, p.func.name ≠ g)
      (h : RegSet.all.contains r = true) : Owns g r

/-- Some path of calls from `g` leads to a function that owns the register. -/
def Destroys (g : String) (r : Reg) : Prop :=
  ∃ h, ReflTransGen (CallsOn fixed ps) g h ∧ Owns fixed ps h r

/-- Every member of a set so far has its path. -/
def Justified (sets : ClobberSets) : Prop :=
  ∀ g r, (setOf sets g).contains r = true → Destroys fixed ps g r

/-- The names that have a set. -/
def Named (g : String) : Prop := g ∈ runtimeNames ∨ ∃ p ∈ ps, p.func.name = g

end Paths

variable {fixed sets : ClobberSets} {ps : List Placement}

/-! ## Nothing without a path -/

theorem setOf_of_none {g : String} (h : sets[g]? = none) : setOf sets g = RegSet.empty := by
  rw [setOf, Std.TreeMap.getD_eq_getD_getElem?, h]
  rfl

theorem Owns.destroys {g : String} {r : Reg} (h : Owns fixed ps g r) : Destroys fixed ps g r :=
  ⟨g, .refl, h⟩

/-- What a callee destroys the caller does. -/
theorem Destroys.call {g h : String} {r : Reg} (hcall : CallsOn fixed ps g h)
    (hd : Destroys fixed ps h r) : Destroys fixed ps g r := by
  obtain ⟨o, hpath, hown⟩ := hd
  exact ⟨o, .head hcall hpath, hown⟩

/-- At the start every register is there for a reason. -/
theorem justified_start (hnodup : (ps.map fun p => p.func.name).Nodup) :
    Justified fixed ps (start fixed ps) := by
  intro g r hr
  -- A name is that of a function with code, or of one of the environment.
  by_cases hdef : ∃ p ∈ ps, p.func.name = g
  · obtain ⟨p, hp, rfl⟩ := hdef
    rw [setOf_eq (getElem?_start_of_mem hnodup hp), Std.TreeMap.getD_eq_getD_getElem?] at hr
    cases hs : fixed[p.func.name]? with
    | some s =>
      rw [hs] at hr
      exact (Owns.known hp hs hr).destroys
    | none =>
      rw [hs] at hr
      have hfree : fixed.contains p.func.name = false := by
        rw [Std.TreeMap.contains_eq_isSome_getElem?, hs]
        rfl
      exact (Owns.direct hp hfree hr).destroys
  · have hnot : ∀ p ∈ ps, p.func.name ≠ g := fun p hp heq => hdef ⟨p, hp, heq⟩
    cases hs : (start fixed ps)[g]? with
    | none =>
      rw [setOf_of_none hs, RegSet.contains_empty] at hr
      cases hr
    | some s =>
      have hg : g ∈ runtimeNames := runtime_of_start (by
        rw [Std.TreeMap.contains_eq_isSome_getElem?, hs]
        rfl) hnot
      rw [setOf_eq (getElem?_start_of_runtime hg hnot)] at hr
      exact (Owns.runtime hg hnot hr).destroys

/-- What a function absorbs it has from itself or from a callee. -/
theorem Justified.visit {acc : ClobberSets × Bool} {p : Placement} (hp : p ∈ ps)
    (h : Justified fixed ps acc.1) : Justified fixed ps (visit fixed acc p).1 := by
  unfold Clobber.visit
  split
  · exact h
  · next hfree =>
    split
    · exact h
    · intro g r hr
      rw [setOf_insert] at hr
      split at hr
      · next heq =>
        subst heq
        -- The register is destroyed here, or by a callee, which was justified before.
        rcases contains_absorb.1 hr with hown | ⟨c, hc, hcallee⟩
        · exact h _ r hown
        · exact (h _ r hcallee).call ⟨Bool.eq_false_of_not_eq_true hfree, p, hp, rfl, c, hc, rfl⟩
      · exact h g r hr

/-! ## Which names have sets -/

/-- A visit gives no new name a set, and takes none away. -/
theorem contains_visit {acc : ClobberSets × Bool} {p : Placement} (hp : p ∈ ps)
    (h : ∀ g, acc.1.contains g = true ↔ Named ps g) (g : String) :
    (visit fixed acc p).1.contains g = true ↔ Named ps g := by
  unfold visit
  split
  · exact h g
  · split
    · exact h g
    · rw [Std.TreeMap.contains_insert, Bool.or_eq_true, h g]
      constructor
      · rintro (heq | hg)
        · exact Or.inr ⟨p, hp, by simpa using heq⟩
        · exact hg
      · exact Or.inr

/-- The names that are known at the start. -/
theorem contains_start (hnodup : (ps.map fun p => p.func.name).Nodup) (g : String) :
    (start fixed ps).contains g = true ↔ Named ps g := by
  -- Functions of the program come first, then those of the environment.
  by_cases hdef : ∃ p ∈ ps, p.func.name = g
  · obtain ⟨p, hp, rfl⟩ := hdef
    rw [Std.TreeMap.contains_eq_isSome_getElem?, getElem?_start_of_mem hnodup hp]
    exact ⟨fun _ => Or.inr ⟨p, hp, rfl⟩, fun _ => rfl⟩
  · have hnot : ∀ p ∈ ps, p.func.name ≠ g := fun p hp heq => hdef ⟨p, hp, heq⟩
    constructor
    · exact fun hg => Or.inl (runtime_of_start hg hnot)
    · rintro (hg | hdef')
      · rw [Std.TreeMap.contains_eq_isSome_getElem?, getElem?_start_of_runtime hg hnot]
        rfl
      · exact absurd hdef' hdef

/-! ## Undefined callees -/

/-- The first undefined call is one: its function calls it, and the name has no set. -/
theorem of_undefined?_eq_some {e : UndefinedCallee} (h : undefined? sets ps = some e) :
    ∃ p ∈ ps, p.func.name = e.func ∧ ∃ c ∈ calls p.func, c.2 = e.callee ∧ sets.contains c.2 = false := by
  obtain ⟨p, hp, hfind⟩ := List.exists_of_findSome?_eq_some h
  obtain ⟨c, hc, rfl⟩ := Option.map_eq_some_iff.1 hfind
  exact ⟨p, hp, rfl, c, List.mem_of_find?_eq_some hc, rfl, by simpa using List.find?_some hc⟩

/-- The propagation fails just if a function calls a name that nothing has. -/
theorem exists_undefined_iff (fixed : ClobberSets) (hnodup : (ps.map fun p => p.func.name).Nodup) :
    (∃ e, propagate fixed ps = .error e) ↔ ∃ p ∈ ps, ∃ c ∈ calls p.func, ¬ Named ps c.2 := by
  -- The search for an undefined callee is the only check.
  rcases propagate_cases fixed ps with ⟨e, herr, hdef⟩ | ⟨r, hok, hdef, _⟩
  · obtain ⟨p, hp, _, c, hc, _, hnone⟩ := of_undefined?_eq_some hdef
    refine ⟨fun _ => ⟨p, hp, c, hc, fun hnamed => ?_⟩, fun _ => ⟨e, herr⟩⟩
    rw [(contains_start hnodup c.2).2 hnamed] at hnone
    cases hnone
  · constructor
    · rintro ⟨e, he⟩
      rw [hok] at he
      cases he
    · rintro ⟨p, hp, c, hc, hnot⟩
      exact absurd ((contains_start hnodup c.2).1 (contains_of_undefined hdef hp hc)) hnot

/-! ## The sets -/

/-- Closed sets have what a path of calls leads to. -/
theorem Propagated.contains_of_destroys (h : Propagated fixed ps sets) {g : String} {r : Reg}
    (hd : Destroys fixed ps g r) : (setOf sets g).contains r = true := by
  obtain ⟨o, hpath, hown⟩ := hd
  -- along the path from its end to its start
  induction hpath using ReflTransGen.head_induction_on with
  | refl =>
    cases hown with
    | direct hp hfree hr => exact h.direct _ hp hfree r hr
    | known hp hs hr => rw [h.known _ hp _ hs]; exact hr
    | runtime hg hnot hr => rw [h.runtime _ hg hnot]; exact hr
  | head hcall _ ih =>
    obtain ⟨hfree, p, hp, rfl, c, hc, rfl⟩ := hcall
    exact h.closed p hp hfree c hc r ih

/-- The sets of a propagation that does not fail. -/
structure Closure (fixed : ClobberSets) (ps : List Placement) (sets : ClobberSets) : Prop where
  /-- The functions of the program and of the environment have sets. -/
  contains_iff : ∀ g, sets.contains g = true ↔ Named ps g
  /-- A function destroys what it owns itself or a path of calls leads to. -/
  destroys_iff : ∀ g, Named ps g → ∀ r, (setOf sets g).contains r = true ↔ Destroys fixed ps g r
  known : ∀ p ∈ ps, ∀ s, fixed[p.func.name]? = some s → sets[p.func.name]? = some s
  runtime : ∀ g ∈ runtimeNames, (∀ p ∈ ps, p.func.name ≠ g) → sets[g]? = some RegSet.all

/-- A name that is known has its set. -/
theorem getElem?_of_contains {g : String} (h : sets.contains g = true) :
    sets[g]? = some (setOf sets g) := by
  rw [Std.TreeMap.contains_eq_isSome_getElem?] at h
  obtain ⟨s, hs⟩ := Option.isSome_iff_exists.1 h
  rw [hs, setOf_eq hs]

/-- The sets that come out are those of the call closure, exactly. -/
theorem closure_of_ok (hnodup : (ps.map fun p => p.func.name).Nodup) {r : Result}
    (h : propagate fixed ps = .ok r) : Closure fixed ps r.sets := by
  have hprop := propagated_of_ok hnodup h
  rcases propagate_cases fixed ps with ⟨e, herr, _⟩ | ⟨r', hok, _, _, hsweeps⟩
  · rw [h] at herr
    cases herr
  · obtain rfl : r' = r := Except.ok.inj (hok.symm.trans h)
    -- Sweeps change sets, but give no new names.
    have hcontains := hsweeps.induct (I := fun s => ∀ g, s.contains g = true ↔ Named ps g)
      (fun acc p hp hacc => contains_visit hp hacc) (contains_start hnodup)
    have hjust := hsweeps.induct (fun acc p hp hacc => hacc.visit hp) (justified_start hnodup)
    refine ⟨hcontains, fun g _ x => ⟨hjust g x, hprop.contains_of_destroys⟩,
      fun p hp s hs => ?_, fun g hg hnot => ?_⟩
    · rw [getElem?_of_contains ((hcontains _).2 (Or.inr ⟨p, hp, rfl⟩)), hprop.known p hp s hs]
    · rw [getElem?_of_contains ((hcontains _).2 (Or.inl hg)), hprop.runtime g hg hnot]

/-! ## The order of the functions -/

section Order

variable {ps' : List Placement} (hperm : ps.Perm ps')

include hperm

/-- The order of the functions does not matter to which names there are. -/
theorem named_perm (g : String) : Named ps g ↔ Named ps' g := by
  simp only [Named, hperm.mem_iff]

/-- The order of the functions does not matter to what is destroyed. -/
theorem destroys_perm (g : String) (r : Reg) : Destroys fixed ps g r ↔ Destroys fixed ps' g r := by
  have hcalls : CallsOn fixed ps = CallsOn fixed ps' := by
    funext g h
    simp only [CallsOn, hperm.mem_iff]
  -- Owning a register asks for a function of the list, wherever it stands.
  have howns : ∀ {qs qs' : List Placement}, qs.Perm qs' → ∀ {h}, Owns fixed qs h r → Owns fixed qs' h r := by
    intro qs qs' hq h hown
    cases hown with
    | direct hp hfree hr => exact .direct (hq.mem_iff.1 hp) hfree hr
    | known hp hs hr => exact .known (hq.mem_iff.1 hp) hs hr
    | runtime hg hnot hr => exact .runtime hg (fun p hp => hnot p (hq.mem_iff.2 hp)) hr
  rw [Destroys, Destroys, hcalls]
  exact ⟨fun ⟨o, hpath, hown⟩ => ⟨o, hpath, howns hperm hown⟩,
    fun ⟨o, hpath, hown⟩ => ⟨o, hpath, howns hperm.symm hown⟩⟩

/-- Each name has the same set in any order of the functions. -/
theorem Closure.getElem?_perm {sets' : ClobberSets} (h : Closure fixed ps sets)
    (h' : Closure fixed ps' sets') (g : String) : sets'[g]? = sets[g]? := by
  by_cases hg : Named ps g
  · have hg' := (named_perm hperm g).1 hg
    rw [getElem?_of_contains ((h.contains_iff g).2 hg), getElem?_of_contains ((h'.contains_iff g).2 hg')]
    congr 1
    refine RegSet.eq_of_contains fun r => ?_
    rw [Bool.eq_iff_iff, h.destroys_iff g hg, h'.destroys_iff g hg', destroys_perm hperm]
  -- A name that neither list knows has no set at all.
  · have hnone : ∀ {qs : List Placement} {s : ClobberSets}, Closure fixed qs s → ¬ Named qs g →
        s[g]? = none := by
      intro qs s hs hnot
      rw [← Option.not_isSome_iff_eq_none, ← Std.TreeMap.contains_eq_isSome_getElem?]
      exact fun hc => hnot ((hs.contains_iff g).1 hc)
    rw [hnone h hg, hnone h' fun hg' => hg ((named_perm hperm g).2 hg')]

end Order

/-! ## Saved registers -/

/-- A greatest value is one of the values. -/
theorem foldl_max_mem {α : Type} (g : α → Nat) : ∀ (xs : List α) (n : Nat),
    xs.foldl (fun n x => max n (g x)) n = n ∨ ∃ x ∈ xs, g x = xs.foldl (fun n x => max n (g x)) n := by
  intro xs
  induction xs with
  | nil => exact fun n => Or.inl rfl
  | cons y xs ih =>
    intro n
    rw [List.foldl_cons]
    rcases ih (max n (g y)) with heq | ⟨x, hx, heq⟩
    · rw [heq]
      rcases Nat.le_total (g y) n with hle | hle
      · exact Or.inl (Nat.max_eq_left hle)
      · exact Or.inr ⟨y, List.mem_cons_self, (Nat.max_eq_right hle).symm⟩
    · exact Or.inr ⟨x, List.mem_cons_of_mem _ hx, heq⟩

/-- The frame part for saved registers holds those of the neediest call. -/
theorem callerSave_isGreatest (sets : ClobberSets) (p : Placement) :
    IsGreatest (insert 0 {n | ∃ c ∈ calls p.func, (saved p c.1 (setOf sets c.2)).length = n})
      (callerSave sets p) := by
  let need : Nat × String → Nat := fun c => (saved p c.1 (setOf sets c.2)).length
  refine ⟨?_, ?_⟩
  · rcases foldl_max_mem need (calls p.func) 0 with h | ⟨c, hc, h⟩
    · exact Set.mem_insert_iff.2 (Or.inl h)
    · exact Set.mem_insert_of_mem _ ⟨c, hc, h⟩
  · rintro n (rfl | ⟨c, hc, rfl⟩)
    · exact Nat.zero_le _
    · exact (le_foldl_max need (calls p.func) 0).2 c hc

/-! ## Propagation -/

/-- Propagation fails exactly when some call names no function of the program and none of the
environment.  Otherwise the sweeps come to an end, with the registers that functions own to which paths of
calls lead, through functions whose sets are not known beforehand.  In another order of the functions
propagation gives the same sets.  The frame part for saved registers is that of the neediest call. -/
theorem propagate_exact (fixed : ClobberSets) {ps : List Placement}
    (hnodup : (ps.map fun p => p.func.name).Nodup) :
    ((∃ e, propagate fixed ps = .error e) ↔ ∃ p ∈ ps, ∃ c ∈ calls p.func, ¬ Named ps c.2) ∧
    ∀ r, propagate fixed ps = .ok r →
      Sweeps fixed ps (start fixed ps) r.sweeps r.sets ∧ r.sweeps ≤ 32 * ps.length + 1 ∧
      sweep fixed ps r.sets = (r.sets, false) ∧
      Closure fixed ps r.sets ∧
      (∀ ps' : List Placement, ps.Perm ps' → ∃ r', propagate fixed ps' = .ok r' ∧
        ∀ g : String, r'.sets[g]? = r.sets[g]?) ∧
      ∀ p ∈ ps, IsGreatest
        (insert 0 {n | ∃ c ∈ calls p.func, (saved p c.1 (setOf r.sets c.2)).length = n})
        (callerSave r.sets p) := by
  refine ⟨exists_undefined_iff fixed hnodup, fun r hr => ?_⟩
  have hclosure := closure_of_ok hnodup hr
  rcases propagate_cases fixed ps with ⟨e, herr, _⟩ | ⟨r', hok, _, hle, hsweeps⟩
  · rw [hr] at herr
    cases herr
  · obtain rfl : r' = r := Except.ok.inj (hok.symm.trans hr)
    refine ⟨hsweeps, hle, hsweeps.stable, hclosure, fun ps' hperm => ?_,
      fun p _ => callerSave_isGreatest r'.sets p⟩
    have hnodup' : (ps'.map fun p => p.func.name).Nodup := (hperm.map _).nodup_iff.1 hnodup
    rcases propagate_cases fixed ps' with ⟨e, herr', _⟩ | ⟨r₂, hok', _⟩
    · -- a call without a callee would be one in the other order too
      obtain ⟨p, hp, c, hc, hnot⟩ := (exists_undefined_iff fixed hnodup').1 ⟨e, herr'⟩
      have hbad := (exists_undefined_iff fixed hnodup).2
        ⟨p, hperm.mem_iff.2 hp, c, hc, fun hnamed => hnot ((named_perm hperm _).1 hnamed)⟩
      obtain ⟨e', he'⟩ := hbad
      rw [hr] at he'
      cases he'
    · exact ⟨r₂, hok', fun g => hclosure.getElem?_perm hperm (closure_of_ok hnodup' hok') g⟩

/-- A function that calls the listed ones in turn, with one value in `r` throughout. -/
def callingPlacement (name : String) (callees : List String) (r : Reg) : Placement where
  func := { name, void := true, stmts := callees.map (.call none · []) ++ [.ret none] }
  live := (callees.map fun _ => BitSet.ofList [0]).toArray.push BitSet.empty
  meet := #[]
  locs := ({} : Locs).insert 0 (.reg r)
  arrays := {}
  spillSize := 0

/-- Two functions that call each other, one of them also a hand-written one. -/
def mutualPlacements : List Placement :=
  [callingPlacement "f" ["g"] (Reg.t 2), callingPlacement "g" ["f", "fill"] (Reg.t 3),
    callingPlacement "fill" ["f"] (Reg.s 0)]

/-- What the hand-written function is known to destroy; nothing else that it does counts. -/
def fillKnown : ClobberSets := ({} : ClobberSets).insert "fill" (RegSet.ofList [Reg.a 0, Reg.t 3])

/-- The function destroys what both write and what the hand-written one is known to destroy, in either
order of the functions. -/
theorem propagate_exact_mutual : (mutualPlacements.map fun p => p.func.name).Nodup ∧
    ∃ r r', propagate fillKnown mutualPlacements = .ok r ∧
      propagate fillKnown mutualPlacements.reverse = .ok r' ∧
      (∀ g : String, r'.sets[g]? = r.sets[g]?) ∧
      setOf r.sets "f" = RegSet.ofList [Reg.t 2, Reg.t 3, Reg.a 0] ∧
      Destroys fillKnown mutualPlacements "f" (Reg.a 0) ∧
      ¬ Destroys fillKnown mutualPlacements "f" (Reg.s 0) := by
  have hnodup : (mutualPlacements.map fun p => p.func.name).Nodup := by decide
  -- Two functions that call each other, propagated by evaluation.
  have hok : (propagate fillKnown mutualPlacements).toOption.any (fun r =>
      setOf r.sets "f" == RegSet.ofList [Reg.t 2, Reg.t 3, Reg.a 0]) = true := by decide +kernel
  cases hr : propagate fillKnown mutualPlacements with
  | error e =>
    rw [hr] at hok
    cases hok
  | ok r =>
    obtain ⟨_, hexact⟩ := propagate_exact fillKnown hnodup
    obtain ⟨_, _, _, hclosure, horder, _⟩ := hexact r hr
    obtain ⟨r', hr', hsame⟩ := horder _ (List.reverse_perm _).symm
    rw [hr] at hok
    have hset : setOf r.sets "f" = RegSet.ofList [Reg.t 2, Reg.t 3, Reg.a 0] :=
      of_decide_eq_true hok
    have hiff := hclosure.destroys_iff "f" (Or.inr ⟨_, List.mem_cons_self, rfl⟩)
    refine ⟨hnodup, r, r', rfl, hr', hsame, hset, (hiff _).1 ?_, fun h => ?_⟩
    · rw [hset]
      decide
    · have hmem := (hiff _).2 h
      rw [hset] at hmem
      exact absurd hmem (by decide)

end Clobber

end Tac
