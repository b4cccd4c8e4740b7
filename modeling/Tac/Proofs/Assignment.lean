import Mathlib
import Tac.Allocation
import Tac.Proofs.Liveness

/-!
# Temporaries are written before they are read

Statements are checked one after the other with the set of temporaries that are surely written.  For
each label there is one such set, which has to hold on every jump to the label and when control falls
onto it; behind the label only this set is known.  Nothing is known to be unreachable, so behind a
jump or a return anything goes.

* **`Passes`** — statements that pass the check, from the temporaries written before to those written
  after.
* **`Passes.written`** — on every path from the entry to a statement that reads a temporary, some
  statement writes it.
* **`not_live_temp`** — no temporary is live before the first statement.
-/

namespace Tac

namespace Assignment

/-! ## The check -/

/-- The temporaries among operands. -/
def tempsOf (vs : List Val) : Set Int := {n | Val.temp n ∈ vs}

@[simp] theorem mem_tempsOf {vs : List Val} {n : Int} : n ∈ tempsOf vs ↔ Val.temp n ∈ vs := Iff.rfl

theorem tempsOf_append (vs us : List Val) : tempsOf (vs ++ us) = tempsOf vs ∪ tempsOf us := by
  ext n
  simp

/-- The temporaries that are written when control falls through a statement. -/
def fall (Γ : Int → Set Int) (D : Set Int) : Stmt → Set Int
  | .jump _ | .ret _ => Set.univ
  | .label l => Γ l
  | s => D ∪ tempsOf s.dst?.toList

/-- A statement reads temporaries that are written and takes enough of them to labels. -/
structure Safe (Γ : Int → Set Int) (D : Set Int) (s : Stmt) : Prop where
  reads : ∀ n, .temp n ∈ s.sources → n ∈ D
  jumps : ∀ l, s.target? = some l → Γ l ⊆ D
  falls : ∀ l, s = .label l → Γ l ⊆ D

/-- Statements pass the check: when the first set is written before them, the last one is written
after them. -/
inductive Passes (Γ : Int → Set Int) : Set Int → List Stmt → Set Int → Prop where
  | nil {D D' : Set Int} (h : D' ⊆ D) : Passes Γ D [] D'
  | cons {D D' : Set Int} {s : Stmt} {ss : List Stmt} (h : Safe Γ D s)
      (hs : Passes Γ (fall Γ D s) ss D') : Passes Γ D (s :: ss) D'

section Check

variable {Γ : Int → Set Int} {D D' E E' : Set Int} {s : Stmt} {ss ts : List Stmt}

theorem Safe.mono (h : Safe Γ D s) (hD : D ⊆ E) : Safe Γ E s :=
  ⟨fun n hn => hD (h.reads n hn), fun l hl => (h.jumps l hl).trans hD,
    fun l hl => (h.falls l hl).trans hD⟩

/-- More is assigned behind a statement if more was before it. -/
theorem fall_mono (hD : D ⊆ E) (s : Stmt) : fall Γ D s ⊆ fall Γ E s := by
  cases s with
  | jump | ret | label => exact Set.Subset.rfl
  | binary | unary | move | store | load | branch | call | zeroFill =>
    exact Set.union_subset_union_left _ hD

/-- Statements pass with more assigned before and less asked for behind. -/
theorem Passes.mono (h : Passes Γ D ss D') (hD : D ⊆ E) (hD' : E' ⊆ D') : Passes Γ E ss E' := by
  induction h generalizing E with
  | nil h => exact .nil (hD'.trans (h.trans hD))
  | cons h _ ih => exact .cons (h.mono hD) (ih (fall_mono hD _) hD')

/-- Statements behind statements. -/
theorem Passes.append (h : Passes Γ D ss E) (h' : Passes Γ E ts D') : Passes Γ D (ss ++ ts) D' := by
  induction h with
  | nil h => exact h'.mono h Set.Subset.rfl
  | cons h _ ih => exact .cons h (ih h')

theorem Passes.one (h : Safe Γ D s) : Passes Γ D [s] (fall Γ D s) := .cons h (.nil Set.Subset.rfl)

/-- The temporaries that are written before statement `i`. -/
def before (Γ : Int → Set Int) (D : Set Int) (ss : List Stmt) (i : Nat) : Set Int :=
  (ss.take i).foldl (fall Γ) D

/-- What is assigned before the next statement. -/
theorem before_succ {i : Nat} (hi : ss[i]? = some s) :
    before Γ D ss (i + 1) = fall Γ (before Γ D ss i) s := by
  rw [before, before, List.take_add_one, hi, Option.toList_some, List.foldl_append]
  rfl

/-- Every statement of a list that passes is safe where it stands. -/
theorem Passes.safe (h : Passes Γ D ss D') {i : Nat} (hi : ss[i]? = some s) :
    Safe Γ (before Γ D ss i) s := by
  -- On the list; the position moves with it.
  induction h generalizing i with
  | nil => cases hi
  | @cons D D' t ts hsafe _ ih =>
    cases i with
    | zero =>
      cases hi
      exact hsafe
    | succ i => exact ih hi

end Check

/-! ## Paths -/

/-- A path from the entry: the statements that were passed, and the one that it has come to. -/
inductive Path (fl : Flow) : List Nat → Nat → Prop where
  | entry : Path fl [] 0
  | step {is : List Nat} {i j : Nat} (h : Path fl is i) (hj : j ∈ fl.nextOf i) :
      Path fl (is ++ [i]) j

section Paths

variable {Γ : Int → Set Int} {D' : Set Int} {f : Func} {fl : Flow} {i j : Nat} {n : Int}

/-- The temporaries that are written on every way to statement `i`: a label may also be jumped to. -/
def arriving (Γ : Int → Set Int) (D : Set Int) (ss : List Stmt) (i : Nat) : Set Int :=
  match ss[i]? with
  | some (.label l) => Γ l
  | _ => before Γ D ss i

/-- At a label only what is promised there is known to be assigned. -/
theorem arriving_label {D : Set Int} {ss : List Stmt} {l : Int} (hi : ss[i]? = some (.label l)) :
    arriving Γ D ss i = Γ l := by
  simp only [arriving, hi]

/-- At any other statement what was assigned before it is. -/
theorem arriving_of_ne {D : Set Int} {ss : List Stmt} (hi : ∀ l, ss[i]? ≠ some (.label l)) :
    arriving Γ D ss i = before Γ D ss i := by
  unfold arriving
  split
  · next l hl => exact absurd hl (hi l)
  · rfl

/-- What is known on arrival is no more than what holds in a straight pass. -/
theorem Passes.arriving_subset {D : Set Int} {ss : List Stmt} (h : Passes Γ D ss D') (i : Nat) :
    arriving Γ D ss i ⊆ before Γ D ss i := by
  unfold arriving
  split
  · next l hl => exact (h.safe hl).falls l rfl
  · exact Set.Subset.rfl

/-- What is written on the way to a successor is written on the way to a statement or by it. -/
theorem Passes.arriving_next (h : Passes Γ ∅ f.stmts D') (d : Flow.Describes f fl)
    (hj : j ∈ fl.nextOf i) {s : Stmt} (hi : f.stmts[i]? = some s) :
    arriving Γ ∅ f.stmts j ⊆ arriving Γ ∅ f.stmts i ∪ tempsOf s.dst?.toList := by
  have hok := d.successors_eq i s hi
  -- Control goes on to the statement behind, or to the label of a jump; elsewhere it does not
  -- go.
  have hfall : ∀ k, k ∈ Flow.following f.stmts.length i →
      arriving Γ ∅ f.stmts k ⊆ fall Γ (before Γ ∅ f.stmts i) s := by
    intro k hk
    obtain ⟨rfl, -⟩ := (Flow.mem_following_iff _ _ _).1 hk
    rw [← before_succ hi]
    exact h.arriving_subset (i + 1)
  have hjump : ∀ l, s.target? = some l → ∀ k, fl.labels[l]? = some k →
      arriving Γ ∅ f.stmts k ⊆ before Γ ∅ f.stmts i := by
    intro l hl k hk
    rw [arriving_label (d.stmt_of_label hk)]
    exact (h.safe hi).jumps l hl
  have hplain : (∀ l, s ≠ .label l) → arriving Γ ∅ f.stmts i = before Γ ∅ f.stmts i := fun hne =>
    arriving_of_ne fun l hl => hne l (Option.some.inj (hi.symm.trans hl))
  -- Labels are entered with what every jump to them promises, so they stand apart.
  cases s with
  | jump l =>
    obtain ⟨k, hk, hnext⟩ := d.label_of_jump hi
    rw [hnext, List.mem_singleton] at hj
    subst hj
    rw [hplain nofun]
    exact (hjump l rfl j hk).trans Set.subset_union_left
  | branch x rel y l =>
    obtain ⟨k, hk, hnext⟩ := d.label_of_branch hi
    rw [hplain nofun]
    rw [hnext, List.mem_cons] at hj
    rcases hj with rfl | hj
    · exact (hjump l rfl j hk).trans Set.subset_union_left
    · exact hfall j hj
  | ret v =>
    rw [← Except.ok.inj hok] at hj
    cases hj
  | label l =>
    rw [← Except.ok.inj hok] at hj
    rw [arriving_label hi]
    exact (hfall j hj).trans Set.subset_union_left
  | binary | unary | move | store | load | call | zeroFill =>
    rw [← Except.ok.inj hok] at hj
    rw [hplain nofun]
    exact hfall j hj

/-- What is known to be assigned was written on any path that leads there. -/
theorem Passes.written_of_arriving (h : Passes Γ ∅ f.stmts D') (d : Flow.Describes f fl)
    {is : List Nat} (hpath : Path fl is i) (hn : n ∈ arriving Γ ∅ f.stmts i) :
    ∃ k ∈ is, ∃ s, f.stmts[k]? = some s ∧ s.dst? = some (.temp n) := by
  -- On the path. Where it takes a jump, the label promises what the jump brings.
  induction hpath with
  | entry => exact absurd (h.arriving_subset 0 hn) (Set.notMem_empty n)
  | @step is i j _ hj ih =>
    have hi : i < f.stmts.length := by
      by_contra hge
      rw [d.nextOf_eq_nil (Nat.le_of_not_lt hge)] at hj
      cases hj
    rcases h.arriving_next d hj (List.getElem?_eq_getElem hi) hn with hold | hnew
    · obtain ⟨k, hk, hwrite⟩ := ih hold
      exact ⟨k, List.mem_append_left _ hk, hwrite⟩
    · rw [mem_tempsOf, Option.mem_toList] at hnew
      exact ⟨i, List.mem_append_right _ (List.mem_singleton_self i), _,
        List.getElem?_eq_getElem hi, hnew⟩

/-- A temporary that is read is known to be assigned. -/
theorem Passes.mem_arriving (h : Passes Γ ∅ f.stmts D') {s : Stmt} (hs : f.stmts[i]? = some s)
    (hread : .temp n ∈ s.sources) : n ∈ arriving Γ ∅ f.stmts i := by
  have hne : ∀ l, f.stmts[i]? ≠ some (.label l) := by
    intro l hl
    cases hs.symm.trans hl
    cases hread
  rw [arriving_of_ne hne]
  exact (h.safe hs).reads n hread

/-- On every path from the entry to a read of a temporary, some statement writes it. -/
theorem Passes.written (h : Passes Γ ∅ f.stmts D') (d : Flow.Describes f fl) {is : List Nat}
    (hpath : Path fl is i) {s : Stmt} (hs : f.stmts[i]? = some s) (hread : .temp n ∈ s.sources) :
    ∃ k ∈ is, ∃ t, f.stmts[k]? = some t ∧ t.dst? = some (.temp n) :=
  h.written_of_arriving d hpath (h.mem_arriving hs hread)

end Paths

/-! ## Liveness -/

section Live

open Liveness

variable {vars : VarTable} {f : Func} {fl : Flow}

/-- What the equations say of a least solution: a property of statements and registers that every read
has, and that goes from a successor to each statement that does not write the register, is a property
of everything that is live. -/
theorem live_induction (d : Flow.Describes f fl) {P : Nat → VReg → Prop}
    (use : ∀ i s u, f.stmts[i]? = some s → u ∈ s.uses vars → P i u)
    (pass : ∀ i s j u, f.stmts[i]? = some s → j ∈ fl.nextOf i → P j u → u ∉ s.defs vars → P i u)
    {i : Nat} {u : VReg} (hu : ((analyze vars f fl).liveAt i).contains u = true) : P i u := by
  have hvisit : ∀ {w : Work} {i : Nat}, (∀ k u, (w.sets.liveAt k).contains u = true → P k u) →
      Visited (facts vars f fl) i w (visit (facts vars f fl) i w) →
      ∀ k u, ((visit (facts vars f fl) i w).sets.liveAt k).contains u = true → P k u := by
    intro w i hw v k u hu
    by_cases hk : k = i
    · subst hk
      rw [v.live_self u, contains_transfer, contains_join, uses_facts, defs_facts] at hu
      cases hs : f.stmts[k]? with
      | none =>
        rw [hs] at hu
        rcases hu with hmem | ⟨-, j, hj, -⟩
        · cases hmem
        · have hj' : j ∈ fl.nextOf k := hj
          rw [d.nextOf_eq_nil (List.getElem?_eq_none_iff.1 hs)] at hj'
          cases hj'
      | some s =>
        rw [hs] at hu
        rcases hu with huse | ⟨hdef, j, hj, hlive⟩
        · exact use k s u hs huse
        · exact pass k s j u hs hj (hw j u hlive) hdef
    · rw [v.live_other k hk] at hu
      exact hw k u hu
  have hsolve : ∀ fuel {w : Work}, Progress (facts vars f fl) f.stmts.length w →
      (∀ k u, (w.sets.liveAt k).contains u = true → P k u) →
      ∀ k u, ((solve (facts vars f fl) fuel w).sets.liveAt k).contains u = true → P k u := by
    intro fuel
    -- On the fuel; each round goes one statement further along a path.
    induction fuel with
    | zero => exact fun _ hw => hw
    | succ fuel ih =>
      intro w p hw
      rw [solve]
      cases hmax : w.queue.max? with
      | none => exact hw
      | some i =>
        obtain ⟨hi, -⟩ := Std.TreeSet.max?_eq_some_iff_mem_and_forall.1 hmax
        have hlt := p.queue_lt i hi
        have v := visited_visit (facts vars f fl) (by rw [p.size_live]; exact hlt)
          (by rw [p.size_meet]; exact hlt) hi
        exact ih (progress_visit d p v) (hvisit hw v)
  refine hsolve _ progress_start (fun k u hu => ?_) i u hu
  rw [liveAt_start, BitSet.contains_empty] at hu
  cases hu

/-- Different temporaries and variables have different virtual registers as long as their numbers do
not wrap. -/
structure Spaced (vars : VarTable) (f : Func) : Prop where
  temps : ∀ s ∈ f.stmts, ∀ n, .temp n ∈ s.operands → 0 ≤ n ∧ n < 2305843009213693952
  vars : ∀ s ∈ f.stmts, ∀ id v, .var id ∈ s.operands → vars.get? id = some v →
    0 ≤ v.index ∧ v.index < 2305843009213693952

/-- The register of a temporary in bounds. -/
theorem vreg?_temp {n : Int} (h0 : 0 ≤ n) (hn : n < 2305843009213693952) :
    vars.vreg? (.temp n) = some (3 * n).toNat := by
  have hwrap : wrap64 (3 * n) = 3 * n := by
    rw [wrap64, Int.bmod_def]
    split <;> omega
  simp only [VarTable.vreg?, VarTable.number?, Option.bind_some, hwrap]
  rw [if_pos (by omega)]

/-- A variable never has the number of a temporary. -/
theorem number?_of_spaced {v : Var} (h0 : 0 ≤ v.index) (hn : v.index < 2305843009213693952) {k : Int}
    (hk : v.number? = some k) : 0 ≤ k ∧ k % 3 ≠ 0 := by
  -- Three times a number below 2⁶¹ does not wrap.
  have hwrap : ∀ c : Int, 0 ≤ c → c ≤ 2 → wrap64 (3 * v.index + c) = 3 * v.index + c := by
    intro c h₁ h₂
    rw [wrap64, Int.bmod_def]
    split <;> omega
  unfold Var.number? at hk
  split at hk
  · cases hk
  · split at hk
    · cases hk
    · rw [hwrap 1 (by decide) (by decide)] at hk
      cases hk
      omega
  · rw [VReg.ofArg, hwrap 2 (by decide) (by decide)] at hk
    cases hk
    omega

/-- Only a temporary has the virtual register of a temporary. -/
theorem eq_temp_of_vreg? (hf : Spaced vars f) {s : Stmt} (hs : s ∈ f.stmts) {v : Val}
    (hv : v ∈ s.operands) {n : Int} (h0 : 0 ≤ n) (hn : n < 2305843009213693952)
    (h : vars.vreg? v = some (3 * n).toNat) : v = .temp n := by
  cases v with
  | const c => cases h
  | temp m =>
    obtain ⟨hm0, hm⟩ := hf.temps s hs m hv
    rw [vreg?_temp hm0 hm, Option.some_inj] at h
    rw [show m = n by omega]
  | var id =>
    obtain ⟨k, hk, hu⟩ := Option.bind_eq_some_iff.1 h
    obtain ⟨x, hx, hnum⟩ := Option.bind_eq_some_iff.1 hk
    obtain ⟨hx0, hxn⟩ := hf.vars s hs id x hv hx
    -- Numbers of variables are no multiples of three, those of temporaries are.
    have hmod := number?_of_spaced hx0 hxn hnum
    rw [if_pos hmod.1, Option.some_inj] at hu
    have hk3 : k.toNat = (3 * n).toNat := hu
    omega

/-- Sources are operands. -/
theorem mem_operands_of_source {s : Stmt} {v : Val} (h : v ∈ s.sources) : v ∈ s.operands := by
  unfold Stmt.operands
  exact List.mem_append_left _ (List.mem_append_right _ h)

/-- Destinations are operands. -/
theorem mem_operands_of_dst {s : Stmt} {v : Val} (h : s.dst? = some v) : v ∈ s.operands := by
  unfold Stmt.operands
  rw [h]
  exact List.mem_append_left _ (List.mem_append_left _ (List.mem_singleton_self v))

/-- No temporary is live before the first statement of a function that passes the check. -/
theorem not_live_temp {Γ : Int → Set Int} {D' : Set Int} (h : Passes Γ ∅ f.stmts D')
    (hf : Spaced vars f) (d : Flow.Describes f fl) {n : Int} (h0 : 0 ≤ n)
    (hn : n < 2305843009213693952) :
    ((analyze vars f fl).liveAt 0).contains (3 * n).toNat = false := by
  rw [← Bool.not_eq_true]
  intro hlive
  -- Going back from a use, the temporary is assigned all the way, up to the start, where
  -- nothing is.
  have hall := live_induction d (P := fun i u => u = (3 * n).toNat → n ∈ arriving Γ ∅ f.stmts i)
    (fun i s u hs hu hun => ?_) (fun i s j u hs hj hP hdef hun => ?_) hlive rfl
  · exact Set.notMem_empty n (h.arriving_subset 0 hall)
  · subst hun
    obtain ⟨v, hv, hvu⟩ := List.mem_filterMap.1 hu
    have hmem := List.mem_of_getElem? hs
    rw [eq_temp_of_vreg? hf hmem (mem_operands_of_source hv) h0 hn hvu] at hv
    exact h.mem_arriving hs hv
  · subst hun
    rcases h.arriving_next d hj hs (hP rfl) with hold | hnew
    · exact hold
    · rw [mem_tempsOf, Option.mem_toList] at hnew
      refine absurd (List.mem_filterMap.2 ⟨.temp n, ?_, vreg?_temp h0 hn⟩) hdef
      rw [hnew]
      exact List.mem_singleton_self _

end Live

end Assignment

end Tac
