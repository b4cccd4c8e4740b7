import Mathlib
import Tac.Proofs.Allocation

/-!
# Colouring succeeds

When registers are given out, a node avoids those of the neighbours that have theirs already.  Nodes
that left while they had few neighbours find a free register by counting.  Nodes that left as one of the
many parameters that were left over find the register that passes them: only such parameters have
registers by then, each its own.

* **`Graph.Counted`** — degrees count neighbours, during construction and while nodes leave.
* **`Fits`** — the two reasons for which a node will find a register; **`Crowding`** carries them
  through taking out.
* **`Given.choose`** — with such a reason a register is found; `giveAll_succeeds` for the whole stack.
* **`run_succeeds`** — colouring the graph of an analysed function ends without error, if the parameters
  that its statements read are its own, and spills none of them.
-/

namespace Tac

/-! ## Degrees -/

namespace BitSet

theorem size_eq_zero {s : BitSet} (h : ∀ k, s.contains k = false) : s.size = 0 := by
  rw [size_eq_length, (isEmpty_toList_iff s).2 h, List.length_nil]

end BitSet

namespace Graph

/-- The degree of a node is the number of its present neighbours. -/
def Counted (g : Graph) : Prop := ∀ u, g.degree u = (g.neighbours u).size

/-- The empty graph counts right. -/
theorem counted_empty : Counted empty := fun u => by
  rw [BitSet.size_eq_zero]
  · simp [degree, empty]
  · simp [neighbours, empty]

section Construction

variable {g : Graph}

/-- A new node has no neighbours to count. -/
theorem Counted.addNode (hc : g.Counted) (hg : g.Undirected) (u : VReg) : (g.addNode u).Counted := by
  intro v
  unfold Graph.addNode
  split
  · exact hc v
  · next habsent =>
    have hv := hc v
    simp only [degree, neighbours, getD_insert] at hv ⊢
    by_cases huv : u = v
    · -- an absent node had no neighbours to count
      subst huv
      have hnone : ∀ w, (g.neighbours u).contains w = false := fun w =>
        Bool.eq_false_of_not_eq_true fun hadj => habsent (hg.has_of_adj hadj)
      have hzero := BitSet.size_eq_zero hnone
      rw [neighbours, ← hv] at hzero
      rw [if_pos rfl, hzero, BitSet.size_eq_zero BitSet.contains_empty]
    · rw [if_neg huv, hv]

/-- An edge is counted at both of its ends, once. -/
theorem Counted.addEdge (hc : g.Counted) (hg : g.Undirected) (a b : VReg) : (g.addEdge a b).Counted := by
  unfold Graph.addEdge
  split
  · exact hc
  · next hab =>
    have hc' := (hc.addNode hg a).addNode (hg.addNode a) b
    have hg' := (hg.addNode a).addNode b
    simp only
    generalize (g.addNode a).addNode b = g' at hc' hg'
    split
    · exact hc'
    · next hnew =>
      have hab' : (g'.neighbours a).contains b = false := Bool.eq_false_of_not_eq_true hnew
      have hba' : (g'.neighbours b).contains a = false :=
        Bool.eq_false_of_not_eq_true fun hadj => hnew (hg'.symm hadj)
      intro v
      have ha := hc' a
      have hb := hc' b
      have hv := hc' v
      simp only [degree, neighbours, getD_insert] at ha hb hv hab' hba' ⊢
      -- both ends get one neighbour more; the edge at `b` is written last
      by_cases hbv : b = v
      · rw [if_pos hbv, if_pos hbv, if_neg hab, BitSet.size_insert _ _ hba', hb]
      · rw [if_neg hbv, if_neg hbv]
        by_cases hav : a = v
        · rw [if_pos hav, if_pos hav, BitSet.size_insert _ _ hab', ha]
        · rw [if_neg hav, if_neg hav, hv]

end Construction

/-- What adding nodes and edges keeps holds of every graph that is built. -/
theorem build_induct {P : Graph → Prop} (hempty : P empty) (hnode : ∀ g u, P g → P (g.addNode u))
    (hedge : ∀ g a b, P g → P (g.addEdge a b)) (live : Liveness) (reachable : BitSet) :
    P (build live reachable) := by
  have hcliques : ∀ (is : List Nat) (g : Graph), P g →
      P (is.foldl (fun g i => g.clique (live.liveAt i)) g) := by
    intro is
    induction is with
    | nil => exact fun _ hg => hg
    | cons i is ih =>
      intro g hg
      exact ih _ (joinAll_induct (fun g u _ => hnode g u) (fun g a _ b _ => hedge g a b) hg)
  exact hcliques _ _ hempty

/-- The graph that is built counts its neighbours right. -/
theorem counted_build (live : Liveness) (reachable : BitSet) : (build live reachable).Counted :=
  (build_induct (P := fun g => g.Growing ∧ g.Counted) ⟨growing_empty, counted_empty⟩
    (fun _ u h => ⟨h.1.addNode u, h.2.addNode h.1.toUndirected u⟩)
    (fun _ a b h => ⟨h.1.addEdge a b, h.2.addEdge h.1.toUndirected a b⟩) live reachable).2

/-- Each neighbour of the leaving node has one neighbour less. -/
theorem Counted.foldl_detach (u : VReg) : ∀ (vs : List VReg) {g : Graph}, vs.Nodup →
    (∀ v ∈ vs, g.Adj v u) → g.Counted → (vs.foldl (detach u) g).Counted := by
  intro vs
  -- On the neighbours that still point at `u`; each loses one, and none of them comes twice.
  induction vs with
  | nil => exact fun _ _ hc => hc
  | cons x vs ih =>
    intro g hnodup hadj hc
    obtain ⟨hx, hvs⟩ := List.nodup_cons.1 hnodup
    rw [List.foldl_cons]
    refine ih hvs (fun v hv => ?_) fun v => ?_
    · have hxv : x ≠ v := fun h => hx (h ▸ hv)
      have := hadj v (List.mem_cons_of_mem _ hv)
      simpa only [Adj, detach, neighbours, getD_insert, if_neg hxv] using this
    · have hv := hc v
      simp only [detach, degree, neighbours, getD_insert] at hv ⊢
      by_cases hxv : x = v
      · subst hxv
        have hless := BitSet.size_erase _ _ (hadj x List.mem_cons_self)
        rw [neighbours, ← hv] at hless
        rw [if_pos rfl, if_pos rfl, ← hless, Nat.add_sub_cancel]
      · rw [if_neg hxv, if_neg hxv, hv]

/-- Removing a node keeps the count right. -/
theorem Counted.remove {g : Graph} (hc : g.Counted) (hg : g.Undirected) {u : VReg} (hu : g.Has u) :
    (g.remove u).Counted := by
  intro v
  have hv := Counted.foldl_detach u (g.neighbours u).toList (BitSet.nodup_toList _)
    (fun w hw => hg.symm ((BitSet.mem_toList _ _).1 hw)) hc v
  rw [remove_eq hu]
  simp only [degree, neighbours, getD_insert] at hv ⊢
  by_cases huv : u = v
  · rw [if_pos huv, if_pos huv, BitSet.size_eq_zero BitSet.contains_empty]
  · rw [if_neg huv, if_neg huv, hv]

/-- What is left of the graph `g₀` when nodes have left: the edges between those present, and at both
ends of the others a memory of them. -/
structure Rest (g₀ g : Graph) : Prop where
  counted : g.Counted
  adj_iff : ∀ u v, g.Adj u v ↔ g₀.Adj u v ∧ g.Has u ∧ g.Has v
  parted : ∀ u v, g.Parted u v → g₀.Adj u v

/-- The whole graph is what is left of it at the start. -/
theorem Growing.rest {g : Graph} (hg : g.Growing) (hc : g.Counted) : Rest g g :=
  ⟨hc, fun _ _ => ⟨fun h => ⟨h, hg.has_of_adj h, hg.has_of_adj (hg.symm h)⟩, And.left⟩,
    fun _ _ h => absurd h hg.not_parted⟩

/-- What is left of an undirected graph is undirected. -/
theorem Rest.undirected {g₀ g : Graph} (hg₀ : g₀.Growing) (r : Rest g₀ g) : g.Undirected := by
  refine ⟨fun {v w} h => ?_, fun {v w} h => ((r.adj_iff v w).1 h).2.1,
    fun {v} h => hg₀.irrefl ((r.adj_iff v v).1 h).1⟩
  obtain ⟨h₀, hv, hw⟩ := (r.adj_iff v w).1 h
  exact (r.adj_iff w v).2 ⟨hg₀.symm h₀, hw, hv⟩

/-- Removing one more node leaves a smaller rest. -/
theorem Rest.remove {g₀ g : Graph} (hg₀ : g₀.Growing) (r : Rest g₀ g) {u : VReg} (hu : g.Has u) :
    Rest g₀ (g.remove u) := by
  have hg := r.undirected hg₀
  refine ⟨r.counted.remove hg hu, fun v w => ?_, fun v w h => ?_⟩
  · rw [hg.adj_remove hu, has_remove hu, has_remove hu, r.adj_iff]
    constructor
    · rintro ⟨⟨h₀, hhv, hhw⟩, hv, hw⟩
      exact ⟨h₀, ⟨hv, hhv⟩, hw, hhw⟩
    · rintro ⟨h₀, ⟨hv, hhv⟩, hw, hhw⟩
      exact ⟨⟨h₀, hhv, hhw⟩, hv, hw⟩
  -- A pair was parted before, or is parted now because it was adjacent.
  · rcases (hg.parted_remove hu v w).1 h with h | ⟨h, -⟩
    · exact r.parted v w h
    · exact ((r.adj_iff _ _).1 h).1

end Graph

/-! ## Parameters by number -/

namespace VReg

/-- The number is that of a parameter. -/
def IsParam (u : VReg) : Prop := (paramIndex? u).isSome = true

/-- The parameter with a number is found by it. -/
theorem paramIndex?_eq_some_iff {u i : Nat} : paramIndex? u = some i ↔ u = param i := by
  have hu : (0 : Int) ≤ (u : Int) := Int.natCast_nonneg u
  have hnum : u = 3 * i + 2 ↔ u % 3 = 2 ∧ u / 3 = i := by omega
  rw [paramIndex?, Int.tmod_eq_emod_of_nonneg hu, Int.tdiv_eq_ediv_of_nonneg hu, param, hnum]
  split
  · simp only [Option.some.injEq]
    omega
  · simp only [reduceCtorEq, false_iff]
    omega

theorem isParam_iff {u : VReg} : IsParam u ↔ ∃ i, u = param i := by
  simp only [IsParam, Option.isSome_iff_exists, paramIndex?_eq_some_iff]

end VReg

/-! ## Registers of their own -/

namespace Affinity

variable {u : Int} {r : Reg}

namespace Survey

variable {h : Survey}

/-- A preference does not change what is fixed. -/
theorem fixed_prefer (hu : h.fixed[u]? = some r) (q : Reg) (v : Option Int) :
    (h.prefer q v).fixed[u]? = some r := by
  unfold prefer
  split
  · exact hu
  · next w =>
    split
    · exact hu
    · next hnot =>
      -- A second preference of the same value would not be taken.
      have hne : w ≠ u := by
        rintro rfl
        rw [Std.TreeMap.contains_eq_isSome_getElem?, hu] at hnot
        exact hnot rfl
      rw [getElem?_insert_map, if_neg hne, hu]

/-- A register of its own is never taken from a value. -/
theorem fixed_observe {vars : VarTable} (hu : h.fixed[u]? = some r) (s : Stmt) :
    (h.observe vars s).fixed[u]? = some r := by
  -- A call prefers registers for its arguments, one after the other.
  have hargs : ∀ (xs : List (Val × Reg)) (h : Survey), h.fixed[u]? = some r →
      (xs.foldl (fun h x => h.prefer x.2 (vars.number? x.1)) h).fixed[u]? = some r := by
    intro xs
    induction xs with
    | nil => exact fun _ hu => hu
    | cons x xs ih => exact fun h hu => ih _ (fixed_prefer hu x.2 _)
  cases s with
  | move d s =>
    simp only [observe]
    split <;> exact hu
  | ret v =>
    cases v with
    | none => exact hu
    | some v => exact fixed_prefer hu _ _
  | call ret callee args =>
    cases ret with
    | none => exact hargs _ _ hu
    | some v => exact hargs _ _ (fixed_prefer hu _ _)
  | jump | branch | label | binary | unary | store | load | zeroFill => exact hu

end Survey

/-- Groups have no part in the registers that values have of their own. -/
theorem fixed_conclude (h : Survey) : h.conclude.fixed = h.fixed := by
  have hfold : ∀ (us : List Int) (s : Forest × Affinity),
      (us.foldl takeUp s).2.fixed = s.2.fixed := by
    intro us
    induction us with
    | nil => exact fun _ => rfl
    | cons u us ih =>
      intro s
      rw [List.foldl_cons, ih, takeUp]
      split <;> rfl
  rw [Survey.conclude, ← Array.foldl_toList, hfold]

/-- The parameters of a function have registers of their own: those that pass them. -/
theorem fixed_ofFunc (vars : VarTable) {f : Func} {i : Nat} (hi : i < f.params.length)
    (h8 : i < Reg.argCount) : (ofFunc vars f).fixed[((VReg.param i : Nat) : Int)]? = some (Reg.a i) := by
  have hfold : ∀ (ss : List Stmt) (h : Survey),
      h.fixed[((VReg.param i : Nat) : Int)]? = some (Reg.a i) →
      (ss.foldl (Survey.observe vars) h).fixed[((VReg.param i : Nat) : Int)]? = some (Reg.a i) := by
    intro ss
    induction ss with
    | nil => exact fun _ hu => hu
    | cons s ss ih => exact fun h hu => ih _ (Survey.fixed_observe hu s)
  rw [ofFunc, fixed_conclude, Survey.ofStmts]
  refine hfold _ _ ?_
  -- each parameter is inserted once, under its own number
  have hnodup : ((Reg.args.take f.params.length).zipIdx.map fun x => ((VReg.param x.2 : Nat) : Int)).Nodup := by
    have hcomp : (fun x : Reg × Nat => ((VReg.param x.2 : Nat) : Int)) =
        (fun k => ((VReg.param k : Nat) : Int)) ∘ Prod.snd := rfl
    rw [hcomp, ← List.map_map, List.zipIdx_map_snd]
    exact List.Nodup.map (fun j k h => VReg.param_injective (Int.ofNat_inj.1 h)) List.nodup_range'
  have hmem : (Reg.a i, i) ∈ (Reg.args.take f.params.length).zipIdx := by
    rw [List.mem_zipIdx_iff_getElem?, List.getElem?_take, if_pos hi]
    simp [Reg.args, h8]
  exact getElem?_foldl_insert_of_mem hnodup hmem

/-- A register of its own is what a value prefers first. -/
theorem recommend_of_fixed {h : Affinity} (hu : h.fixed[u]? = some r) (locs : Locs) :
    ∃ rs, h.recommend u locs = r :: rs := by
  rw [recommend, hu]
  exact ⟨_, rfl⟩

end Affinity

namespace Coloring

open VReg

/-! ## Taking out -/

/-- Why a node will find one of `k` registers when those of `before` have theirs: few of them are its
neighbours, or it is a parameter and so are they all. -/
def Fits (g : Graph) (k : Nat) (u : VReg) (before : VReg → Prop) : Prop :=
  (∃ vs : List VReg, vs.length < k ∧ ∀ v, g.Adj u v → before v → v ∈ vs) ∨
    (IsParam u ∧ ∀ v, before v → IsParam v)

/-- Fewer nodes may come before. -/
theorem Fits.mono {g : Graph} {k : Nat} {u : VReg} {before before' : VReg → Prop}
    (h : Fits g k u before) (hsub : ∀ v, before' v → before v) : Fits g k u before' := by
  rcases h with ⟨vs, hlen, hvs⟩ | ⟨hu, hall⟩
  · exact Or.inl ⟨vs, hlen, fun v hadj hv => hvs v hadj (hsub v hv)⟩
  · exact Or.inr ⟨hu, fun v hv => hall v (hsub v hv)⟩

/-- What holds while the graph `g` is taken apart for `k` registers: each node of the stack will find
one when those above it and those still present have theirs, and what is spilled had to be. -/
structure Crowding (g : Graph) (k : Nat) (t : Taking) : Prop where
  rest : Graph.Rest g t.graph
  fits : ∀ above u below, t.stack = above ++ u :: below →
    Fits g k u fun v => v ∈ above ∨ t.graph.Has v
  spilled : ∀ s ∈ t.spills, paramIndex? s.node = none ∧ k ≤ s.degree

section Taking

variable {g : Graph} (hg : g.Growing) {k : Nat} {t : Taking}

include hg

/-- Pushing a node that fits keeps the stack colorable. -/
theorem Crowding.push (h : Crowding g k t) {u : VReg} (hu : t.graph.Has u)
    (hfits : Fits g k u (t.push u).graph.Has) : Crowding g k (t.push u) := by
  refine ⟨h.rest.remove hg hu, fun above v below heq => ?_, h.spilled⟩
  cases above with
  | nil =>
    obtain ⟨rfl, _⟩ := List.cons.inj heq
    exact hfits.mono fun w hw => hw.resolve_left (List.not_mem_nil)
  | cons x above =>
    obtain ⟨rfl, hstack⟩ := List.cons.inj heq
    refine (h.fits above v below hstack).mono fun w hw => ?_
    -- the pushed node was present before
    rcases hw with hw | hw
    · rcases List.mem_cons.1 hw with rfl | hw
      · exact Or.inr hu
      · exact Or.inl hw
    · exact Or.inr ((Graph.has_remove hu w).1 hw).2

/-- Spilling a crowded node that is no parameter keeps the stack colorable. -/
theorem Crowding.spill (h : Crowding g k t) {u : VReg} (hu : t.graph.Has u)
    (hparam : paramIndex? u = none) (hdeg : k ≤ t.graph.degree u) : Crowding g k (t.spill u) := by
  refine ⟨h.rest.remove hg hu, fun above v below heq => ?_,
    List.forall_mem_cons.2 ⟨⟨hparam, hdeg⟩, h.spilled⟩⟩
  refine (h.fits above v below heq).mono fun w hw => ?_
  exact hw.imp_right fun hw => ((Graph.has_remove hu w).1 hw).2

/-- Taking one node out keeps the stack colorable, whichever way it is taken. -/
theorem Crowding.takeOne (h : Crowding g k t) : Crowding g k (Coloring.takeOne k t) := by
  rcases takeOne_inv k t with ⟨u, hu, hdeg, heq⟩ | ⟨u, hu, hparam, hmany, heq⟩ | ⟨u, hu, hall, heq⟩ |
    ⟨_, heq⟩
  · -- its present neighbours are few, and they are all that can have registers before it
    rw [heq]
    refine h.push hg hu (Or.inl ⟨(t.graph.neighbours u).toList, ?_, fun v hadj hv => ?_⟩)
    · rw [← BitSet.size_eq_length, ← h.rest.counted u]
      exact hdeg
    · have hv' := ((Graph.has_remove hu v).1 hv).2
      exact (BitSet.mem_toList _ _).2 ((h.rest.adj_iff u v).2 ⟨hadj, hu, hv'⟩)
  · rw [heq]
    exact h.spill hg hu hparam (hmany u hu)
  · rw [heq]
    exact h.push hg hu (Or.inr ⟨hall u hu, fun v hv => hall v ((Graph.has_remove hu v).1 hv).2⟩)
  · rw [heq]
    exact h

/-- Taking nodes out keeps the stack colorable. -/
theorem Crowding.takeAll (n : Nat) (h : Crowding g k t) : Crowding g k (Coloring.takeAll k n t) := by
  induction n generalizing t with
  | zero => exact h
  | succ n ih => exact ih (h.takeOne hg)

end Taking

/-- At the start no node has been taken out. -/
theorem crowding_start {g : Graph} (hg : g.Growing) (hc : g.Counted) (k : Nat) (slot : Int) :
    Crowding g k { graph := g, slot } :=
  ⟨hg.rest hc, fun above u below heq => by simp at heq, fun s hs => nomatch hs⟩

/-! ## Finding a register -/

/-- If one of the registers is free, one is chosen. -/
theorem exists_choose {regs : List Reg} {taken : RegSet} (hints : List Reg)
    (h : ∃ r ∈ regs, taken.contains r = false) : ∃ r, choose regs taken hints = some r := by
  obtain ⟨r, hr, hfree⟩ := h
  have hfind : (regs.find? fun r => !taken.contains r).isSome = true :=
    List.find?_isSome.2 ⟨r, hr, by simp [hfree]⟩
  rw [← Option.isSome_iff_exists, choose, Option.isSome_or, hfind, Bool.or_true]

/-- The first hint is taken when it is a free candidate. -/
theorem choose_hint {regs : List Reg} {taken : RegSet} {r : Reg} (hr : r ∈ regs) (hmask : r.Masked)
    (hfree : taken.contains r = false) (hints : List Reg) :
    choose regs taken (r :: hints) = some r := by
  have hallowed : (RegSet.ofList regs).contains r = true := by
    rw [RegSet.contains_ofList, decide_eq_true hr, decide_eq_true hmask]
    rfl
  simp [choose, hallowed, hfree]

/-- Every register of the file is a candidate. -/
theorem mem_candidates_of_mem {regs : List Reg} {r : Reg} (hr : r ∈ regs) (u : VReg) :
    r ∈ candidates regs u := by
  unfold candidates
  split
  · split
    · exact hr
    · exact List.mem_append_left _ hr
  · exact hr

/-- The register of a parameter is a candidate for it. -/
theorem a_mem_candidates (regs : List Reg) {i : Nat} (hi : i < Reg.argCount) :
    Reg.a i ∈ candidates regs (param i) := by
  have ha : (paramIndex? (param i : Nat)).bind (fun i => Reg.arg? i) = some (Reg.a i) := by
    rw [paramIndex?_eq_some_iff.2 rfl, Option.bind_some, Reg.arg?_eq, if_pos hi]
  unfold candidates
  rw [ha]
  simp only
  split
  · assumption
  · exact List.mem_append_right _ (List.mem_singleton.2 rfl)

/-- A busy register is that of a neighbour from which the node was parted. -/
theorem exists_of_contains_busy {g : Graph} {locs : Locs} {u : VReg} {r : Reg}
    (h : (busy g locs u).contains r = true) : ∃ v : VReg, g.Parted u v ∧ locs[v]? = some (.reg r) := by
  rw [busy, RegSet.contains_ofList, Bool.and_eq_true, decide_eq_true_eq, List.mem_filterMap] at h
  obtain ⟨⟨v, hv, hr⟩, _⟩ := h
  obtain ⟨l, hl, hlr⟩ := Option.bind_eq_some_iff.1 hr
  refine ⟨v, (BitSet.mem_toList _ _).1 hv, ?_⟩
  cases l with
  | reg q =>
    obtain rfl := Option.some.inj hlr
    exact hl
  | stack s n => cases hlr

/-- The locations when the nodes of `above` have their registers: nobody else has one, and as long as
they are all parameters, each is in its own. -/
structure Given (above : List VReg) (locs : Locs) : Prop where
  only : ∀ (v : VReg) (r : Reg), locs[v]? = some (.reg r) → v ∈ above
  own : (∀ v ∈ above, IsParam v) → ∀ i, param i ∈ above → locs[param i]? = some (.reg (Reg.a i))

section Giving

variable {g₀ g : Graph} (hpart : ∀ u v, g.Parted u v → g₀.Adj u v)
  {regs : List Reg} (hnodup : regs.Nodup) {h : Affinity} {n : Nat} (hn : n ≤ Reg.argCount)
  (hfixed : ∀ i < n, h.fixed[((param i : Nat) : Int)]? = some (Reg.a i))

include hpart hnodup in
/-- Fewer neighbours than registers leave one free. -/
theorem exists_free (locs : Locs) {u : VReg} {vs : List VReg} (hlen : vs.length < regs.length)
    (hvs : ∀ v r, g₀.Adj u v → locs[v]? = some (.reg r) → v ∈ vs) :
    ∃ r ∈ regs, (busy g locs u).contains r = false := by
  by_contra hnone
  -- otherwise the registers are among those that the listed nodes hold
  have hsub : regs ⊆ vs.filterMap fun v => (locs[v]?).bind Loc.reg? := by
    intro r hr
    have hbusy : (busy g locs u).contains r = true := by
      by_contra hfree
      exact hnone ⟨r, hr, Bool.eq_false_of_not_eq_true hfree⟩
    obtain ⟨v, hv, hloc⟩ := exists_of_contains_busy hbusy
    exact List.mem_filterMap.2 ⟨v, hvs v r (hpart u v hv) hloc, by rw [hloc]; rfl⟩
  have hle := (hnodup.subperm hsub).length_le
  have := List.length_filterMap_le (fun v => (locs[v]?).bind Loc.reg?) vs
  omega

include hfixed hn in
/-- A parameter gets its own register when all that have one are parameters with their own. -/
theorem Given.choose_own {above : List VReg} {locs : Locs} (hgiven : Given above locs)
    (hall : ∀ v ∈ above, IsParam v) {i : Nat} (hi : i < n) (hnew : param i ∉ above) :
    choose (candidates regs (param i)) (busy g locs (param i)) (h.recommend (param i : Nat) locs) =
      some (Reg.a i) := by
  obtain ⟨hints, hhints⟩ := Affinity.recommend_of_fixed (hfixed i hi) locs
  rw [hhints]
  refine choose_hint (a_mem_candidates regs (by omega)) (Reg.valid_a (by omega)).masked ?_ hints
  -- If the own register were busy, another parameter would have it as its own.
  by_contra hbusy
  obtain ⟨v, _, hloc⟩ := exists_of_contains_busy (Bool.eq_true_of_not_eq_false hbusy)
  have hv := hgiven.only v _ hloc
  obtain ⟨j, rfl⟩ := isParam_iff.1 (hall v hv)
  rw [hgiven.own hall j hv] at hloc
  have hij := Reg.a_injective (Loc.reg.inj (Option.some.inj hloc))
  exact hnew (hij ▸ hv)

include hpart hnodup hfixed hn in
/-- A node that fits finds a register. -/
theorem Given.choose {above : List VReg} {locs : Locs} (hgiven : Given above locs) {u : VReg}
    (hfits : Fits g₀ regs.length u (· ∈ above)) (hnew : u ∉ above)
    (hown : ∀ i, u = param i → i < n) :
    ∃ r, Coloring.choose (candidates regs u) (busy g locs u) (h.recommend u locs) = some r ∧
      Given (above ++ [u]) (locs.insert u (.reg r)) := by
  -- a parameter above which there are only parameters gets its own register
  have hsame : (∀ v ∈ above, IsParam v) → ∀ i, u = param i →
      Coloring.choose (candidates regs u) (busy g locs u) (h.recommend u locs) = some (Reg.a i) := by
    rintro hall i rfl
    exact hgiven.choose_own hn hfixed hall (hown i rfl) hnew
  have hsome : ∃ r, Coloring.choose (candidates regs u) (busy g locs u) (h.recommend u locs) =
      some r := by
    rcases hfits with ⟨vs, hlen, hvs⟩ | ⟨hu, hall⟩
    · obtain ⟨r, hr, hfree⟩ := exists_free hpart hnodup locs hlen fun v r hadj hloc =>
        hvs v hadj (hgiven.only v r hloc)
      exact exists_choose _ ⟨r, mem_candidates_of_mem hr u, hfree⟩
    · obtain ⟨i, hi⟩ := isParam_iff.1 hu
      exact ⟨_, hsame hall i hi⟩
  obtain ⟨r, hr⟩ := hsome
  refine ⟨r, hr, fun v q hq => ?_, fun hall i hi => ?_⟩
  · rw [getElem?_insert_map] at hq
    split at hq
    · next huv => simp [huv]
    · exact List.mem_append_left _ (hgiven.only v q hq)
  · have habove : ∀ v ∈ above, IsParam v := fun v hv => hall v (List.mem_append_left _ hv)
    rw [getElem?_insert_map]
    by_cases hu : u = param i
    · have hri : r = Reg.a i := Option.some.inj (hr.symm.trans (hsame habove i hu))
      rw [if_pos hu, hri]
    · rw [if_neg hu]
      have hmem := (List.mem_append.1 hi).resolve_right fun h => hu (List.mem_singleton.1 h).symm
      exact hgiven.own habove i hmem

include hpart hnodup hfixed hn in
/-- All nodes of a stack find registers when each fits with those above it. -/
theorem giveAll_succeeds : ∀ (us above : List VReg) (locs : Locs), Given above locs →
    (above ++ us).Nodup → (∀ i, param i ∈ us → i < n) →
    (∀ xs u ys, us = xs ++ u :: ys → Fits g₀ regs.length u (· ∈ above ++ xs)) →
    ∃ locs', giveAll regs g h locs us = (locs', none) := by
  intro us
  -- On the nodes that are still to be given a register; those given one so far are listed in
  -- `above`.
  induction us with
  | nil => exact fun _ locs _ _ _ _ => ⟨locs, rfl⟩
  | cons u us ih =>
    intro above locs hgiven hdup hown hfits
    have hnew : u ∉ above := fun hu => List.disjoint_of_nodup_append hdup hu List.mem_cons_self
    obtain ⟨r, hr, hgiven'⟩ := hgiven.choose hpart hnodup hn hfixed
      ((hfits [] u us rfl).mono fun v hv => by rwa [List.append_nil]) hnew
      fun i hi => hown i (by simp [hi])
    have hassoc : above ++ [u] ++ us = above ++ u :: us := by simp
    obtain ⟨locs', hlocs'⟩ := ih (above ++ [u]) _ hgiven' (hassoc ▸ hdup)
      (fun i hi => hown i (List.mem_cons_of_mem _ hi)) fun xs v ys heq => by
        refine (hfits (u :: xs) v ys (by rw [heq]; rfl)).mono fun w hw => ?_
        simpa using hw
    exact ⟨locs', by rw [giveAll, hr]; exact hlocs'⟩

end Giving

/-! ## Placing parameters -/

/-- At most eight parameters that are all in registers are placed without error. -/
theorem placeParams_succeeds (func : String) (count : Nat) : ∀ (left i : Nat) (locs : Locs)
    (fates : List ParamFate), i + left ≤ Reg.argCount →
    (∀ (j : Nat) (l : Loc), locs[param j]? = some l → ∃ r, l = .reg r) →
    ∃ locs' fates', placeParams func count left i locs fates = (locs', fates', none) := by
  intro left
  -- On the parameters that are left. A swap exchanges registers and makes none into a slot.
  induction left with
  | zero => exact fun i locs fates _ _ => ⟨locs, fates.reverse, rfl⟩
  | succ left ih =>
    intro i locs fates hle hregs
    unfold placeParams
    cases hl : locs[param i]? with
    | none => exact ih (i + 1) locs _ (by omega) hregs
    | some l =>
      obtain ⟨r, rfl⟩ := hregs i l hl
      simp only [Reg.arg?_eq, if_pos (show i < Reg.argCount by omega)]
      split
      · exact ih (i + 1) locs _ (by omega) hregs
      · refine ih (i + 1) _ _ (by omega) fun j l hj => ?_
        rw [getElem?_swapAll, Option.map_eq_some_iff] at hj
        obtain ⟨l', hl', rfl⟩ := hj
        obtain ⟨q, rfl⟩ := hregs j l' hl'
        exact ⟨_, rfl⟩

/-- Phases without error make a colouring without error. -/
theorem run_of_phases {vars : VarTable} {f : Func} {g : Graph} {h : Affinity} {regs : List Reg}
    {locs locs' : Locs} {fates : List ParamFate}
    (hgive : giveAll (file regs) (takenOut vars f g regs).graph h (takenOut vars f g regs).locs
      (takenOut vars f g regs).stack = (locs, none))
    (hplace : placeParams f.name f.params.length f.params.length 0 locs [] = (locs', fates, none)) :
    (run vars f g h regs).error = none := by
  unfold run
  simp only
  rw [← file]
  have htaken : takeAll (file regs).length g.size
      { graph := g, slot := (layoutArrays vars 0 {} f.locals).2 } = takenOut vars f g regs := rfl
  rw [htaken, hgive]
  simp only [hplace]

/-! ## The whole colouring -/

/-- What the first phase leaves behind is colorable. -/
theorem crowding_takenOut (vars : VarTable) (f : Func) {g : Graph} (hg : g.Growing) (hc : g.Counted)
    (regs : List Reg) : Crowding g (file regs).length (takenOut vars f g regs) :=
  (crowding_start hg hc _ _).takeAll hg g.size

/-- What is spilled is no parameter. -/
theorem Crowding.ne_param {g : Graph} {k : Nat} {t : Taking} (h : Crowding g k t) {s : Spill}
    (hs : s ∈ t.spills) (j : Nat) : s.node ≠ param j := by
  intro hnode
  have hnone := (h.spilled s hs).1
  rw [hnode, paramIndex?_eq_some_iff.2 rfl] at hnone
  cases hnone

/-- Every node of the stack finds a register, so every parameter has one. -/
theorem giveAll_takenOut (vars : VarTable) {f : Func} {g : Graph} {regs : List Reg} (hg : g.Growing)
    (hc : g.Counted) (hcount : f.params.length ≤ 8)
    (hparams : ∀ i, g.Has (param i) → i < f.params.length) (hnodup : (file regs).Nodup) :
    ∃ locs, giveAll (file regs) (takenOut vars f g regs).graph (Affinity.ofFunc vars f)
        (takenOut vars f g regs).locs (takenOut vars f g regs).stack = (locs, none) ∧
      ∀ (j : Nat) (l : Loc), locs[param j]? = some l → ∃ r, l = .reg r := by
  obtain ⟨ht, -⟩ := taken_takenOut vars f hg regs
  -- Each node was taken with fewer neighbours than registers.
  have hcrowd := crowding_takenOut vars f hg hc regs
  -- At the start only spilled nodes have a place, and none of them is a register.
  have hstart : Given [] (takenOut vars f g regs).locs := by
    refine ⟨fun v r hv => ?_, fun _ i hi => absurd hi List.not_mem_nil⟩
    obtain ⟨s, _, _, hs⟩ := (ht.locs_iff v _).1 hv
    cases hs
  obtain ⟨locs, hgive⟩ := giveAll_succeeds hcrowd.rest.parted hnodup hcount
    (fun i hi => Affinity.fixed_ofFunc vars hi (lt_of_lt_of_le hi hcount))
    (takenOut vars f g regs).stack [] _ hstart (List.Nodup.of_append_left ht.nodup)
    (fun i hi => hparams i ((ht.nodes _).2 (Or.inr (Or.inl hi))))
    fun xs u ys heq => (hcrowd.fits xs u ys heq).mono fun v hv => Or.inl (by simpa using hv)
  obtain ⟨hframe, hgiven⟩ := giveAll_spec _ hgive
  refine ⟨locs, hgive, fun j l hl => ?_⟩
  -- A parameter is never spilled, so it has no place but the one given to it.
  by_cases hj : param j ∈ (takenOut vars f g regs).stack
  · obtain ⟨r, _, hr⟩ := hgiven _ hj
    exact ⟨r, Option.some.inj (hl.symm.trans hr)⟩
  · rw [hframe _ hj, ht.locs_iff] at hl
    obtain ⟨s, hs, hnode, _⟩ := hl
    exact absurd hnode (hcrowd.ne_param hs j)

/-- The graph of an analysed function is coloured without error with any registers at all, however many
values there are, when it has at most eight parameters and reads no others.  Every node gets a location,
a parameter that of a register; what is spilled is no parameter and had at least as many neighbours as
there are registers. -/
theorem run_succeeds {vars : VarTable} {f : Func} {a : Analysis} {regs : List Reg}
    (ha : f.analyze vars = .ok a) (hcount : f.params.length ≤ 8)
    (hown : ∀ s ∈ f.stmts, ∀ i, param i ∈ s.uses vars → i < f.params.length)
    (hne : regs ≠ []) (hnodup : regs.Nodup) (hvalid : ∀ r ∈ regs, r.Valid) :
    (∀ u, ¬ (takenOut vars f a.graph regs).graph.Has u) ∧
    ∃ c, run vars f a.graph (Affinity.ofFunc vars f) regs = c ∧ c.error = none ∧
      (∀ u : VReg, (∃ l, c.locs[u]? = some l) ↔ a.graph.Has u) ∧
      (∀ i, a.graph.Has (param i) → ∃ r, c.locs[param i]? = some (.reg r)) ∧
      (∀ s ∈ c.spills, a.graph.Has s.node ∧ paramIndex? s.node = none ∧ regs.length ≤ s.degree) ∧
      (c.spills.map Spill.node).Nodup := by
  obtain ⟨_, _, hsol, _, hgraph, _⟩ := Func.analyze_spec ha
  have hg : a.graph.Growing := hgraph ▸ Graph.growing_build _ _
  have hc : a.graph.Counted := hgraph ▸ Graph.counted_build _ _
  have hfew : ∀ u, a.graph.Has u → u < 18446744073709551616 := fun u hu => Func.lt_of_has_graph ha hu
  have hfile : file regs = regs := if_neg (by simpa using hne)
  have hparams : ∀ i, a.graph.Has (param i) → i < f.params.length := by
    intro i hi
    rw [hgraph, Graph.has_build] at hi
    obtain ⟨k, _, hlive⟩ := hi
    obtain ⟨s, hs, hu⟩ := hsol.live_read k _ hlive
    exact hown s hs i hu
  obtain ⟨ht, hempty⟩ := taken_takenOut vars f hg regs
  have hcrowd := crowding_takenOut vars f hg hc regs
  -- every node of the stack finds a register, and the parameters are placed
  obtain ⟨locs, hgive, hregs⟩ := giveAll_takenOut vars hg hc hcount hparams
    (hfile.symm ▸ hnodup)
  obtain ⟨locs', fates, hplace⟩ := placeParams_succeeds f.name f.params.length f.params.length 0 locs []
    (by rw [Nat.zero_add]; exact hcount) hregs
  have hok := run_of_phases hgive hplace
  have hcolored := run_spec (h := Affinity.ofFunc vars f) hg hfew hvalid hok
  obtain ⟨_, hspills, _⟩ := run_phases hok
  refine ⟨hempty, _, rfl, hok, hcolored.located, fun i hi => ?_, fun s hs => ?_, hcolored.nodup⟩
  · obtain ⟨l, hl⟩ := (hcolored.located _).2 hi
    cases l with
    | reg r => exact ⟨r, hl⟩
    | stack slot n =>
      obtain ⟨s, hs, hnode, _⟩ := (hcolored.stack_iff _ _ _).1 hl
      rw [hspills, List.mem_reverse] at hs
      exact absurd hnode (hcrowd.ne_param hs i)
  · rw [hspills, List.mem_reverse] at hs
    obtain ⟨hnone, hdegree⟩ := hcrowd.spilled s hs
    rw [hfile] at hdegree
    exact ⟨(ht.nodes _).2 (Or.inr (Or.inr (List.mem_map_of_mem hs))), hnone, hdegree⟩

/-- Three parameters. -/
def fullVars : VarTable := #[⟨"a", .arg, 0, none⟩, ⟨"b", .arg, 1, none⟩, ⟨"c", .arg, 2, none⟩]

/-- The three parameters are live together, and two of them together with a temporary. -/
def fullFunc : Func where
  name := "f"
  void := false
  params := [0, 1, 2]
  temps := [0]
  stmts := [.binary (.temp 0) (.var 0) .add (.var 1), .binary (.temp 0) (.temp 0) .add (.var 2),
    .binary (.temp 0) (.temp 0) .add (.var 0), .ret (some (.temp 0))]

/-- With a single register the temporary is spilled and the parameters are not. -/
theorem run_succeeds_full : ∃ a, fullFunc.analyze fullVars = .ok a ∧
    ∃ c, run fullVars fullFunc a.graph (Affinity.ofFunc fullVars fullFunc) [Reg.t 2] = c ∧
      c.error = none ∧ c.spills.map Spill.node = [0] ∧
      ∀ i, a.graph.Has (param i) → ∃ r, c.locs[param i]? = some (.reg r) := by
  -- One register for two values that are needed together.
  have htest : (fullFunc.analyze fullVars).toOption.any (fun a =>
      decide ((run fullVars fullFunc a.graph (Affinity.ofFunc fullVars fullFunc) [Reg.t 2]).spills.map
        Spill.node = [0])) = true := by
    simp only [Func.analyze, Liveness.analyze_eq_solveList]
    decide +kernel
  obtain ⟨a, ha, hp⟩ := exists_ok_of_any htest
  have hown : ∀ s ∈ fullFunc.stmts, ∀ i, param i ∈ s.uses fullVars → i < fullFunc.params.length := by
    have hall : ∀ s ∈ fullFunc.stmts, ∀ u ∈ s.uses fullVars, ∀ i ∈ paramIndex? u,
        i < fullFunc.params.length := by decide +kernel
    exact fun s hs i hi => hall s hs _ hi i (paramIndex?_eq_some_iff.2 rfl)
  obtain ⟨_, c, rfl, herr, _, hparams, _, _⟩ := run_succeeds ha (by decide) hown
    (List.cons_ne_nil (Reg.t 2) []) (by decide) (by decide)
  exact ⟨a, ha, _, rfl, herr, of_decide_eq_true hp, hparams⟩

/-- A function without parameters that reads two of them. -/
def borrowingFunc : Func where
  name := "f"
  void := false
  temps := [0]
  stmts := [.binary (.temp 0) (.var 0) .add (.var 1), .ret (some (.temp 0))]

/-- The one register goes to the second parameter, which prefers none, and nothing is left for the
first. -/
theorem run_fails_borrowing : ∃ a, borrowingFunc.analyze fullVars = .ok a ∧
    borrowingFunc.params.length ≤ 8 ∧ [Reg.a 0] ≠ [] ∧ [Reg.a 0].Nodup ∧ (∀ r ∈ [Reg.a 0], r.Valid) ∧
    (run fullVars borrowingFunc a.graph (Affinity.ofFunc fullVars borrowingFunc) [Reg.a 0]).error =
      some (.noRegister "f" (param 0)) := by
  have htest : (borrowingFunc.analyze fullVars).toOption.any (fun a =>
      decide ((run fullVars borrowingFunc a.graph (Affinity.ofFunc fullVars borrowingFunc)
        [Reg.a 0]).error = some (.noRegister "f" (param 0)))) = true := by
    simp only [Func.analyze, Liveness.analyze_eq_solveList]
    decide +kernel
  obtain ⟨a, ha, hp⟩ := exists_ok_of_any htest
  exact ⟨a, ha, by decide, by decide, by decide, by decide, of_decide_eq_true hp⟩

end Coloring

end Tac
