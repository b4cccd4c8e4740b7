import Mathlib
import Tac.Interference
import Tac.Proofs.Liveness

/-!
# The interference graph

A graph is built by joining the members of live sets and then taken apart node by node.  Proofs see
it through three relations: which nodes it has, which are adjacent, and which were parted when one
of them left.

* **`Undirected`** — adjacency is symmetric and between different present nodes; adding nodes and
  edges keeps this whatever left before.
* **`Growing`** — graphs under construction, from which nothing has left.  `adj_build`, `has_build` say
  exactly which nodes and edges the built graph has.
* **`adj_remove`, `parted_remove`** — what taking a node out does to the relations.  An edge never
  gets lost: it moves from adjacent to parted (`adj_or_parted_remove`).
* **`Bare`** — absent nodes have no present neighbours, so that once all have left every edge is
  remembered as parted (`parted_of_empty`).
-/

namespace Tac.Graph

/-- The node is present. -/
def Has (g : Graph) (u : VReg) : Prop := g.nodes.contains u = true

/-- The second node is a present neighbour of the first. -/
def Adj (g : Graph) (u v : VReg) : Prop := (g.neighbours u).contains v = true

/-- The first node lost the second as a neighbour when one of them left. -/
def Parted (g : Graph) (u v : VReg) : Prop := (g.lost u).contains v = true

/-- Writing one entry leaves the others as they are. -/
theorem getD_insert {β : Type} (m : Std.TreeMap Nat β) (k j : Nat) (x d : β) :
    (m.insert k x).getD j d = if k = j then x else m.getD j d := by
  simp only [Std.TreeMap.getD_insert, Std.LawfulEqCmp.compare_eq_iff_eq]

/-! ## Construction -/

/-- Adjacency is symmetric and between different present nodes. -/
structure Undirected (g : Graph) : Prop where
  symm : ∀ {u v}, g.Adj u v → g.Adj v u
  has_of_adj : ∀ {u v}, g.Adj u v → g.Has u
  irrefl : ∀ {u}, ¬ g.Adj u u

/-- A graph under construction: nothing has left. -/
structure Growing (g : Graph) : Prop extends Undirected g where
  not_parted : ∀ {u v}, ¬ g.Parted u v

/-- The empty graph has grown from nothing. -/
theorem growing_empty : Growing empty := by
  have hadj : ∀ u v, ¬ empty.Adj u v := fun u v => by
    simp [Adj, neighbours, empty]
  have hpart : ∀ u v, ¬ empty.Parted u v := fun u v => by
    simp [Parted, lost, empty]
  exact ⟨⟨fun h => absurd h (hadj _ _), fun h => absurd h (hadj _ _), hadj _ _⟩, hpart _ _⟩

/-- Adding a node adds that node. -/
theorem has_addNode (g : Graph) (u v : VReg) : (g.addNode u).Has v ↔ v = u ∨ g.Has v := by
  unfold addNode
  split
  · next h =>
    constructor
    · exact Or.inr
    · rintro (rfl | hv)
      · exact h
      · exact hv
  · simp [Has]

/-- A new node has no edges, and an absent node had none either, so adding changes no edge. -/
theorem Undirected.adj_addNode {g : Graph} (hg : g.Undirected) (u v w : VReg) :
    (g.addNode u).Adj v w ↔ g.Adj v w := by
  unfold addNode
  split
  · rfl
  · next h =>
    by_cases huv : u = v
    · subst huv
      have hnone : ¬ g.Adj u w := fun ha => h (hg.has_of_adj ha)
      simp [Adj, neighbours] at hnone ⊢
      exact hnone
    · simp only [Adj, neighbours, getD_insert, if_neg huv]

/-- A node that is added forgets what it lost when it was there before. -/
theorem parted_addNode (g : Graph) (u v w : VReg) :
    (g.addNode u).Parted v w ↔ g.Parted v w ∧ (v = u → g.Has u) := by
  unfold addNode
  split
  · next h => exact ⟨fun hp => ⟨hp, fun _ => h⟩, And.left⟩
  · next h =>
    have hnot : ¬ g.Has u := h
    by_cases huv : u = v
    · subst huv
      simp [Parted, lost, hnot]
    · have hvu : ¬ v = u := Ne.symm huv
      simp only [Parted, lost, getD_insert, if_neg huv, hvu, false_implies, and_true]

/-- Adding a node keeps the graph undirected. -/
theorem Undirected.addNode {g : Graph} (hg : g.Undirected) (u : VReg) : (g.addNode u).Undirected := by
  refine ⟨fun h => ?_, fun h => ?_, fun h => ?_⟩
  · rw [hg.adj_addNode] at h ⊢
    exact hg.symm h
  · rw [hg.adj_addNode] at h
    exact (has_addNode _ _ _).2 (Or.inr (hg.has_of_adj h))
  · rw [hg.adj_addNode] at h
    exact hg.irrefl h

/-- What joining two different nodes adds. -/
structure Joins (g g' : Graph) (a b : VReg) : Prop where
  undirected : g'.Undirected
  has_iff : ∀ u, g'.Has u ↔ g.Has u ∨ u = a ∨ u = b
  adj_iff : ∀ u v, g'.Adj u v ↔ g.Adj u v ∨ (u = a ∧ v = b) ∨ (u = b ∧ v = a)

/-- One more edge between different nodes, in both directions, leaves a graph undirected. -/
theorem Undirected.joins {g g' : Graph} (hg : g.Undirected) {a b : VReg} (hab : a ≠ b)
    (hhas : ∀ u, g'.Has u ↔ g.Has u ∨ u = a ∨ u = b)
    (hadj : ∀ u v, g'.Adj u v ↔ g.Adj u v ∨ (u = a ∧ v = b) ∨ (u = b ∧ v = a)) :
    Joins g g' a b := by
  -- Symmetry, the ends of edges as nodes, and no loops.
  refine ⟨⟨fun {u v} h => ?_, fun {u v} h => ?_, fun {u} h => ?_⟩, hhas, hadj⟩
  · rw [hadj] at h ⊢
    rcases h with h | ⟨rfl, rfl⟩ | ⟨rfl, rfl⟩
    · exact Or.inl (hg.symm h)
    · exact Or.inr (Or.inr ⟨rfl, rfl⟩)
    · exact Or.inr (Or.inl ⟨rfl, rfl⟩)
  · rw [hadj] at h
    refine (hhas u).2 ?_
    rcases h with h | ⟨rfl, _⟩ | ⟨rfl, _⟩
    · exact Or.inl (hg.has_of_adj h)
    · exact Or.inr (Or.inl rfl)
    · exact Or.inr (Or.inr rfl)
  · rw [hadj] at h
    rcases h with h | ⟨h1, h2⟩ | ⟨h1, h2⟩
    · exact hg.irrefl h
    · exact hab (h1.symm.trans h2)
    · exact hab (h2.symm.trans h1)

/-- An edge joins its two ends and adds them. -/
theorem Undirected.joins_addEdge {g : Graph} (hg : g.Undirected) {a b : VReg} (hab : a ≠ b) :
    Joins g (g.addEdge a b) a b := by
  have hg' : ((g.addNode a).addNode b).Undirected := (hg.addNode a).addNode b
  have hhas : ∀ u, ((g.addNode a).addNode b).Has u ↔ g.Has u ∨ u = a ∨ u = b := by
    intro u
    rw [has_addNode, has_addNode]
    grind
  have hadj : ∀ u v, ((g.addNode a).addNode b).Adj u v ↔ g.Adj u v := by
    intro u v
    rw [(hg.addNode a).adj_addNode, hg.adj_addNode]
  unfold addEdge
  rw [if_neg hab]
  simp only
  split
  · next h =>
    -- the edge is there already, in both directions
    refine hg.joins hab hhas fun u v => ?_
    rw [hadj]
    constructor
    · exact Or.inl
    · rintro (h' | ⟨rfl, rfl⟩ | ⟨rfl, rfl⟩)
      · exact h'
      · exact (hadj _ _).1 h
      · exact hg.symm ((hadj _ _).1 h)
  · generalize hG : (g.addNode a).addNode b = G at hg' hhas hadj
    refine hg.joins hab hhas fun u v => ?_
    rw [← hadj]
    simp only [Adj, neighbours, getD_insert]
    -- the edge is written at `a` first and at `b` on top of that, so `b` is looked up first
    by_cases hub : b = u
    · subst hub
      rw [if_pos rfl, if_neg hab, BitSet.contains_insert]
      simp [Ne.symm hab]
      grind
    · rw [if_neg hub]
      by_cases hua : a = u
      · subst hua
        rw [if_pos rfl, BitSet.contains_insert]
        simp [hab]
        grind
      · rw [if_neg hua]
        simp [Ne.symm hua, Ne.symm hub]

section AddEdge

variable {g : Graph} (hg : g.Undirected) (a b : VReg)

theorem addEdge_self (g : Graph) (a : VReg) : g.addEdge a a = g := by simp [Graph.addEdge]

include hg

/-- Adding an edge keeps the graph undirected. -/
theorem Undirected.addEdge : (g.addEdge a b).Undirected := by
  by_cases hab : a = b
  · rwa [hab, addEdge_self]
  · exact (hg.joins_addEdge hab).undirected

/-- Adding an edge to a node that is there adds its other end. -/
theorem Undirected.has_addEdge (ha : g.Has a) (u : VReg) :
    (g.addEdge a b).Has u ↔ g.Has u ∨ u = b := by
  by_cases hab : a = b
  · subst hab
    rw [addEdge_self, or_iff_left_of_imp]
    rintro rfl
    exact ha
  · rw [(hg.joins_addEdge hab).has_iff, or_left_comm, or_iff_right_of_imp]
    rintro rfl
    exact Or.inl ha

/-- A node is never joined with itself. -/
theorem Undirected.adj_addEdge (u v : VReg) : (g.addEdge a b).Adj u v ↔
    g.Adj u v ∨ u ≠ v ∧ (u = a ∧ v = b ∨ v = a ∧ u = b) := by
  -- No edge joins a node to itself.
  by_cases hab : a = b
  · subst hab
    rw [addEdge_self, or_iff_left_of_imp]
    rintro ⟨hne, ⟨rfl, rfl⟩ | ⟨rfl, rfl⟩⟩
    all_goals exact absurd rfl hne
  · rw [(hg.joins_addEdge hab).adj_iff]
    refine or_congr Iff.rfl ⟨?_, ?_⟩
    · rintro (⟨rfl, rfl⟩ | ⟨rfl, rfl⟩)
      · exact ⟨hab, Or.inl ⟨rfl, rfl⟩⟩
      · exact ⟨Ne.symm hab, Or.inr ⟨rfl, rfl⟩⟩
    · rintro ⟨-, h | h⟩
      · exact Or.inl h
      · exact Or.inr h.symm

end AddEdge

/-- Joining two nodes parts none. -/
theorem parted_addEdge (g : Graph) {a b : VReg} (hab : a ≠ b) (u v : VReg) :
    (g.addEdge a b).Parted u v ↔ ((g.addNode a).addNode b).Parted u v := by
  unfold addEdge
  rw [if_neg hab]
  simp only
  split <;> rfl

/-- What adding the listed nodes and edges between them keeps holds when all of them are joined. -/
theorem joinAll_induct {P : Graph → Prop} {us : List VReg} (hnode : ∀ g, ∀ u ∈ us, P g → P (g.addNode u))
    (hedge : ∀ g, ∀ a ∈ us, ∀ b ∈ us, P g → P (g.addEdge a b)) {g : Graph} (hg : P g) :
    P (g.joinAll us) := by
  have hedges : ∀ a ∈ us, ∀ vs ⊆ us, ∀ g, P g → P (vs.foldl (fun g b => g.addEdge a b) g) := by
    intro a ha vs
    -- On the nodes not joined yet, and for each of them on those it is joined with.
    induction vs with
    | nil => exact fun _ _ hg => hg
    | cons b vs ih =>
      intro hsub g hg
      obtain ⟨hb, hvs⟩ := List.cons_subset.1 hsub
      exact ih hvs _ (hedge g a ha b hb hg)
  have hall : ∀ vs ⊆ us, ∀ g, P g → P (g.joinAll vs) := by
    intro vs
    induction vs with
    | nil => exact fun _ _ hg => hg
    | cons a vs ih =>
      intro hsub g hg
      obtain ⟨ha, hvs⟩ := List.cons_subset.1 hsub
      exact ih hvs _ (hedges a ha vs hvs _ (hnode g a ha hg))
  exact hall us (List.Subset.refl us) g hg

theorem Growing.addNode {g : Graph} (hg : g.Growing) (u : VReg) : (g.addNode u).Growing :=
  ⟨hg.toUndirected.addNode u, fun h => hg.not_parted ((parted_addNode g u _ _).1 h).1⟩

/-- A graph that grew may grow by an edge. -/
theorem Growing.addEdge {g : Graph} (hg : g.Growing) (a b : VReg) : (g.addEdge a b).Growing := by
  refine ⟨hg.toUndirected.addEdge a b, fun {u v} h => ?_⟩
  by_cases hab : a = b
  · rw [Graph.addEdge, if_pos hab] at h
    exact hg.not_parted h
  · exact ((hg.addNode a).addNode b).not_parted ((parted_addEdge g hab u v).1 h)

theorem Growing.joinAll {g : Graph} (hg : g.Growing) (us : List VReg) : (g.joinAll us).Growing :=
  joinAll_induct (fun _ u _ h => h.addNode u) (fun _ a _ b _ h => h.addEdge a b) hg

/-- Joining one node with several. -/
theorem Undirected.foldl_addEdge {a : VReg} : ∀ (us : List VReg) {g : Graph}, g.Undirected → g.Has a →
    (us.foldl (fun g b => g.addEdge a b) g).Undirected ∧
      (∀ u, (us.foldl (fun g b => g.addEdge a b) g).Has u ↔ g.Has u ∨ u ∈ us) ∧
      ∀ u v, (us.foldl (fun g b => g.addEdge a b) g).Adj u v ↔
        g.Adj u v ∨ (u ≠ v ∧ ((u = a ∧ v ∈ us) ∨ (v = a ∧ u ∈ us))) := by
  intro us
  induction us with
  | nil =>
    intro g hg _
    exact ⟨hg, by simp, by simp⟩
  | cons b us ih =>
    intro g hg ha
    -- The first edge is added, then the others to the graph that has it.
    obtain ⟨h1, h2, h3⟩ := ih (hg.addEdge a b) ((hg.has_addEdge a b ha a).2 (Or.inl ha))
    refine ⟨h1, fun u => ?_, fun u v => ?_⟩
    · rw [List.foldl_cons, h2, hg.has_addEdge a b ha, List.mem_cons, or_assoc]
    · rw [List.foldl_cons, h3, hg.adj_addEdge, or_assoc, ← and_or_left, List.mem_cons, List.mem_cons]
      grind

/-- Joining every two of the listed nodes. -/
theorem Undirected.joinAll : ∀ (us : List VReg) {g : Graph}, g.Undirected →
    (g.joinAll us).Undirected ∧ (∀ u, (g.joinAll us).Has u ↔ g.Has u ∨ u ∈ us) ∧
      ∀ u v, (g.joinAll us).Adj u v ↔ g.Adj u v ∨ (u ≠ v ∧ u ∈ us ∧ v ∈ us) := by
  intro us
  -- On the nodes of the clique; the ones before have been joined with each other already.
  induction us with
  | nil =>
    intro g hg
    exact ⟨hg, by simp [Graph.joinAll], by simp [Graph.joinAll]⟩
  | cons a us ih =>
    intro g hg
    rw [Graph.joinAll]
    -- `a` with all of the rest, and then the rest among themselves
    obtain ⟨hfold, hfhas, hfadj⟩ := Undirected.foldl_addEdge (a := a) us (hg.addNode a)
      ((has_addNode g a a).2 (Or.inl rfl))
    obtain ⟨h1, h2, h3⟩ := ih hfold
    refine ⟨h1, fun u => ?_, fun u v => ?_⟩
    · rw [h2, hfhas, has_addNode, List.mem_cons]
      grind
    · rw [h3, hfadj, hg.adj_addNode, List.mem_cons, List.mem_cons]
      constructor
      · rintro ((h | ⟨hne, ⟨rfl, hv⟩ | ⟨rfl, hu⟩⟩) | ⟨hne, hu, hv⟩)
        · exact Or.inl h
        · exact Or.inr ⟨hne, Or.inl rfl, Or.inr hv⟩
        · exact Or.inr ⟨hne, Or.inr hu, Or.inl rfl⟩
        · exact Or.inr ⟨hne, Or.inr hu, Or.inr hv⟩
      · rintro (h | ⟨hne, rfl | hu, rfl | hv⟩)
        · exact Or.inl (Or.inl h)
        · exact absurd rfl hne
        · exact Or.inl (Or.inr ⟨hne, Or.inl ⟨rfl, hv⟩⟩)
        · exact Or.inl (Or.inr ⟨hne, Or.inr ⟨rfl, hu⟩⟩)
        · exact Or.inr ⟨hne, hu, hv⟩

/-- The cliques of a list of statements. -/
theorem Growing.foldl_clique (live : Nat → BitSet) : ∀ (is : List Nat) {g : Graph}, g.Growing →
    (is.foldl (fun g i => g.clique (live i)) g).Growing ∧
      (∀ u, (is.foldl (fun g i => g.clique (live i)) g).Has u ↔
        g.Has u ∨ ∃ i ∈ is, (live i).contains u = true) ∧
      ∀ u v, (is.foldl (fun g i => g.clique (live i)) g).Adj u v ↔
        g.Adj u v ∨ (u ≠ v ∧ ∃ i ∈ is, (live i).contains u = true ∧ (live i).contains v = true) := by
  intro is
  induction is with
  | nil =>
    intro g hg
    exact ⟨hg, by simp, by simp⟩
  | cons i is ih =>
    intro g hg
    rw [List.foldl_cons]
    -- The clique of the first statement is built, then the others on top of it.
    obtain ⟨-, hchas, hcadj⟩ := Undirected.joinAll (live i).toList hg.toUndirected
    obtain ⟨h1, h2, h3⟩ := ih (g := g.clique (live i)) (hg.joinAll _)
    refine ⟨h1, fun u => ?_, fun u v => ?_⟩
    · rw [h2, clique, hchas, BitSet.mem_toList, List.exists_mem_cons_iff, or_assoc]
    · rw [h3, clique, hcadj, BitSet.mem_toList, BitSet.mem_toList, List.exists_mem_cons_iff,
        and_or_left, or_assoc]

section Build

variable (live : Liveness) (reachable : BitSet)

theorem growing_build : (build live reachable).Growing :=
  (Growing.foldl_clique live.liveAt reachable.toList growing_empty).1

/-- The nodes are the registers live before some reachable statement. -/
theorem has_build (u : VReg) : (build live reachable).Has u ↔
    ∃ i, reachable.contains i = true ∧ (live.liveAt i).contains u = true := by
  have h := (Growing.foldl_clique live.liveAt reachable.toList growing_empty).2.1 u
  have hnone : ¬ empty.Has u := by simp [Has, empty]
  rw [build, h]
  simp only [hnone, false_or, BitSet.mem_toList]

/-- The edges join the registers live together before some reachable statement. -/
theorem adj_build (u v : VReg) : (build live reachable).Adj u v ↔
    u ≠ v ∧ ∃ i, reachable.contains i = true ∧ (live.liveAt i).contains u = true ∧
      (live.liveAt i).contains v = true := by
  have h := (Growing.foldl_clique live.liveAt reachable.toList growing_empty).2.2 u v
  have hnone : ¬ empty.Adj u v := fun ha => by simp [Adj, neighbours, empty] at ha
  rw [build, h]
  simp only [hnone, false_or, BitSet.mem_toList]

end Build

/-! ## Taking nodes out -/

/-- Absent nodes have no present neighbours. -/
def Bare (g : Graph) : Prop := ∀ u v, g.Adj u v → g.Has u

theorem Growing.bare {g : Graph} (hg : g.Growing) : g.Bare := fun _ _ h => hg.has_of_adj h

/-- Moving the edges to `u` of the listed nodes. -/
theorem foldl_detach (u : VReg) : ∀ (vs : List VReg) (g : Graph),
    (vs.foldl (detach u) g).nodes = g.nodes ∧
      (∀ v w, (vs.foldl (detach u) g).Adj v w ↔ g.Adj v w ∧ ¬ (v ∈ vs ∧ w = u)) ∧
      ∀ v w, (vs.foldl (detach u) g).Parted v w ↔ g.Parted v w ∨ (v ∈ vs ∧ w = u) := by
  intro vs
  -- On the neighbours that still point at the node.
  induction vs with
  | nil => intro g; simp
  | cons x vs ih =>
    intro g
    rw [List.foldl_cons]
    -- each round takes one edge from the adjacent pairs and adds it to the parted ones
    obtain ⟨hn, hadj, hpart⟩ := ih (detach u g x)
    refine ⟨hn, fun v w => ?_, fun v w => ?_⟩
    · have hone : (detach u g x).Adj v w ↔ g.Adj v w ∧ ¬ (v = x ∧ w = u) := by
        simp only [detach, Adj, neighbours, getD_insert]
        by_cases hxv : x = v
        · subst hxv
          rw [if_pos rfl, BitSet.contains_erase]
          simp
          grind
        · have hvx : ¬ v = x := fun h => hxv h.symm
          simp [hxv, hvx]
      rw [hadj, hone, List.mem_cons]
      grind
    · have hone : (detach u g x).Parted v w ↔ g.Parted v w ∨ (v = x ∧ w = u) := by
        simp only [detach, Parted, lost, getD_insert]
        by_cases hxv : x = v
        · subst hxv
          rw [if_pos rfl, BitSet.contains_insert]
          simp
          grind
        · have hvx : ¬ v = x := fun h => hxv h.symm
          simp [hxv, hvx]
      rw [hpart, hone, List.mem_cons]
      grind

section Remove

variable {g : Graph} {u : VReg}

/-- Removing a node detaches its neighbours and erases it. -/
theorem remove_eq (hu : g.Has u) :
    g.remove u =
      { nodes := ((g.neighbours u).toList.foldl (detach u) g).nodes.erase u
        edges := ((g.neighbours u).toList.foldl (detach u) g).edges.insert u BitSet.empty
        removed := ((g.neighbours u).toList.foldl (detach u) g).removed.insert u
          ((((g.neighbours u).toList.foldl (detach u) g).lost u).union (g.neighbours u))
        deg := ((g.neighbours u).toList.foldl (detach u) g).deg.insert u 0 } := by
  unfold Has at hu
  unfold remove remove?
  rw [if_pos hu]
  rfl

/-- Removing a node takes that node away. -/
theorem has_remove (hu : g.Has u) (v : VReg) : (g.remove u).Has v ↔ v ≠ u ∧ g.Has v := by
  rw [remove_eq hu]
  simp only [Has, (foldl_detach u _ g).1, BitSet.contains_erase]
  simp

/-- Removing a node takes away its edges, from both ends. -/
theorem adj_remove (hu : g.Has u) (v w : VReg) :
    (g.remove u).Adj v w ↔ v ≠ u ∧ g.Adj v w ∧ ¬ (g.Adj u v ∧ w = u) := by
  have h := (foldl_detach u (g.neighbours u).toList g).2.1 v w
  rw [remove_eq hu]
  simp only [Adj, neighbours, getD_insert] at h ⊢
  by_cases hv : u = v
  · subst hv
    simp
  · rw [if_neg hv, h]
    simp [Ne.symm hv, BitSet.mem_toList]

/-- The edges that are lost with a node are remembered as parted. -/
theorem parted_remove (hu : g.Has u) (v w : VReg) :
    (g.remove u).Parted v w ↔ g.Parted v w ∨ (g.Adj u v ∧ w = u) ∨ (v = u ∧ g.Adj u w) := by
  have h := (foldl_detach u (g.neighbours u).toList g).2.2 v w
  rw [remove_eq hu]
  simp only [Parted, Adj, lost, neighbours, getD_insert, BitSet.mem_toList] at h ⊢
  by_cases hv : u = v
  · subst hv
    -- `u` itself keeps what it had lost and loses all present neighbours
    rw [if_pos rfl, BitSet.contains_union, Bool.or_eq_true, h, or_assoc]
    simp only [true_and]
  · have hvu : ¬ v = u := fun h => hv h.symm
    rw [if_neg hv, h]
    simp [hvu]

/-- With edges that go both ways, those left are the ones away from the node taken out. -/
theorem Undirected.adj_remove (hg : g.Undirected) (hu : g.Has u) (v w : VReg) :
    (g.remove u).Adj v w ↔ g.Adj v w ∧ v ≠ u ∧ w ≠ u := by
  rw [Graph.adj_remove hu]
  constructor
  · rintro ⟨hv, hvw, hnot⟩
    refine ⟨hvw, hv, ?_⟩
    rintro rfl
    exact hnot ⟨hg.symm hvw, rfl⟩
  · rintro ⟨hvw, hv, hw⟩
    exact ⟨hv, hvw, fun h => hw h.2⟩

/-- The edges at the node taken out become parted pairs, at both ends. -/
theorem Undirected.parted_remove (hg : g.Undirected) (hu : g.Has u) (v w : VReg) :
    (g.remove u).Parted v w ↔ g.Parted v w ∨ (g.Adj v w ∧ (v = u ∨ w = u)) := by
  rw [Graph.parted_remove hu]
  constructor
  · rintro (h | ⟨h, rfl⟩ | ⟨rfl, h⟩)
    · exact Or.inl h
    · exact Or.inr ⟨hg.symm h, Or.inr rfl⟩
    · exact Or.inr ⟨h, Or.inl rfl⟩
  · rintro (h | ⟨h, rfl | rfl⟩)
    · exact Or.inl h
    · exact Or.inr (Or.inr ⟨rfl, h⟩)
    · exact Or.inr (Or.inl ⟨hg.symm h, rfl⟩)

/-- Removing a node keeps the graph undirected. -/
theorem Undirected.remove (hg : g.Undirected) (hu : g.Has u) : (g.remove u).Undirected := by
  refine ⟨fun {v w} h => ?_, fun {v w} h => ?_, fun {v} h => ?_⟩
  · rw [hg.adj_remove hu] at h ⊢
    exact ⟨hg.symm h.1, h.2.2, h.2.1⟩
  · rw [hg.adj_remove hu] at h
    exact (has_remove hu v).2 ⟨h.2.1, hg.has_of_adj h.1⟩
  · rw [hg.adj_remove hu] at h
    exact hg.irrefl h.1

/-- An edge is never lost: it is kept, or remembered as parted. -/
theorem adj_or_parted_remove (hu : g.Has u) {v w : VReg} (h : g.Adj v w ∨ g.Parted v w) :
    (g.remove u).Adj v w ∨ (g.remove u).Parted v w := by
  rw [adj_remove hu, parted_remove hu]
  rcases h with h | h
  · by_cases hv : v = u
    · subst hv
      exact Or.inr (Or.inr (Or.inr ⟨rfl, h⟩))
    · by_cases hw : g.Adj u v ∧ w = u
      · exact Or.inr (Or.inr (Or.inl hw))
      · exact Or.inl ⟨hv, h, hw⟩
  · exact Or.inr (Or.inl h)

/-- Removing a node leaves no neighbour that is not a node. -/
theorem Bare.remove (hg : g.Bare) (hu : g.Has u) : (g.remove u).Bare := by
  intro v w h
  rw [adj_remove hu] at h
  exact (has_remove hu v).2 ⟨h.1, hg v w h.2.1⟩

/-- Taking a node out leaves one node less. -/
theorem size_remove (hu : g.Has u) : (g.remove u).size + 1 = g.size := by
  rw [size, size, remove_eq hu]
  simp only [(foldl_detach u _ g).1]
  exact BitSet.size_erase _ _ hu

end Remove

/-- Once all nodes have left, every edge is remembered on both ends. -/
theorem parted_of_empty {g : Graph} (hg : g.Bare) (hempty : ∀ u, ¬ g.Has u) {v w : VReg}
    (h : g.Adj v w ∨ g.Parted v w) : g.Parted v w := by
  rcases h with h | h
  · exact absurd (hg v w h) (hempty v)
  · exact h

theorem size_eq_zero_iff (g : Graph) : g.size = 0 ↔ ∀ u, ¬ g.Has u := by
  rw [size, BitSet.size_eq_length, List.length_eq_zero_iff, BitSet.isEmpty_toList_iff]
  simp [Has]

end Tac.Graph
