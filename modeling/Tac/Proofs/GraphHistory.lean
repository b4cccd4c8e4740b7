import Mathlib
import Tac.Session.Graphs
import Tac.Proofs.Colorable
import Tac.Proofs.FiniteSets

/-!
# What a graph remembers

A graph that grows and shrinks by requests keeps four things that depend on each other: its nodes, the
present neighbours, the lost ones and the degrees.  Nothing in the graph tells what was asked for, so
the statements here compare it with the list of requests itself.

* **`Graph.Grows`** — what adding nodes and edges does to the relations of a graph.
* **`Session.handleGraph_induct`** — what adding a node, adding an edge and taking a node out keep
  holds after any request, whatever was asked before.
* **`Session.Recalls`** — the graph as a function of the requests, when no node comes back after it
  left: the edges are the pairs joined so far, present or lost by who is still there.
* **`Session.graphAfter_consistent`** — both, for every list of requests.
-/

namespace Tac.Graph

/-- The four parts of a graph fit together. -/
structure Consistent (g : Graph) : Prop where
  symm : ∀ u v, g.Adj u v → g.Adj v u
  irrefl : ∀ u, ¬ g.Adj u u
  present : ∀ u v, g.Adj u v → g.Has u ∧ g.Has v
  degree_eq : ∀ u, g.degree u = (g.neighbours u).toList.length
  degree_absent : ∀ u, ¬ g.Has u → g.degree u = 0

/-- An undirected graph that counts its neighbours right is consistent in the sense of its
readers. -/
theorem Undirected.consistent {g : Graph} (hg : g.Undirected) (hc : g.Counted) : g.Consistent where
  symm _ _ h := hg.symm h
  irrefl _ h := hg.irrefl h
  present _ _ h := ⟨hg.has_of_adj h, hg.has_of_adj (hg.symm h)⟩
  degree_eq u := by rw [hc u, BitSet.size_eq_length]
  degree_absent u hu := by
    rw [hc u]
    apply BitSet.size_eq_zero
    exact fun v => Bool.eq_false_of_not_eq_true fun h => hu (hg.has_of_adj h)

/-- Two nodes interfere when they are adjacent or were. -/
theorem interferes_iff (g : Graph) (a b : VReg) :
    g.interferes a b = true ↔ g.Adj a b ∨ g.Parted a b := by
  rw [interferes, Bool.or_eq_true]
  rfl

/-! ## Growing on -/

/-- The second graph is the first one with nodes and edges added.  A node that is there keeps what it
lost; one that comes back forgets it. -/
structure Grows (g g' : Graph) (adds : VReg → Prop) (joins : VReg → VReg → Prop) : Prop where
  has_iff : ∀ u, g'.Has u ↔ g.Has u ∨ adds u
  adj_iff : ∀ u v, g'.Adj u v ↔ g.Adj u v ∨ joins u v
  parted_of : ∀ u v, g'.Parted u v → g.Parted u v
  keeps : ∀ u v, g.Parted u v → (adds u → g.Has u) → g'.Parted u v

section Grows

variable {g g' : Graph} {adds adds' : VReg → Prop} {joins joins' : VReg → VReg → Prop}

theorem Grows.refl (g : Graph) : Grows g g (fun _ => False) fun _ _ => False where
  has_iff _ := by simp
  adj_iff _ _ := by simp
  parted_of _ _ h := h
  keeps _ _ h _ := h

/-- What was added and joined may be described in another way. -/
theorem Grows.congr (h : Grows g g' adds joins) (hadds : ∀ u, adds u ↔ adds' u)
    (hjoins : ∀ u v, joins u v ↔ joins' u v) : Grows g g' adds' joins' where
  has_iff u := by rw [h.has_iff, hadds]
  adj_iff u v := by rw [h.adj_iff, hjoins]
  parted_of := h.parted_of
  keeps u v hp hu := h.keeps u v hp fun ha => hu ((hadds u).1 ha)

/-- Adding a node adds that node and joins nothing. -/
theorem Undirected.grows_addNode (hg : g.Undirected) (a : VReg) :
    Grows g (g.addNode a) (· = a) fun _ _ => False where
  has_iff u := by rw [has_addNode, or_comm]
  adj_iff u v := by rw [hg.adj_addNode, or_false]
  parted_of u v h := ((parted_addNode g a u v).1 h).1
  keeps u v hp hu := (parted_addNode g a u v).2 ⟨hp, fun h => h ▸ hu h⟩

/-- Adding an edge adds its two nodes and joins them both ways. -/
theorem Undirected.grows_addEdge (hg : g.Undirected) {a b : VReg} (hab : a ≠ b) :
    Grows g (g.addEdge a b) (fun u => u = a ∨ u = b)
      fun u v => (u = a ∧ v = b) ∨ (u = b ∧ v = a) where
  has_iff := (hg.joins_addEdge hab).has_iff
  adj_iff := (hg.joins_addEdge hab).adj_iff
  -- An edge parts nobody.
  parted_of u v h := by
    rw [parted_addEdge g hab, parted_addNode, parted_addNode] at h
    exact h.1.1
  keeps u v hp hu := by
    rw [parted_addEdge g hab, parted_addNode, parted_addNode]
    refine ⟨⟨hp, ?_⟩, ?_⟩
    · rintro rfl
      exact hu (Or.inl rfl)
    · rintro rfl
      exact (has_addNode g a u).2 (Or.inr (hu (Or.inr rfl)))

/-- Joining all the nodes of a list adds them and joins every two that differ. Whatever
was joined and lost before stays lost. -/
theorem Undirected.grows_joinAll (hg : g.Undirected) (us : List VReg) :
    Grows g (g.joinAll us) (· ∈ us) fun u v => u ≠ v ∧ u ∈ us ∧ v ∈ us := by
  obtain ⟨-, hhas, hadj⟩ := Undirected.joinAll us hg
  -- what was lost is kept by each of the single additions, since a listed node stays once it is there
  let P : Graph → Prop := fun G => G.Undirected ∧ (∀ u, g.Has u → G.Has u) ∧
    (∀ u v, G.Parted u v → g.Parted u v) ∧
      ∀ u v, g.Parted u v → (u ∈ us → g.Has u) → G.Parted u v
  have hgrow : ∀ {G G' : Graph} {adds : VReg → Prop} {joins : VReg → VReg → Prop}, G'.Undirected →
      Grows G G' adds joins → (∀ u, adds u → u ∈ us) → P G → P G' := by
    rintro G G' adds joins hG' hGG' hsub ⟨-, hhas, hof, hkeep⟩
    refine ⟨hG', fun u hu => (hGG'.has_iff u).2 (Or.inl (hhas u hu)),
      fun u v h => hof u v (hGG'.parted_of u v h), fun u v hp hu => ?_⟩
    apply hGG'.keeps u v (hkeep u v hp hu)
    exact fun ha => hhas u (hu (hsub u ha))
  have hall : P (g.joinAll us) := by
    refine joinAll_induct (fun G a ha hP => ?_) (fun G a ha b hb hP => ?_)
      ⟨hg, fun _ h => h, fun _ _ h => h, fun _ _ h _ => h⟩
    · refine hgrow (hP.1.addNode a) (hP.1.grows_addNode a) ?_ hP
      rintro u rfl
      exact ha
    · by_cases hab : a = b
      · rwa [Graph.addEdge, if_pos hab]
      · refine hgrow (hP.1.addEdge a b) (hP.1.grows_addEdge hab) ?_ hP
        rintro u (rfl | rfl)
        · exact ha
        · exact hb
  exact ⟨hhas, hadj, hall.2.2.1, hall.2.2.2⟩

end Grows

end Tac.Graph

namespace Tac.Session

open Tac.Graph (Grows Consistent Undirected Counted)

/-! ## Requests and what they ask for -/

/-- The graph after requests on an empty one. -/
def graphAfter (rs : List GraphRequest) : Graph :=
  rs.foldl (fun g r => (handleGraph g r).1) Graph.empty

/-- The request adds the node, or finds it there.  A request with a negative node is refused as a
whole, but for an edge from a node to a negative one. -/
def GraphRequest.Adds : GraphRequest → VReg → Prop
  | .node a, u => a = u
  | .edge a b, u => a ≠ b ∧ (a = u ∨ 0 ≤ a ∧ b = u)
  | .clique us, u => (∀ a ∈ us, 0 ≤ a) ∧ (u : Int) ∈ us
  | .remove _, _ | .degree _, _ | .interferes .., _ | .removed _, _ => False

/-- The request joins the two nodes. -/
def GraphRequest.Joins : GraphRequest → VReg → VReg → Prop
  | .edge a b, u, v => u ≠ v ∧ (a = u ∧ b = v ∨ a = v ∧ b = u)
  | .clique us, u, v => u ≠ v ∧ (∀ a ∈ us, 0 ≤ a) ∧ (u : Int) ∈ us ∧ (v : Int) ∈ us
  | .node _, _, _ | .remove _, _, _ | .degree _, _, _ | .interferes .., _, _ | .removed _, _, _ => False

/-- The node was added at some time. -/
def Added (rs : List GraphRequest) (u : VReg) : Prop := ∃ r ∈ rs, r.Adds u

/-- The two nodes were joined at some time. -/
def Joined (rs : List GraphRequest) (u v : VReg) : Prop := ∃ r ∈ rs, r.Joins u v

/-- The node was taken out after it had been added. -/
def Left (rs : List GraphRequest) (u : VReg) : Prop :=
  ∃ before after, rs = before ++ GraphRequest.remove u :: after ∧ Added before u

/-- No node is added again after it was taken out. -/
def NoReturn (rs : List GraphRequest) : Prop :=
  ∀ before r after u, rs = before ++ r :: after → r.Adds u → ¬ Left before u

/-! ## One request -/

/-- A negative number is refused when a node is to leave. -/
theorem handleGraph_remove (g : Graph) (a : Int) :
    (handleGraph g (.remove a)).1 = if 0 ≤ a then g.remove a.toNat else g := by
  rw [handleGraph, node?]
  split
  · next g' h =>
    split at h
    · next ha => rw [if_pos ha, Graph.remove, show g.remove? a.toNat = some g' from h, Option.getD_some]
    · cases h
  · next h =>
    split at h
    · next ha => rw [if_pos ha, Graph.remove, show g.remove? a.toNat = none from h, Option.getD_none]
    · next ha => rw [if_neg ha]

/-- Removing a node that is not there changes nothing. -/
theorem remove_absent {g : Graph} {u : VReg} (hu : ¬ g.Has u) : g.remove u = g := by
  unfold Graph.Has at hu
  rw [Graph.remove, Graph.remove?, if_neg hu, Option.getD_none]

/-- A clique is drawn only if none of its numbers is negative. -/
theorem handleGraph_clique (g : Graph) (us : List Int) :
    (handleGraph g (.clique us)).1 =
      if ∀ a ∈ us, 0 ≤ a then g.clique (addKeys BitSet.empty us).1 else g := by
  have hkeys := addKeys_snd BitSet.empty us
  rw [handleGraph]
  split
  · next s hs =>
    rw [hs] at hkeys ⊢
    rw [if_pos (hkeys.1 rfl)]
  · next s hs =>
    rw [hs] at hkeys
    rw [if_neg fun hall => absurd (hkeys.2 hall) Bool.false_ne_true]

/-- A refused request, and one that only asks, changes nothing. -/
theorem grows_of_idle (g : Graph) {r : GraphRequest} (hadds : ∀ u, ¬ r.Adds u)
    (hjoins : ∀ u v, ¬ r.Joins u v) : Grows g g r.Adds r.Joins :=
  (Grows.refl g).congr (fun u => iff_of_false id (hadds u)) fun u v => iff_of_false id (hjoins u v)

/-- A request for a node does what it says. -/
theorem grows_node {g : Graph} (hg : g.Undirected) (a : Int) :
    Grows g (handleGraph g (.node a)).1 (GraphRequest.node a).Adds (GraphRequest.node a).Joins := by
  cases a with
  | ofNat a =>
    refine (hg.grows_addNode a).congr (fun u => ?_) fun u v => Iff.rfl
    simp [GraphRequest.Adds, eq_comm]
  | negSucc a =>
    refine grows_of_idle g (fun u => ?_) fun u v => id
    simp only [GraphRequest.Adds]
    omega

/-- A request for an edge does what it says, also where it is refused halfway: the first
node may be added and the second not. -/
theorem grows_edge {g : Graph} (hg : g.Undirected) (a b : Int) :
    Grows g (handleGraph g (.edge a b)).1 (GraphRequest.edge a b).Adds
      (GraphRequest.edge a b).Joins := by
  by_cases hab : a = b
  · -- a node is never joined with itself
    rw [handleGraph, joinNodes, if_pos hab]
    refine grows_of_idle g (fun u => ?_) fun u v => ?_
    · simp [GraphRequest.Adds, hab]
    · rintro ⟨hne, h⟩
      exact hne (Int.natCast_inj.1 (by omega))
  rw [handleGraph, joinNodes, if_neg hab]
  -- Negative numbers are refused one after the other, so the signs are split in the order in
  -- which they are read.
  cases a with
  | negSucc a =>
    refine grows_of_idle g (fun u => ?_) fun u v => ?_
    · simp only [GraphRequest.Adds]
      omega
    · simp only [GraphRequest.Joins]
      omega
  | ofNat a =>
    cases b with
    | negSucc b =>
      -- the first node is added before the second is refused
      apply (hg.grows_addNode a).congr
      · intro u
        rw [GraphRequest.Adds, ← Int.natCast_inj, Int.ofNat_eq_natCast]
        omega
      · intro u v
        simp only [GraphRequest.Joins, false_iff]
        omega
    | ofNat b =>
      have hne : a ≠ b := fun h => hab (congrArg Int.ofNat h)
      apply (hg.grows_addEdge hne).congr
      · intro u
        simp only [GraphRequest.Adds, Int.ofNat_eq_natCast, ← @Int.natCast_inj u]
        omega
      · intro u v
        simp only [GraphRequest.Joins, Int.ofNat_eq_natCast, ne_eq, ← @Int.natCast_inj u,
          ← @Int.natCast_inj v]
        omega

/-- A request for a clique does what it says. -/
theorem grows_clique {g : Graph} (hg : g.Undirected) (us : List Int) :
    Grows g (handleGraph g (.clique us)).1 (GraphRequest.clique us).Adds
      (GraphRequest.clique us).Joins := by
  rw [handleGraph_clique]
  split
  · next hall =>
    have hmem : ∀ u, u ∈ (addKeys BitSet.empty us).1.toList ↔ (u : Int) ∈ us := by
      intro u
      rw [BitSet.mem_toList, contains_addKeys, mem_usable hall]
      simp
    apply (hg.grows_joinAll _).congr
    · intro u
      rw [hmem, GraphRequest.Adds, and_iff_right hall]
    · intro u v
      rw [hmem, hmem, GraphRequest.Joins, and_iff_right hall]
  -- A request with a negative node is refused and asks for nothing.
  · next hneg =>
    exact grows_of_idle g (fun u h => hneg h.1) fun u v h => hneg h.2.1

/-- What a request that takes nothing out does. -/
theorem grows_handleGraph {g : Graph} (hg : g.Undirected) (r : GraphRequest)
    (hr : ∀ a, r ≠ .remove a) : Grows g (handleGraph g r).1 r.Adds r.Joins := by
  cases r with
  | node a => exact grows_node hg a
  | edge a b => exact grows_edge hg a b
  | clique us => exact grows_clique hg us
  | remove a => exact absurd rfl (hr a)
  | degree | interferes => exact Grows.refl g
  | removed a =>
    rw [handleGraph]
    split <;> exact Grows.refl g

/-- What adding nodes and edges and taking nodes out keeps holds after any request. -/
theorem handleGraph_induct {P : Graph → Prop} (hnode : ∀ g u, P g → P (g.addNode u))
    (hedge : ∀ g a b, P g → P (g.addEdge a b)) (hremove : ∀ g u, g.Has u → P g → P (g.remove u))
    {g : Graph} (hg : P g) (r : GraphRequest) : P (handleGraph g r).1 := by
  -- Each request adds, removes, or only asks.
  cases r with
  | node a =>
    rw [handleGraph]
    split
    · exact hnode g _ hg
    · exact hg
  | edge a b =>
    rw [handleGraph, joinNodes]
    split
    · exact hg
    · split
      · exact hedge g _ _ hg
      · exact hnode g _ hg
      · exact hg
  | clique us =>
    rw [handleGraph_clique]
    split
    · exact Graph.joinAll_induct (fun g u _ => hnode g u) (fun g a _ b _ => hedge g a b) hg
    · exact hg
  | remove a =>
    rw [handleGraph_remove]
    split
    · by_cases ha : g.Has a.toNat
      · exact hremove g _ ha hg
      · rwa [remove_absent ha]
    · exact hg
  | degree | interferes => exact hg
  | removed a =>
    rw [handleGraph]
    split <;> exact hg

/-- After any requests the graph is undirected and counts its neighbours right. -/
theorem fitting_graphAfter (rs : List GraphRequest) :
    (graphAfter rs).Undirected ∧ (graphAfter rs).Counted := by
  have hfold : ∀ g : Graph, g.Undirected ∧ g.Counted →
      (rs.foldl (fun g r => (handleGraph g r).1) g).Undirected ∧
        (rs.foldl (fun g r => (handleGraph g r).1) g).Counted := by
    -- On the requests, from any graph that is so already.
    induction rs with
    | nil => exact fun _ hg => hg
    | cons r rs ih =>
      intro g hg
      apply ih
      refine handleGraph_induct (P := fun g => g.Undirected ∧ g.Counted) (fun g u h => ?_)
        (fun g a b h => ?_) (fun g u hu h => ?_) hg r
      · exact ⟨h.1.addNode u, h.2.addNode h.1 u⟩
      · exact ⟨h.1.addEdge a b, h.2.addEdge h.1 a b⟩
      · exact ⟨h.1.remove hu, h.2.remove h.1 hu⟩
  exact hfold _ ⟨Graph.growing_empty.toUndirected, Graph.counted_empty⟩

/-! ## The requests one by one -/

section History

variable {rs : List GraphRequest} {r : GraphRequest} {u v : VReg}

/-- The last request is handled last. -/
theorem graphAfter_concat (rs : List GraphRequest) (r : GraphRequest) :
    graphAfter (rs ++ [r]) = (handleGraph (graphAfter rs) r).1 := by
  rw [graphAfter, List.foldl_append]
  rfl

theorem added_concat : Added (rs ++ [r]) u ↔ Added rs u ∨ r.Adds u := by
  simp only [Added, List.mem_append, List.mem_singleton, or_and_right, exists_or, exists_eq_left]

theorem joined_concat : Joined (rs ++ [r]) u v ↔ Joined rs u v ∨ r.Joins u v := by
  simp only [Joined, List.mem_append, List.mem_singleton, or_and_right, exists_or, exists_eq_left]

/-- A request of a list with one more is the last one, or stands before it. -/
theorem split_concat {before after : List GraphRequest} {r' : GraphRequest}
    (h : rs ++ [r] = before ++ r' :: after) :
    (before = rs ∧ r' = r) ∨ ∃ after', rs = before ++ r' :: after' := by
  rcases List.eq_nil_or_concat after with rfl | ⟨after, last, rfl⟩
  · obtain ⟨hbefore, hlast⟩ := List.append_inj' h rfl
    exact Or.inl ⟨hbefore.symm, (List.singleton_inj.1 hlast).symm⟩
  · have h' : rs ++ [r] = (before ++ r' :: after) ++ [last] := by simpa using h
    exact Or.inr ⟨after, (List.append_inj' h' rfl).1⟩

/-- A node that left was told to. -/
theorem Left.mem (h : Left rs u) : GraphRequest.remove u ∈ rs := by
  obtain ⟨before, after, rfl, -⟩ := h
  simp

/-- The last request makes a node leave if it says so and the node had been added. -/
theorem left_concat : Left (rs ++ [r]) u ↔ Left rs u ∨ (r = .remove u ∧ Added rs u) := by
  constructor
  · rintro ⟨before, after, heq, hadd⟩
    rcases split_concat heq with ⟨rfl, hr⟩ | ⟨after', rfl⟩
    · exact Or.inr ⟨hr.symm, hadd⟩
    · exact Or.inl ⟨before, after', rfl, hadd⟩
  · rintro (⟨before, after, rfl, hadd⟩ | ⟨rfl, hadd⟩)
    · exact ⟨before, after ++ [r], by simp, hadd⟩
    · exact ⟨rs, [], rfl, hadd⟩

/-- No node comes back if none did before and the last request does not add one that left. -/
theorem noReturn_concat :
    NoReturn (rs ++ [r]) ↔ NoReturn rs ∧ ∀ u, r.Adds u → ¬ Left rs u := by
  constructor
  · intro h
    refine ⟨?_, fun u hu => h rs r [] u rfl hu⟩
    rintro before r' after u rfl
    exact h before r' (after ++ [r]) u (by simp)
  · rintro ⟨hinit, hlast⟩ before r' after u heq hu
    rcases split_concat heq with ⟨rfl, rfl⟩ | ⟨after', rfl⟩
    · exact hlast u hu
    · exact hinit before r' after' u rfl hu

/-- A request that joins two nodes adds both. -/
theorem GraphRequest.Joins.adds (h : r.Joins u v) : r.Adds u ∧ r.Adds v := by
  cases r with
  | edge a b =>
    obtain ⟨hne, h⟩ := h
    rw [ne_eq, ← Int.natCast_inj] at hne
    simp only [GraphRequest.Adds]
    omega
  | clique us => exact ⟨⟨h.2.1, h.2.2.1⟩, h.2.1, h.2.2.2⟩
  | node | remove | degree | interferes | removed => exact h.elim

/-- Nodes are joined both ways. -/
theorem GraphRequest.Joins.symm (h : r.Joins u v) : r.Joins v u := by
  cases r with
  | edge a b => exact ⟨h.1.symm, h.2.symm⟩
  | clique us => exact ⟨h.1.symm, h.2.1, h.2.2.2, h.2.2.1⟩
  | node | remove | degree | interferes | removed => exact h.elim

/-- Nodes that were joined had been added. -/
theorem Joined.added (h : Joined rs u v) : Added rs u ∧ Added rs v := by
  obtain ⟨r, hr, hj⟩ := h
  exact ⟨⟨r, hr, hj.adds.1⟩, ⟨r, hr, hj.adds.2⟩⟩

theorem Joined.symm (h : Joined rs u v) : Joined rs v u := by
  obtain ⟨r, hr, hj⟩ := h
  exact ⟨r, hr, hj.symm⟩

end History

/-! ## No node comes back -/

/-- The graph is what the requests make of it when no node returns. -/
structure Recalls (rs : List GraphRequest) (g : Graph) : Prop where
  has_iff : ∀ u, g.Has u ↔ Added rs u ∧ ¬ Left rs u
  adj_iff : ∀ u v, g.Adj u v ↔ Joined rs u v ∧ g.Has u ∧ g.Has v
  parted_iff : ∀ u v, g.Parted u v ↔ Joined rs u v ∧ ¬ (g.Has u ∧ g.Has v)

section Recalls

variable {rs : List GraphRequest} {g : Graph}

/-- The empty graph recalls that nothing was asked for. -/
theorem recalls_nil : Recalls [] Graph.empty where
  has_iff u := by simp [Graph.Has, Graph.empty, Added]
  adj_iff u v := by simp [Graph.Adj, Graph.neighbours, Graph.empty, Joined]
  parted_iff u v := by simp [Graph.Parted, Graph.lost, Graph.empty, Joined]

/-- A request that takes nothing out. -/
theorem Recalls.grows (h : Recalls rs g) {r : GraphRequest} {g' : Graph}
    (hgg' : Grows g g' r.Adds r.Joins) (hr : ∀ a, r ≠ .remove a)
    (hback : ∀ u, r.Adds u → ¬ Left rs u) : Recalls (rs ++ [r]) g' := by
  have hleft : ∀ u, Left (rs ++ [r]) u ↔ Left rs u := fun u => by
    rw [left_concat, or_iff_left fun h => hr _ h.1]
  -- an old node that is added once more is still there
  have hthere : ∀ u, Added rs u → r.Adds u → g.Has u := fun u hu ha =>
    (h.has_iff u).2 ⟨hu, hback u ha⟩
  have hhas : ∀ u, Added rs u → (g'.Has u ↔ g.Has u) := fun u hu => by
    rw [hgg'.has_iff, or_iff_left_of_imp (hthere u hu)]
  refine ⟨fun u => ?_, fun u v => ?_, fun u v => ?_⟩
  · rw [hgg'.has_iff, h.has_iff, hleft, added_concat]
    have := hback u
    tauto
  · rw [hgg'.adj_iff, h.adj_iff, joined_concat]
    constructor
    · rintro (⟨hj, hu, hv⟩ | hj)
      · exact ⟨Or.inl hj, (hgg'.has_iff u).2 (Or.inl hu), (hgg'.has_iff v).2 (Or.inl hv)⟩
      · obtain ⟨hu, hv⟩ := hj.adds
        exact ⟨Or.inr hj, (hgg'.has_iff u).2 (Or.inr hu), (hgg'.has_iff v).2 (Or.inr hv)⟩
    · rintro ⟨hj | hj, hu, hv⟩
      · obtain ⟨hau, hav⟩ := hj.added
        exact Or.inl ⟨hj, (hhas u hau).1 hu, (hhas v hav).1 hv⟩
      · exact Or.inr hj
  · rw [joined_concat]
    constructor
    · intro hp
      obtain ⟨hj, hgone⟩ := (h.parted_iff u v).1 (hgg'.parted_of u v hp)
      obtain ⟨hau, hav⟩ := hj.added
      exact ⟨Or.inl hj, fun ⟨hu, hv⟩ => hgone ⟨(hhas u hau).1 hu, (hhas v hav).1 hv⟩⟩
    · rintro ⟨hj | hj, hgone⟩
      · obtain ⟨hau, hav⟩ := hj.added
        refine hgg'.keeps u v ((h.parted_iff u v).2 ⟨hj, fun ⟨hu, hv⟩ => ?_⟩) (hthere u hau)
        exact hgone ⟨(hhas u hau).2 hu, (hhas v hav).2 hv⟩
      · -- nodes that are joined just now are both there
        obtain ⟨hu, hv⟩ := hj.adds
        exact absurd ⟨(hgg'.has_iff u).2 (Or.inr hu), (hgg'.has_iff v).2 (Or.inr hv)⟩ hgone

/-- A node that is there is taken out. -/
theorem Recalls.remove (h : Recalls rs g) (hg : g.Undirected) {a : VReg} (ha : g.Has a) :
    Recalls (rs ++ [GraphRequest.remove a]) (g.remove a) := by
  -- Removing neither adds a node nor joins any two.
  have hadded : ∀ u, Added (rs ++ [GraphRequest.remove a]) u ↔ Added rs u := fun u => by
    rw [added_concat, GraphRequest.Adds, or_false]
  have hjoined : ∀ u v, Joined (rs ++ [GraphRequest.remove a]) u v ↔ Joined rs u v := fun u v => by
    rw [joined_concat, GraphRequest.Joins, or_false]
  refine ⟨fun u => ?_, fun u v => ?_, fun u v => ?_⟩
  · rw [Graph.has_remove ha, h.has_iff, hadded, left_concat]
    -- The node was there, so it is its first removal.
    by_cases hua : u = a
    · subst hua
      have := ((h.has_iff u).1 ha).1
      simp [this]
    · have hne : ¬ ((.remove a : GraphRequest) = .remove u) := fun heq => by
        injection heq with heq
        exact hua (Int.natCast_inj.1 heq).symm
      simp [hua, hne]
  · rw [hg.adj_remove ha, h.adj_iff, hjoined, Graph.has_remove ha, Graph.has_remove ha]
    tauto
  · rw [hg.parted_remove ha, h.parted_iff, h.adj_iff, hjoined, Graph.has_remove ha,
      Graph.has_remove ha]
    by_cases hj : Joined rs u v
    · simp only [hj, true_and]
      tauto
    · simp [hj]

/-- A node that is not there is refused. -/
theorem Recalls.refuse (h : Recalls rs g) {a : Int} (ha : ∀ u : VReg, a = u → ¬ g.Has u) :
    Recalls (rs ++ [GraphRequest.remove a]) g := by
  refine ⟨fun u => ?_, fun u v => ?_, fun u v => ?_⟩
  · rw [h.has_iff, added_concat, left_concat, GraphRequest.Adds, or_false]
    constructor
    · rintro ⟨hu, hleft⟩
      refine ⟨hu, ?_⟩
      rintro (hl | ⟨heq, -⟩)
      -- A node that is not there cannot be removed again.
      · exact hleft hl
      · injection heq with heq
        exact ha u heq ((h.has_iff u).2 ⟨hu, hleft⟩)
    · exact fun ⟨hu, hleft⟩ => ⟨hu, fun hl => hleft (Or.inl hl)⟩
  · rw [h.adj_iff, joined_concat, GraphRequest.Joins, or_false]
  · rw [h.parted_iff, joined_concat, GraphRequest.Joins, or_false]

/-- Handling one request keeps the graph in step with the requests, unless it brings a
node back. -/
theorem Recalls.handle (h : Recalls rs g) (hg : g.Undirected) {r : GraphRequest}
    (hback : ∀ u, r.Adds u → ¬ Left rs u) : Recalls (rs ++ [r]) (handleGraph g r).1 := by
  -- Only the removals take something away; all others grow the graph.
  by_cases hr : ∃ a, r = .remove a
  · obtain ⟨a, rfl⟩ := hr
    rw [handleGraph_remove]
    split
    · next ha =>
      obtain ⟨u, rfl⟩ := Int.eq_ofNat_of_zero_le ha
      rw [Int.toNat_natCast]
      by_cases hu : g.Has u
      · exact h.remove hg hu
      · rw [remove_absent hu]
        apply h.refuse
        intro v hv
        rwa [← Int.natCast_inj.1 hv]
    · next ha =>
      apply h.refuse
      omega
  · have hr' : ∀ a, r ≠ .remove a := fun a ha => hr ⟨a, ha⟩
    exact h.grows (grows_handleGraph hg r hr') hr' hback

end Recalls

/-- After requests that bring no node back the graph recalls them all. -/
theorem recalls_graphAfter (rs : List GraphRequest) (h : NoReturn rs) :
    Recalls rs (graphAfter rs) := by
  induction rs using List.reverseRecOn with
  | nil => exact recalls_nil
  | append_singleton rs r ih =>
    rw [graphAfter_concat]
    obtain ⟨hinit, hlast⟩ := noReturn_concat.1 h
    exact (ih hinit).handle (fitting_graphAfter rs).1 hlast

/-- What interference means, and what the lost edges are, when no node returns. -/
structure Remembers (rs : List GraphRequest) (g : Graph) : Prop where
  interferes_symm : ∀ a b, g.interferes a b = g.interferes b a
  interferes_iff : ∀ a b, g.interferes a b = true ↔ Joined rs a b
  disjoint : ∀ u v, ¬ (g.Parted u v ∧ g.Adj u v)
  /-- With all its neighbours gone a node has lost all of them, whether it is there or not. -/
  parted_of_gone : ∀ u, (∀ v, Joined rs u v → ¬ g.Has v) → ∀ v, g.Parted u v ↔ Joined rs u v
  /-- A node that left has lost all that it was ever joined to. -/
  parted_of_left : ∀ u, Left rs u → ∀ v, g.Parted u v ↔ Joined rs u v

/-- A graph that recalls its requests is the one they describe. -/
theorem Recalls.remembers {rs : List GraphRequest} {g : Graph} (h : Recalls rs g) : Remembers rs g := by
  -- Joined nodes are adjacent or parted, whichever of them are still there.
  have hiff : ∀ a b, g.interferes a b = true ↔ Joined rs a b := by
    intro a b
    rw [Graph.interferes_iff, h.adj_iff, h.parted_iff, ← and_or_left]
    exact and_iff_left (em _)
  refine ⟨fun a b => ?_, hiff, fun u v ⟨hp, ha⟩ => ?_, fun u hgone v => ?_, fun u hl v => ?_⟩
  · rw [Bool.eq_iff_iff, hiff, hiff]
    exact ⟨Joined.symm, Joined.symm⟩
  · exact ((h.parted_iff u v).1 hp).2 ((h.adj_iff u v).1 ha).2
  · rw [h.parted_iff]
    exact and_iff_left_of_imp fun hj hhas => hgone v hj hhas.2
  · rw [h.parted_iff]
    exact and_iff_left fun hhas => ((h.has_iff u).1 hhas.1).2 hl

/-- After any requests the parts of the graph fit together; if no node was added again after it was
taken out, the graph also remembers who was joined with whom. -/
theorem graphAfter_consistent (rs : List GraphRequest) :
    (graphAfter rs).Consistent ∧ (NoReturn rs → Remembers rs (graphAfter rs)) := by
  obtain ⟨hg, hc⟩ := fitting_graphAfter rs
  exact ⟨hg.consistent hc, fun h => (recalls_graphAfter rs h).remembers⟩

/-- Two cliques whose common node leaves, an edge between the others, and one more that leaves. -/
def cliquesApart : List GraphRequest :=
  [.clique [0, 3, 6], .clique [6, 9], .remove 6, .edge 3 9, .remove 3]

/-- The example brings no node back. -/
theorem noReturn_cliquesApart : NoReturn cliquesApart := by
  intro before r after u heq hadds hleft
  have hmem : .remove u ∈ before := hleft.mem
  -- after the first node left there is only an edge between others, and then a node that leaves
  rcases before with _ | ⟨r₁, _ | ⟨r₂, _ | ⟨r₃, _ | ⟨r₄, before⟩⟩⟩⟩
  all_goals simp only [cliquesApart, List.nil_append, List.cons_append, List.cons.injEq] at heq
  · simp at hmem
  · simp [← heq.1] at hmem
  · simp [← heq.1, ← heq.2.1] at hmem
  · simp [← heq.1, ← heq.2.1, ← heq.2.2.1] at hmem
    simp [← heq.2.2.2.1, GraphRequest.Adds, hmem] at hadds
  · have hr : r = .remove 3 := by
      rcases before with _ | ⟨r₅, before⟩
      · simpa using (List.head_eq_of_cons_eq heq.2.2.2.2).symm
      · simp at heq
    rw [hr] at hadds
    exact hadds

/-- What is lost with the common node is both cliques; the edge made later is known as well. -/
theorem remembers_cliquesApart : NoReturn cliquesApart ∧
    Remembers cliquesApart (graphAfter cliquesApart) ∧
      ((graphAfter cliquesApart).lost 6).toList = [0, 3, 9] :=
  ⟨noReturn_cliquesApart, (graphAfter_consistent cliquesApart).2 noReturn_cliquesApart,
    by decide +kernel⟩

end Tac.Session
