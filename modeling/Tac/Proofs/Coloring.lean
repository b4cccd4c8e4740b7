import Mathlib
import Tac.Allocation
import Tac.Proofs.Interference
import Tac.Proofs.RegSet

/-!
# Colouring

Colouring takes the graph apart node by node and gives registers in the opposite order.  What must
survive both phases is that adjacent nodes end up apart.

* **`takeOne_inv`** — what taking a node out can do, and when: push it, or spill it to the next word of
  the frame.  **`Taken`** is the invariant of that loop: the nodes of the graph are those still
  present, those pushed and those spilled, every edge is present or remembered, and the spilled nodes
  have consecutive words.
* **`Proper`** — adjacent nodes that have locations have different ones.  It holds of the spilled
  nodes alone and is kept by every register given out, because the registers of all remembered
  neighbours are avoided (`proper_giveAll`).
-/

namespace Tac

/-! ## Look-ups after insertions -/

section Insert

variable {κ : Type} [Ord κ] [Std.TransOrd κ] [Std.LawfulEqOrd κ] [DecidableEq κ]

/-- Writing one entry leaves the others as they are. -/
theorem getElem?_insert_map {β : Type} (m : Std.TreeMap κ β) (k j : κ) (x : β) :
    (m.insert k x)[j]? = if k = j then some x else m[j]? := by
  simp only [Std.TreeMap.getElem?_insert, Std.LawfulEqCmp.compare_eq_iff_eq]

/-- Entries are written one after the other, so the last one of a key stands. -/
theorem getElem?_foldl_insert {α β : Type} (key : α → κ) (val : α → β) :
    ∀ (xs : List α) (m : Std.TreeMap κ β) (k : κ),
      (xs.foldl (fun m x => m.insert (key x) (val x)) m)[k]? =
        ((xs.reverse.find? fun x => key x == k).map val).or m[k]? := by
  intro xs
  -- On the list, with any map to start from; the reversal turns the last into the first.
  induction xs with
  | nil =>
    intro m k
    rfl
  | cons x xs ih =>
    intro m k
    rw [List.foldl_cons, ih, List.reverse_cons, List.find?_append]
    cases xs.reverse.find? fun x => key x == k with
    | some y => rfl
    | none =>
      rw [getElem?_insert_map]
      by_cases hk : key x = k <;> simp [hk]

/-- Of entries with different keys each is found under its own. -/
theorem getElem?_foldl_insert_of_mem {α β : Type} {key : α → κ} {val : α → β} {xs : List α}
    (hnodup : (xs.map key).Nodup) {m : Std.TreeMap κ β} {x : α} (hx : x ∈ xs) :
    (xs.foldl (fun m x => m.insert (key x) (val x)) m)[key x]? = some (val x) := by
  have hfind : xs.reverse.find? (fun y => key y == key x) = some x := by
    cases hf : xs.reverse.find? fun y => key y == key x with
    | none => simpa using List.find?_eq_none.1 hf x (List.mem_reverse.2 hx)
    | some y =>
      have hy := List.mem_reverse.1 (List.mem_of_find?_eq_some hf)
      have hkey : key y = key x := by simpa using List.find?_some hf
      rw [List.inj_on_of_nodup_map hnodup hy hx hkey]
  rw [getElem?_foldl_insert, hfind]
  rfl

end Insert

/-! ## Words of 64 bits -/

/-- A number that fits is not wrapped. -/
theorem wrap64_of_range {n : Int} (h0 : -9223372036854775808 ≤ n) (h1 : n < 9223372036854775808) :
    wrap64 n = n := by
  unfold wrap64
  rw [Int.bmod_eq_of_le_mul_two] <;> omega

theorem wrap64_add_one (n : Int) : wrap64 (wrap64 n + 1) = wrap64 (n + 1) := by
  simp [wrap64]

theorem wrap64_add (n k : Int) : wrap64 (wrap64 n + k) = wrap64 (n + k) := by
  simp [wrap64]

/-- Consecutive words have different numbers as long as there are no more than 2^64 of them. -/
theorem wrap64_add_inj {b : Int} {i j : Nat} (hi : i < 18446744073709551616)
    (hj : j < 18446744073709551616) (h : wrap64 (b + i) = wrap64 (b + j)) : i = j := by
  unfold wrap64 at h
  have hmod := congrArg (· % ((18446744073709551616 : Nat) : Int)) h
  simp only [Int.bmod_emod] at hmod
  omega

namespace Loc

theorem clashes_comm (l m : Loc) : l.clashes m = m.clashes l := by
  cases l <;> cases m <;> simp [clashes, Bool.beq_comm]

end Loc

namespace Coloring

/-! ## Choosing a register -/

/-- A chosen register is one of the candidates and not taken. -/
theorem choose_eq_some {regs : List Reg} {taken : RegSet} {hints : List Reg} {r : Reg}
    (h : choose regs taken hints = some r) : r ∈ regs ∧ taken.contains r = false := by
  unfold choose at h
  rw [Option.or_eq_some_iff] at h
  -- a hint that is a free candidate, or else the first free candidate
  rcases h with h | ⟨_, h⟩
  · have hp := List.find?_some h
    simp only [RegSet.contains_ofList, Bool.and_eq_true, Bool.not_eq_true'] at hp
    exact ⟨of_decide_eq_true hp.1.1, hp.2⟩
  · have hp := List.find?_some h
    exact ⟨List.mem_of_find?_eq_some h, by simpa using hp⟩

/-- The candidates are the given registers and at most one argument register. -/
theorem mem_candidates {regs : List Reg} {u : VReg} {r : Reg} (h : r ∈ candidates regs u) :
    r ∈ regs ∨ ∃ i, i < Reg.argCount ∧ r = Reg.a i := by
  unfold candidates at h
  split at h
  · next a ha =>
    split at h
    · exact Or.inl h
    -- A parameter may also have its own register, which need not be part of the file.
    · rcases List.mem_append.1 h with hr | hr
      · exact Or.inl hr
      · obtain rfl := List.mem_singleton.1 hr
        obtain ⟨i, _, hi⟩ := Option.bind_eq_some_iff.1 ha
        rw [Reg.arg?_eq] at hi
        split at hi
        · next hlt => exact Or.inr ⟨i, hlt, (Option.some.inj hi).symm⟩
        · cases hi
  · exact Or.inl h

/-- The registers of remembered neighbours are busy. -/
theorem contains_busy {g : Graph} {locs : Locs} {u v : VReg} {r : Reg} (hp : g.Parted u v)
    (hv : locs[v]? = some (.reg r)) (hr : r.Masked) : (busy g locs u).contains r = true := by
  rw [busy, RegSet.contains_ofList, Bool.and_eq_true]
  refine ⟨decide_eq_true (List.mem_filterMap.2 ⟨v, (BitSet.mem_toList _ _).2 hp, ?_⟩),
    decide_eq_true hr⟩
  rw [hv]
  rfl

/-! ## Taking nodes out -/

/-- The state after a node was pushed. -/
def Taking.push (t : Taking) (u : VReg) : Taking :=
  { t with graph := t.graph.remove u, stack := u :: t.stack }

/-- The state after a node was spilled. -/
def Taking.spill (t : Taking) (u : VReg) : Taking :=
  { t with graph := t.graph.remove u
           spills := { node := u, degree := t.graph.degree u, slot := t.slot } :: t.spills
           locs := t.locs.insert u (Loc.inStack t.slot 1)
           slot := wrap64 (t.slot + 1) }

/-- The busiest node is one of those asked about. -/
theorem mem_of_busiest? {g : Graph} : ∀ {us : List VReg} {u : VReg},
    busiest? g us = some u → u ∈ us := by
  intro us
  induction us with
  | nil => intro u h; cases h
  | cons v us ih =>
    intro u h
    unfold busiest? at h
    -- The busiest of the rest stays, or gives way to the first.
    split at h
    · exact List.mem_cons.2 (Or.inl (Option.some.inj h).symm)
    · next w hw =>
      split at h
      · obtain rfl := Option.some.inj h
        exact List.mem_cons_of_mem _ (ih hw)
      · exact List.mem_cons.2 (Or.inl (Option.some.inj h).symm)

/-- There is a busiest node unless there is none at all. -/
theorem busiest?_eq_none_iff {g : Graph} {us : List VReg} : busiest? g us = none ↔ us = [] := by
  cases us with
  | nil => exact ⟨fun _ => rfl, fun _ => rfl⟩
  | cons u us =>
    unfold busiest?
    split
    · simp
    · split <;> simp

/-- The ways of taking a node out, in the order in which they are tried: a node with few neighbours is
pushed; one that is no parameter is spilled, when all have many; a parameter is pushed, when nothing
else is left; and without nodes nothing happens. -/
theorem takeOne_inv (k : Nat) (t : Taking) :
    (∃ u, t.graph.Has u ∧ t.graph.degree u < k ∧ takeOne k t = t.push u) ∨
    (∃ u : VReg, t.graph.Has u ∧ VReg.paramIndex? u = none ∧
      (∀ v, t.graph.Has v → k ≤ t.graph.degree v) ∧ takeOne k t = t.spill u) ∨
    (∃ u, t.graph.Has u ∧ (∀ v : VReg, t.graph.Has v → (VReg.paramIndex? v).isSome = true) ∧
      takeOne k t = t.push u) ∨
    ((∀ u, ¬ t.graph.Has u) ∧ takeOne k t = t) := by
  have hmem : ∀ u : VReg, u ∈ t.graph.nodes.toList ↔ t.graph.Has u := fun u => BitSet.mem_toList _ u
  unfold takeOne
  simp only
  -- A node with few neighbours comes first, then the busiest that is no parameter.
  cases he : easiest? t.graph k with
  | some u =>
    refine Or.inl ⟨u, (hmem u).1 (List.mem_of_find?_eq_some he), ?_, rfl⟩
    simpa using List.find?_some he
  | none =>
    have hmany : ∀ v, t.graph.Has v → k ≤ t.graph.degree v := fun v hv => by
      simpa using List.find?_eq_none.1 he v ((hmem v).2 hv)
    cases hs : spillCandidate? t.graph with
    | some u =>
      obtain ⟨hu, hfree⟩ := List.mem_filter.1 (mem_of_busiest? hs)
      exact Or.inr (Or.inl ⟨u, (hmem u).1 hu, by simpa using hfree, hmany, rfl⟩)
    | none =>
      have hparams : ∀ v : VReg, t.graph.Has v → (VReg.paramIndex? v).isSome = true := fun v hv => by
        have := List.filter_eq_nil_iff.1 (busiest?_eq_none_iff.1 hs) v ((hmem v).2 hv)
        simpa [Option.isSome_iff_ne_none] using this
      -- Only parameters are left, or nothing at all.
      cases hh : t.graph.nodes.toList.head? with
      | some u => exact Or.inr (Or.inr (Or.inl ⟨u, (hmem u).1 (List.mem_of_head? hh), hparams, rfl⟩))
      | none =>
        have hnil : t.graph.nodes.toList = [] := List.head?_eq_none_iff.1 hh
        refine Or.inr (Or.inr (Or.inr ⟨fun u hu => ?_, rfl⟩))
        rw [← hmem, hnil] at hu
        cases hu

/-- Taking out pushes or spills a present node, or finds none. -/
theorem takeOne_cases (k : Nat) (t : Taking) :
    (∃ u, t.graph.Has u ∧ (takeOne k t = t.push u ∨ takeOne k t = t.spill u)) ∨
      ((∀ u, ¬ t.graph.Has u) ∧ takeOne k t = t) := by
  rcases takeOne_inv k t with ⟨u, hu, _, h⟩ | ⟨u, hu, _, _, h⟩ | ⟨u, hu, _, h⟩ | h
  · exact Or.inl ⟨u, hu, Or.inl h⟩
  · exact Or.inl ⟨u, hu, Or.inr h⟩
  · exact Or.inl ⟨u, hu, Or.inl h⟩
  · exact Or.inr h

/-- What holds while the graph `g` is taken apart and spilled nodes get words from `base` on. -/
structure Taken (g : Graph) (base : Int) (t : Taking) : Prop where
  bare : t.graph.Bare
  edges : ∀ u v, g.Adj u v → t.graph.Adj u v ∨ t.graph.Parted u v
  nodes : ∀ u, g.Has u ↔ t.graph.Has u ∨ u ∈ t.stack ∨ u ∈ t.spills.map Spill.node
  gone : ∀ u, u ∈ t.stack ∨ u ∈ t.spills.map Spill.node → ¬ t.graph.Has u
  nodup : (t.stack ++ t.spills.map Spill.node).Nodup
  slot_eq : t.slot = wrap64 (base + t.spills.length)
  slots : t.spills.reverse.map Spill.slot =
    (List.range t.spills.length).map fun (k : Nat) => wrap64 (base + k)
  locs_iff : ∀ u l, t.locs[u]? = some l ↔ ∃ s ∈ t.spills, s.node = u ∧ l = .stack s.slot 1

/-- At the start nothing has been taken. -/
theorem taken_start {g : Graph} (hg : g.Growing) {base : Int} (hbase : wrap64 base = base) :
    Taken g base { graph := g, slot := base } := by
  refine ⟨hg.bare, fun u v h => Or.inl h, fun u => ?_, fun u h => ?_, List.nodup_nil, ?_, rfl,
    fun u l => ?_⟩
  · simp
  · simp at h
  · simp [hbase]
  · simp

/-- Pushing a node keeps the account of what was taken. -/
theorem Taken.push {g : Graph} {base : Int} {t : Taking} (ht : Taken g base t) {u : VReg}
    (hu : t.graph.Has u) : Taken g base (t.push u) := by
  have hnot : u ∉ t.stack ++ t.spills.map Spill.node := fun h =>
    ht.gone u (List.mem_append.1 h) hu
  refine ⟨ht.bare.remove hu, fun v w h => Graph.adj_or_parted_remove hu (ht.edges v w h),
    fun v => ?_, fun v hv => ?_, ?_, ht.slot_eq, ht.slots, ht.locs_iff⟩
  · simp only [Taking.push, Graph.has_remove hu, List.mem_cons, ht.nodes v]
    by_cases hv : v = u
    · subst hv
      simp [hu]
    · simp [hv]
  -- What was taken before stays out, and so does the node taken now.
  · simp only [Taking.push, Graph.has_remove hu, List.mem_cons] at hv ⊢
    rintro ⟨hne, hhas⟩
    refine ht.gone v ?_ hhas
    rcases hv with (rfl | hv) | hv
    · exact absurd rfl hne
    · exact Or.inl hv
    · exact Or.inr hv
  · exact List.nodup_cons.2 ⟨hnot, ht.nodup⟩

/-- Spilling a node keeps the account of what was taken. -/
theorem Taken.spill {g : Graph} {base : Int} {t : Taking} (ht : Taken g base t) {u : VReg}
    (hu : t.graph.Has u) : Taken g base (t.spill u) := by
  have hnot : u ∉ t.stack ++ t.spills.map Spill.node := fun h =>
    ht.gone u (List.mem_append.1 h) hu
  refine ⟨ht.bare.remove hu, fun v w h => Graph.adj_or_parted_remove hu (ht.edges v w h),
    fun v => ?_, fun v hv => ?_, ?_, ?_, ?_, fun v l => ?_⟩
  · simp only [Taking.spill, Graph.has_remove hu, List.map_cons, List.mem_cons, ht.nodes v]
    by_cases hv : v = u
    · subst hv
      simp [hu]
    · simp [hv]
  · simp only [Taking.spill, Graph.has_remove hu, List.map_cons, List.mem_cons] at hv ⊢
    rintro ⟨hne, hhas⟩
    refine ht.gone v ?_ hhas
    rcases hv with hv | rfl | hv
    · exact Or.inl hv
    · exact absurd rfl hne
    · exact Or.inr hv
  · simp only [Taking.spill, List.map_cons]
    exact List.nodup_middle.2 (List.nodup_cons.2 ⟨hnot, ht.nodup⟩)
  · simp only [Taking.spill, List.length_cons]
    rw [ht.slot_eq, wrap64_add_one]
    push_cast
    rw [add_assoc]
  · simp only [Taking.spill, List.reverse_cons, List.map_append, List.map_cons, List.map_nil,
      List.length_cons, List.range_succ]
    rw [ht.slots, ht.slot_eq]
  · simp only [Taking.spill, getElem?_insert_map, List.mem_cons, exists_eq_or_imp]
    by_cases hv : u = v
    · -- a node that is spilled now was not spilled before
      subst hv
      have hnone : ¬ ∃ s ∈ t.spills, s.node = u ∧ l = Loc.stack s.slot 1 := by
        rintro ⟨s, hs, hsu, _⟩
        exact hnot (List.mem_append.2 (Or.inr (List.mem_map.2 ⟨s, hs, hsu⟩)))
      rw [if_pos rfl, or_iff_left hnone]
      simp [Loc.inStack, eq_comm]
    · simp [hv, ht.locs_iff]

/-- Taking one node keeps the account, whichever way it is taken. -/
theorem Taken.takeOne {g : Graph} {base : Int} {t : Taking} (ht : Taken g base t) (k : Nat) :
    Taken g base (Coloring.takeOne k t) := by
  rcases takeOne_cases k t with ⟨u, hu, h | h⟩ | ⟨_, h⟩
  · rw [h]
    exact ht.push hu
  · rw [h]
    exact ht.spill hu
  · rw [h]
    exact ht

/-- Every round takes a node as long as there is one. -/
theorem size_takeOne (k : Nat) (t : Taking) :
    (takeOne k t).graph.size = t.graph.size - 1 := by
  rcases takeOne_cases k t with ⟨u, hu, h | h⟩ | ⟨hnone, h⟩
  · have := Graph.size_remove hu
    rw [h]
    simp only [Taking.push]
    omega
  · have := Graph.size_remove hu
    rw [h]
    simp only [Taking.spill]
    omega
  · rw [h, (Graph.size_eq_zero_iff _).2 hnone]

/-- Taking nodes keeps the account, and each makes the rest smaller by one. -/
theorem Taken.takeAll {g : Graph} {base : Int} (k : Nat) : ∀ (n : Nat) {t : Taking},
    Taken g base t → Taken g base (Coloring.takeAll k n t) ∧
      (Coloring.takeAll k n t).graph.size = t.graph.size - n := by
  intro n
  induction n with
  | zero => intro t ht; exact ⟨ht, rfl⟩
  | succ n ih =>
    intro t ht
    obtain ⟨h1, h2⟩ := ih (ht.takeOne k)
    refine ⟨h1, ?_⟩
    rw [Coloring.takeAll, h2, size_takeOne]
    omega

/-- Different spilled nodes have different words: a graph cannot have more nodes than 64-bit words
have numbers. -/
theorem Taken.slot_injective {g : Graph} {base : Int} {t : Taking} (ht : Taken g base t)
    (hfew : t.spills.length ≤ 18446744073709551616) {s s' : Spill} (hs : s ∈ t.spills)
    (hs' : s' ∈ t.spills) (h : s.slot = s'.slot) : s = s' := by
  obtain ⟨i, hi, rfl⟩ := List.getElem_of_mem (List.mem_reverse.2 hs)
  obtain ⟨j, hj, rfl⟩ := List.getElem_of_mem (List.mem_reverse.2 hs')
  -- the k-th spilled node has the k-th word, and wrapping tells that many words apart
  have hslot : ∀ (k : Nat) (hk : k < t.spills.reverse.length),
      (t.spills.reverse[k]).slot = wrap64 (base + k) := by
    intro k hk
    have := congrArg (fun xs => xs[k]?) ht.slots
    have hk' : k < t.spills.length := by simpa using hk
    simpa [hk, hk'] using this
  rw [hslot i hi, hslot j hj] at h
  simp only [List.length_reverse] at hi hj
  have hij := wrap64_add_inj (by omega) (by omega) h
  subst hij
  rfl

/-! ## Giving registers -/

/-- Adjacent nodes of `g` that have locations have different ones. -/
structure Proper (g : Graph) (locs : Locs) : Prop where
  apart : ∀ {u v : VReg} {l m : Loc}, g.Adj u v → locs[u]? = some l → locs[v]? = some m →
    l.clashes m = false
  masked : ∀ {u : VReg} {r : Reg}, locs[u]? = some (.reg r) → r.Masked

/-- The spilled nodes alone: their words are different. -/
theorem Taken.proper {g : Graph} (hg : g.Growing) {base : Int} {t : Taking} (ht : Taken g base t)
    (hfew : t.spills.length ≤ 18446744073709551616) : Proper g t.locs := by
  refine ⟨fun {u v l m} huv hl hm => ?_, fun {u r} hr => ?_⟩
  · obtain ⟨s, hs, rfl, rfl⟩ := (ht.locs_iff u l).1 hl
    obtain ⟨s', hs', rfl, rfl⟩ := (ht.locs_iff v m).1 hm
    have hne : s.slot ≠ s'.slot := fun h => by
      have := ht.slot_injective hfew hs hs' h
      subst this
      exact hg.irrefl huv
    simp [Loc.clashes, hne]
  · obtain ⟨s, _, _, h⟩ := (ht.locs_iff u _).1 hr
    cases h

/-- A register that no remembered neighbour holds may be given: the node's old location does not
matter, as no node is adjacent to itself. -/
theorem Proper.insert {g₀ g : Graph} (hg : g₀.Growing)
    (hpart : ∀ u v, g₀.Adj u v → g.Parted u v) {locs : Locs} (hp : Proper g₀ locs) {u : VReg}
    {r : Reg} (hr : r.Masked) (hfree : (busy g locs u).contains r = false) :
    Proper g₀ (locs.insert u (.reg r)) := by
  -- the neighbours of `u` are remembered, so their registers were busy when `r` was chosen
  have hnew : ∀ {v m}, g₀.Adj u v → locs[v]? = some m → (Loc.reg r).clashes m = false := by
    intro v m huv hv
    cases m with
    | stack s n => rfl
    | reg q =>
      have hne : r ≠ q := by
        rintro rfl
        rw [contains_busy (hpart u v huv) hv hr] at hfree
        cases hfree
      simp [Loc.clashes, hne]
  refine ⟨fun {v w l m} hvw hl hm => ?_, fun {v q} hq => ?_⟩
  · rw [getElem?_insert_map] at hl hm
    by_cases hv : u = v
    · subst hv
      have huw : u ≠ w := fun h => hg.irrefl (h ▸ hvw)
      rw [if_pos rfl] at hl
      rw [if_neg huw] at hm
      obtain rfl := Option.some.inj hl
      exact hnew hvw hm
    · rw [if_neg hv] at hl
      by_cases hw : u = w
      · subst hw
        rw [if_pos rfl] at hm
        obtain rfl := Option.some.inj hm
        rw [Loc.clashes_comm]
        exact hnew (hg.symm hvw) hl
      · rw [if_neg hw] at hm
        exact hp.apart hvw hl hm
  · rw [getElem?_insert_map] at hq
    split at hq
    · cases hq
      exact hr
    · exact hp.masked hq

/-- If every node of the stack gets a register, adjacent nodes stay apart. -/
theorem proper_giveAll {g₀ g : Graph} (hg : g₀.Growing) (hpart : ∀ u v, g₀.Adj u v → g.Parted u v)
    {regs : List Reg} (hregs : ∀ r ∈ regs, r.Valid) (h : Affinity) :
    ∀ (us : List VReg) {locs locs' : Locs}, Proper g₀ locs →
      giveAll regs g h locs us = (locs', none) → Proper g₀ locs' := by
  intro us
  -- induction on the stack: what the next node avoids are the registers given so far
  induction us with
  | nil =>
    intro locs locs' hp hgive
    cases hgive
    exact hp
  | cons u us ih =>
    intro locs locs' hp hgive
    unfold giveAll at hgive
    split at hgive
    · next r hr =>
      obtain ⟨hcand, hfree⟩ := choose_eq_some hr
      have hmask : r.Masked := by
        rcases mem_candidates hcand with hmem | ⟨i, hi, rfl⟩
        · exact (hregs r hmem).masked
        · exact (Reg.valid_a hi).masked
      exact ih (hp.insert hg hpart hmask hfree) hgive
    · cases hgive

/-- What giving registers does: the nodes of the stack get one of their candidates, and no other
location changes. -/
theorem giveAll_spec {regs : List Reg} {g : Graph} {h : Affinity} :
    ∀ (us : List VReg) {locs locs' : Locs}, giveAll regs g h locs us = (locs', none) →
      (∀ u, u ∉ us → locs'[u]? = locs[u]?) ∧
        ∀ u ∈ us, ∃ r ∈ candidates regs u, locs'[u]? = some (.reg r) := by
  intro us
  -- On the nodes that are left; a node that has its register is not given another.
  induction us with
  | nil =>
    intro locs locs' hgive
    cases hgive
    exact ⟨fun _ _ => rfl, fun u hu => nomatch hu⟩
  | cons u us ih =>
    intro locs locs' hgive
    unfold giveAll at hgive
    split at hgive
    · next r hr =>
      obtain ⟨hframe, hgiven⟩ := ih hgive
      refine ⟨fun v hv => ?_, fun v hv => ?_⟩
      · rw [List.mem_cons, not_or] at hv
        rw [hframe v hv.2, getElem?_insert_map, if_neg (Ne.symm hv.1)]
      · -- a node that comes again on the stack has its last register
        by_cases hmem : v ∈ us
        · exact hgiven v hmem
        · have hvu : v = u := (List.mem_cons.1 hv).resolve_right hmem
          subst hvu
          refine ⟨r, (choose_eq_some hr).1, ?_⟩
          rw [hframe v hmem, getElem?_insert_map, if_pos rfl]
    · cases hgive

end Coloring

end Tac
