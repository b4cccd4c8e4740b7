import Mathlib
import Tac.Liveness
import Tac.Proofs.Flow

/-!
# The live sets solve their equations

The worklist takes a bounded number of statements, so that it *ends* has to be proved before
anything about its result.

* **`Progress`** — what holds between two visits: sets only grow (`ascending`), hold nothing but
  registers that are read somewhere (`bounded`), and satisfy the equations at every statement that
  does not wait (`solved`).
* **`potential`** — the waiting statements, and for each statement the predecessors that its set can
  still make wait: one lot for each register that is read and not yet in the set.  Each visit lowers
  it (`potential_visit_lt`), and at the start it is below the step bound (`potential_start_le`).
* **`Solution`** — the equations for all statements, which `solution_analyze` gives for the result.
-/

namespace Tac.Liveness

/-! ## The equations on members -/

/-- The join has what is live at one of the successors. -/
theorem contains_join (fx : Facts) (l : Liveness) (i u : Nat) :
    (join fx l i).contains u = true ↔ ∃ j ∈ fx.flow.nextOf i, (l.liveAt j).contains u = true := by
  rw [join, BitSet.contains_foldl_union, BitSet.contains_empty, Bool.false_or, List.any_eq_true]

/-- The transfer has what is read, and what comes out unless it is written. -/
theorem contains_transfer (fx : Facts) (i : Nat) (m : BitSet) (u : Nat) :
    (transfer fx i m).contains u = true ↔
      u ∈ fx.uses.getD i [] ∨ (u ∉ fx.defs.getD i [] ∧ m.contains u = true) := by
  rw [transfer, BitSet.contains_insertAll, BitSet.contains_foldl_erase, BitSet.contains_copy]
  simp

/-- The transfer of a larger set is larger. -/
theorem transfer_mono (fx : Facts) (i : Nat) {m m' : BitSet}
    (h : ∀ u, m.contains u = true → m'.contains u = true) {u : Nat}
    (hu : (transfer fx i m).contains u = true) : (transfer fx i m').contains u = true := by
  rw [contains_transfer] at hu ⊢
  rcases hu with huse | ⟨hdef, hmem⟩
  · exact Or.inl huse
  · exact Or.inr ⟨hdef, h u hmem⟩

/-- The join of larger sets is larger. -/
theorem join_mono (fx : Facts) (i : Nat) {l l' : Liveness}
    (h : ∀ j u, (l.liveAt j).contains u = true → (l'.liveAt j).contains u = true) {u : Nat}
    (hu : (join fx l i).contains u = true) : (join fx l' i).contains u = true := by
  rw [contains_join] at hu ⊢
  obtain ⟨j, hj, hmem⟩ := hu
  exact ⟨j, hj, h j u hmem⟩

/-- The join depends on the live sets of the successors only. -/
theorem join_congr (fx : Facts) (i : Nat) {l l' : Liveness}
    (h : ∀ j ∈ fx.flow.nextOf i, l.liveAt j = l'.liveAt j) : join fx l i = join fx l' i := by
  unfold join
  exact List.foldl_ext _ _ _ fun m j hj => by rw [h j hj]

/-! ## The facts of a function -/

section Facts

variable {vars : VarTable} {f : Func} {fl : Flow}

/-- The facts record what each statement reads. -/
theorem uses_facts (i : Nat) :
    (facts vars f fl).uses.getD i [] = (f.stmts[i]?.map (Stmt.uses vars)).getD [] := by
  simp [facts, Array.getD_eq_getD_getElem?]

/-- The facts record what each statement writes. -/
theorem defs_facts (i : Nat) :
    (facts vars f fl).defs.getD i [] = (f.stmts[i]?.map (Stmt.defs vars)).getD [] := by
  simp [facts, Array.getD_eq_getD_getElem?]

/-- The registers that are read anywhere, with repetitions. -/
def reads (fx : Facts) : List VReg := fx.uses.toList.flatten

/-- What a statement reads is among all that is read. -/
theorem mem_reads {fx : Facts} {i u : Nat} (h : u ∈ fx.uses.getD i []) : u ∈ reads fx := by
  rw [Array.getD_eq_getD_getElem?] at h
  cases hi : fx.uses[i]? with
  | none =>
    rw [hi] at h
    cases h
  | some us =>
    rw [hi] at h
    refine List.mem_flatten.2 ⟨us, ?_, h⟩
    exact Array.mem_toList_iff.2 (Array.mem_of_getElem? hi)

end Facts

/-! ## One visit -/

/-- Writing one set of the array leaves the others as they are. -/
theorem getD_setIfInBounds {sets : Array BitSet} {i : Nat} (hi : i < sets.size) (s : BitSet)
    (k : Nat) : (sets.setIfInBounds i s).getD k BitSet.empty =
      if i = k then s else sets.getD k BitSet.empty := by
  simp only [Array.getD_eq_getD_getElem?, Array.getElem?_setIfInBounds]
  by_cases h : i = k
  · subst h
    rw [if_pos rfl, if_pos rfl, if_pos hi]
    rfl
  · rw [if_neg h, if_neg h]

/-- Putting a list into the queue adds its members. -/
theorem mem_foldl_insert (ps : List Nat) (q : Std.TreeSet Nat) (k : Nat) :
    k ∈ ps.foldl (fun q p => q.insert p) q ↔ k ∈ q ∨ k ∈ ps := by
  induction ps generalizing q with
  | nil => simp
  | cons p ps ih =>
    rw [List.foldl_cons, ih, Std.TreeSet.mem_insert, Std.LawfulEqCmp.compare_eq_iff_eq,
      List.mem_cons]
    constructor
    · rintro ((rfl | h) | h)
      · exact Or.inr (Or.inl rfl)
      · exact Or.inl h
      · exact Or.inr (Or.inr h)
    · rintro (h | rfl | h)
      · exact Or.inl (Or.inr h)
      · exact Or.inl (Or.inl rfl)
      · exact Or.inr h

/-- Putting a list into the queue adds at most its length. -/
theorem size_foldl_insert_le (ps : List Nat) (q : Std.TreeSet Nat) :
    (ps.foldl (fun q p => q.insert p) q).size ≤ q.size + ps.length := by
  induction ps generalizing q with
  | nil => simp
  | cons p ps ih =>
    have h1 := ih (q.insert p)
    have h2 := Std.TreeSet.size_insert_le (t := q) (k := p)
    rw [List.foldl_cons, List.length_cons]
    omega

/-- What holds of the sets and the waiting statements between two visits. -/
structure Progress (fx : Facts) (n : Nat) (w : Work) : Prop where
  size_live : w.sets.live.size = n
  size_meet : w.sets.meet.size = n
  queue_lt : ∀ i ∈ w.queue, i < n
  ascending : ∀ i u, (w.sets.liveAt i).contains u = true →
    (transfer fx i (join fx w.sets i)).contains u = true
  bounded : ∀ i u, (w.sets.liveAt i).contains u = true → u ∈ reads fx
  solved : ∀ i < n, i ∉ w.queue → ∀ u,
    (w.sets.meetAt i).contains u = (join fx w.sets i).contains u ∧
      (w.sets.liveAt i).contains u = (transfer fx i (join fx w.sets i)).contains u

/-- What one visit does: the set of the statement becomes what the equations ask, no other set
changes, and if the set gained a register, then whoever could notice it waits. -/
structure Visited (fx : Facts) (i : Nat) (w w' : Work) : Prop where
  size_live : w'.sets.live.size = w.sets.live.size
  size_meet : w'.sets.meet.size = w.sets.meet.size
  live_self : ∀ u, (w'.sets.liveAt i).contains u = (transfer fx i (join fx w.sets i)).contains u
  live_other : ∀ k, k ≠ i → w'.sets.liveAt k = w.sets.liveAt k
  meet_self : w'.sets.meetAt i = join fx w.sets i
  meet_other : ∀ k, k ≠ i → w'.sets.meetAt k = w.sets.meetAt k
  mem_queue : ∀ k, k ∈ w'.queue → (k ∈ w.queue ∧ k ≠ i) ∨ k ∈ fx.flow.prevOf i
  queue_keeps : ∀ k, k ∈ w.queue → k ≠ i → k ∈ w'.queue
  outcome :
    (w'.sets.liveAt i = w.sets.liveAt i ∧ w'.queue.size + 1 = w.queue.size) ∨
      ((∃ u, (w'.sets.liveAt i).contains u ≠ (w.sets.liveAt i).contains u) ∧
        (∀ k ∈ fx.flow.prevOf i, k ∈ w'.queue) ∧
        w'.queue.size + 1 ≤ w.queue.size + (fx.flow.prevOf i).length)

/-- Taking a statement from the queue leaves the others. -/
theorem mem_erase_iff (q : Std.TreeSet Nat) (i k : Nat) : k ∈ q.erase i ↔ k ∈ q ∧ k ≠ i := by
  rw [Std.TreeSet.mem_erase, ne_eq, Std.LawfulEqCmp.compare_eq_iff_eq]
  constructor
  · exact fun h => ⟨h.2, fun hk => h.1 hk.symm⟩
  · exact fun h => ⟨fun hk => h.2 hk.symm, h.1⟩

/-- Taking a statement from the queue makes it shorter by one. -/
theorem size_erase_add_one {q : Std.TreeSet Nat} {i : Nat} (hi : i ∈ q) :
    (q.erase i).size + 1 = q.size := by
  have hpos : q.size ≠ 0 := by
    intro h0
    have hempty : q.isEmpty = true := by
      rw [Std.TreeSet.isEmpty_eq_size_eq_zero, h0]
      rfl
    exact Std.TreeSet.isEmpty_iff_forall_not_mem.1 hempty i hi
  rw [Std.TreeSet.size_erase, if_pos (Std.TreeSet.contains_iff_mem.2 hi)]
  omega

/-- What one visit does, said once: the two sets of its statement become the join and the
transfer, and the predecessors are queued if the live set changed. -/
theorem visited_visit (fx : Facts) {i : Nat} {w : Work} (hl : i < w.sets.live.size)
    (hm : i < w.sets.meet.size) (hi : i ∈ w.queue) : Visited fx i w (visit fx i w) := by
  have hq := size_erase_add_one hi
  by_cases hsame : (transfer fx i (join fx w.sets i)).sameMembers (w.sets.liveAt i) = true
  · -- the set is what it should be: only the meet is written
    have hv : visit fx i w =
        { sets := { w.sets with
            meet := w.sets.meet.setIfInBounds i (join fx w.sets i)
            steps := w.sets.steps + 1 }
          queue := w.queue.erase i } := by
      simp only [visit, if_pos hsame]
    rw [hv]
    rw [BitSet.sameMembers_iff] at hsame
    refine ⟨rfl, Array.size_setIfInBounds, fun u => (hsame u).symm, fun _ _ => rfl, ?_, fun k hk => ?_,
      fun k hk => Or.inl ((mem_erase_iff _ _ _).1 hk), fun k hk hne => ?_, Or.inl ⟨rfl, hq⟩⟩
    · exact (getD_setIfInBounds hm _ _).trans (if_pos rfl)
    · exact (getD_setIfInBounds hm _ _).trans (if_neg (Ne.symm hk))
    · exact (mem_erase_iff _ _ _).2 ⟨hk, hne⟩
  · have hv : visit fx i w =
        { sets := { live := w.sets.live.setIfInBounds i (transfer fx i (join fx w.sets i))
                    meet := w.sets.meet.setIfInBounds i (join fx w.sets i)
                    steps := w.sets.steps + 1 }
          queue := (fx.flow.prevOf i).foldl (fun q p => q.insert p) (w.queue.erase i) } := by
      simp only [visit, if_neg hsame]
    rw [hv]
    -- the set changes, and every predecessor waits
    have hself : (w.sets.live.setIfInBounds i (transfer fx i (join fx w.sets i))).getD i
        BitSet.empty = transfer fx i (join fx w.sets i) :=
      (getD_setIfInBounds hl _ _).trans (if_pos rfl)
    have hnew : ∃ u, (transfer fx i (join fx w.sets i)).contains u ≠
        (w.sets.liveAt i).contains u := by
      by_contra hno
      exact hsame ((BitSet.sameMembers_iff _ _).2 fun u => not_not.1 fun h => hno ⟨u, h⟩)
    refine ⟨Array.size_setIfInBounds, Array.size_setIfInBounds, fun u => ?_, fun k hk => ?_, ?_,
      fun k hk => ?_, fun k hk => ?_, fun k hk hne => ?_, Or.inr ⟨?_, fun k hk => ?_, ?_⟩⟩
    · exact congrArg (fun s : BitSet => s.contains u) hself
    · exact (getD_setIfInBounds hl _ _).trans (if_neg (Ne.symm hk))
    · exact (getD_setIfInBounds hm _ _).trans (if_pos rfl)
    · exact (getD_setIfInBounds hm _ _).trans (if_neg (Ne.symm hk))
    · exact ((mem_foldl_insert _ _ _).1 hk).imp_left (mem_erase_iff _ _ _).1
    · exact (mem_foldl_insert _ _ _).2 (Or.inl ((mem_erase_iff _ _ _).2 ⟨hk, hne⟩))
    · obtain ⟨u, hu⟩ := hnew
      exact ⟨u, fun h => hu ((congrArg (fun s : BitSet => s.contains u) hself).symm.trans h)⟩
    · exact (mem_foldl_insert _ _ _).2 (Or.inr hk)
    · have hle := size_foldl_insert_le (fx.flow.prevOf i) (w.queue.erase i)
      show (List.foldl (fun q p => q.insert p) (w.queue.erase i) (fx.flow.prevOf i)).size + 1 ≤ _
      omega

/-- A visit never takes away what is live. -/
theorem Visited.grows {fx : Facts} {n i : Nat} {w w' : Work} (v : Visited fx i w w')
    (p : Progress fx n w) (k u : Nat) (h : (w.sets.liveAt k).contains u = true) :
    (w'.sets.liveAt k).contains u = true := by
  by_cases hk : k = i
  · subst hk
    rw [v.live_self u]
    exact p.ascending k u h
  · rw [v.live_other k hk]
    exact h

section Solving

variable {vars : VarTable} {f : Func} {fl : Flow}

/-- A visit keeps the invariant of the worklist. -/
theorem progress_visit (d : Flow.Describes f fl) {i : Nat} {w w' : Work}
    (p : Progress (facts vars f fl) f.stmts.length w)
    (v : Visited (facts vars f fl) i w w') :
    Progress (facts vars f fl) f.stmts.length w' := by
  have hgrow := v.grows p
  refine ⟨v.size_live.trans p.size_live, v.size_meet.trans p.size_meet, fun k hk => ?_,
    fun k u hu => ?_, fun k u hu => ?_, fun k hk hout u => ?_⟩
  · rcases v.mem_queue k hk with ⟨hq, _⟩ | hp
    · exact p.queue_lt k hq
    · by_contra hge
      have hj := (d.mem_prevOf_iff k i).1 hp
      rw [d.nextOf_eq_nil (by omega)] at hj
      cases hj
  · -- the equations of `k` ask for no less than before the visit
    have hmono : ∀ x, (join (facts vars f fl) w.sets k).contains x = true →
        (join (facts vars f fl) w'.sets k).contains x = true := fun x => join_mono _ k hgrow
    by_cases hki : k = i
    · subst hki
      rw [v.live_self u] at hu
      exact transfer_mono _ k hmono hu
    · rw [v.live_other k hki] at hu
      exact transfer_mono _ k hmono (p.ascending k u hu)
  · by_cases hki : k = i
    · subst hki
      rw [v.live_self u, contains_transfer, contains_join] at hu
      rcases hu with huse | ⟨_, j, _, hj⟩
      · exact mem_reads huse
      · exact p.bounded j u hj
    · rw [v.live_other k hki] at hu
      exact p.bounded k u hu
  · -- a statement that does not wait has not seen any successor's set change
    have hjoin : join (facts vars f fl) w'.sets k = join (facts vars f fl) w.sets k := by
      apply join_congr
      intro j hj
      by_cases hji : j = i
      · subst hji
        rcases v.outcome with ⟨heq, _⟩ | ⟨_, hall, _⟩
        · exact heq
        · exact absurd (hall k ((d.mem_prevOf_iff k j).2 hj)) hout
      · exact v.live_other j hji
    rw [hjoin]
    by_cases hki : k = i
    · subst hki
      exact ⟨by rw [v.meet_self], v.live_self u⟩
    · rw [v.meet_other k hki, v.live_other k hki]
      exact p.solved k hk (fun hq => hout (v.queue_keeps k hq hki)) u

/-! ## The worklist empties -/

/-- How many times statements can still be taken: those that wait, and for each statement its
predecessors once for each register that its set can still gain. -/
def potential (fx : Facts) (n : Nat) (w : Work) : Nat :=
  w.queue.size +
    ∑ i ∈ Finset.range n, (fx.flow.prevOf i).length * ((reads fx).length - (w.sets.liveAt i).size)

/-- A live set has at most as many members as there are reads in the function. -/
theorem size_le_reads {fx : Facts} {n : Nat} {w : Work} (p : Progress fx n w) (i : Nat) :
    (w.sets.liveAt i).size ≤ (reads fx).length := by
  have hsub : (w.sets.liveAt i).toList ⊆ reads fx := fun u hu =>
    p.bounded i u ((BitSet.mem_toList _ _).1 hu)
  rw [BitSet.size_eq_length]
  exact ((BitSet.nodup_toList _).subperm hsub).length_le

/-- A set that gained a member and lost none is larger. -/
theorem size_lt_of_grows {s t : BitSet} (hsub : ∀ u, s.contains u = true → t.contains u = true)
    {u : Nat} (hs : s.contains u = false) (ht : t.contains u = true) : s.size < t.size := by
  have hnot : u ∉ s.toList := fun h => by
    rw [(BitSet.mem_toList s u).1 h] at hs
    cases hs
  -- The new member stands in front of the old ones.
  have hnd : (u :: s.toList).Nodup := List.nodup_cons.2 ⟨hnot, BitSet.nodup_toList s⟩
  have hmem : u :: s.toList ⊆ t.toList := by
    intro v hv
    rcases List.mem_cons.1 hv with rfl | h
    · exact (BitSet.mem_toList t v).2 ht
    · exact (BitSet.mem_toList t v).2 (hsub v ((BitSet.mem_toList s v).1 h))
  have hle := (hnd.subperm hmem).length_le
  rw [List.length_cons] at hle
  rw [BitSet.size_eq_length, BitSet.size_eq_length]
  omega

/-- A visit lowers the potential: it takes one waiting statement away, and lets predecessors wait
only when the set gained a register. -/
theorem potential_visit_lt {fx : Facts} {n i : Nat} {w w' : Work} (p : Progress fx n w)
    (p' : Progress fx n w') (v : Visited fx i w w') (hi : i < n) :
    potential fx n w' < potential fx n w := by
  have hmem : i ∈ Finset.range n := Finset.mem_range.2 hi
  -- only the term of statement `i` can change
  have hothers : ∑ k ∈ (Finset.range n).erase i, (fx.flow.prevOf k).length *
        ((reads fx).length - (w'.sets.liveAt k).size) =
      ∑ k ∈ (Finset.range n).erase i, (fx.flow.prevOf k).length *
        ((reads fx).length - (w.sets.liveAt k).size) :=
    Finset.sum_congr rfl fun k hk => by rw [v.live_other k (Finset.ne_of_mem_erase hk)]
  unfold potential
  rw [← Finset.add_sum_erase _ _ hmem, ← Finset.add_sum_erase _ _ hmem, hothers]
  rcases v.outcome with ⟨heq, hq⟩ | ⟨⟨u, hu⟩, _, hq⟩
  · rw [heq]
    omega
  · have hgain : (w.sets.liveAt i).size < (w'.sets.liveAt i).size := by
      cases hold : (w.sets.liveAt i).contains u with
      | true => exact absurd ((v.grows p i u hold).trans hold.symm) hu
      | false =>
        refine size_lt_of_grows (v.grows p i) hold ?_
        rw [hold] at hu
        simpa using hu
    have hle := size_le_reads p' i
    -- one register less to gain pays for all the predecessors that wait now
    have hterm : (fx.flow.prevOf i).length * ((reads fx).length - (w'.sets.liveAt i).size) +
          (fx.flow.prevOf i).length ≤
        (fx.flow.prevOf i).length * ((reads fx).length - (w.sets.liveAt i).size) := by
      rw [← Nat.mul_succ]
      exact Nat.mul_le_mul_left _ (by omega)
    omega

/-- With as many steps as the potential, the worklist is emptied. -/
theorem progress_solve (d : Flow.Describes f fl) : ∀ (fuel : Nat) {w : Work},
    Progress (facts vars f fl) f.stmts.length w →
      potential (facts vars f fl) f.stmts.length w ≤ fuel →
      Progress (facts vars f fl) f.stmts.length (solve (facts vars f fl) fuel w) ∧
        ∀ i, i ∉ (solve (facts vars f fl) fuel w).queue := by
  intro fuel
  -- On the fuel; a visit costs one and lowers the potential by one at least.
  induction fuel with
  | zero =>
    intro w p hle
    refine ⟨p, fun i hi => ?_⟩
    -- a potential of `0` leaves nothing waiting
    have h0 : w.queue.size = 0 := by
      unfold potential at hle
      omega
    have hpos := size_erase_add_one (q := w.queue) hi
    omega
  | succ fuel ih =>
    intro w p hle
    rw [solve]
    cases hmax : w.queue.max? with
    | none =>
      refine ⟨p, fun i hi => ?_⟩
      rw [Std.TreeSet.max?_eq_none_iff] at hmax
      exact Std.TreeSet.isEmpty_iff_forall_not_mem.1 hmax i hi
    | some i =>
      obtain ⟨hi, _⟩ := Std.TreeSet.max?_eq_some_iff_mem_and_forall.1 hmax
      have hlt := p.queue_lt i hi
      have v := visited_visit (facts vars f fl) (by rw [p.size_live]; exact hlt)
        (by rw [p.size_meet]; exact hlt) hi
      have p' := progress_visit d p v
      have hdown := potential_visit_lt p p' v hlt
      exact ih p' (by omega)

/-! ## The start and the bound -/

theorem liveAt_start (n i : Nat) : (start n).sets.liveAt i = BitSet.empty := by
  simp only [start, liveAt, Array.getD_eq_getD_getElem?, Array.getElem?_replicate]
  split <;> rfl

/-- The invariant holds at the start, when every statement is queued. -/
theorem progress_start :
    Progress (facts vars f fl) f.stmts.length (start f.stmts.length) := by
  refine ⟨by simp [start], by simp [start], fun i hi => ?_, fun i u hu => ?_, fun i u hu => ?_,
    fun i hi hout => ?_⟩
  · simpa [start, mem_foldl_insert] using hi
  · rw [liveAt_start, BitSet.contains_empty] at hu
    cases hu
  · rw [liveAt_start, BitSet.contains_empty] at hu
    cases hu
  · exact absurd ((mem_foldl_insert _ _ _).2 (Or.inr (List.mem_range.2 hi))) hout

/-- Adding up lengths gives the length of the lists put together. -/
theorem foldl_add_length {α : Type} (xs : List (List α)) (acc : Nat) :
    xs.foldl (fun acc x => acc + x.length) acc = acc + xs.flatten.length := by
  induction xs generalizing acc with
  | nil => simp
  | cons x xs ih =>
    rw [List.foldl_cons, ih, List.flatten_cons, List.length_append]
    omega

/-- The same as a sum over positions. -/
theorem sum_getD_length {α : Type} (xs : List (List α)) :
    ∑ i ∈ Finset.range xs.length, (xs.getD i []).length = xs.flatten.length := by
  induction xs with
  | nil => simp
  | cons x xs ih =>
    rw [List.length_cons, Finset.sum_range_succ', List.flatten_cons, List.length_append]
    simp only [List.getD_cons_succ, List.getD_cons_zero]
    rw [ih]
    omega

/-- The fuel covers the potential at the start, so it never runs out. -/
theorem potential_start_le (d : Flow.Describes f fl) :
    potential (facts vars f fl) f.stmts.length (start f.stmts.length) ≤
      enough (facts vars f fl) := by
  have hqueue : (start f.stmts.length).queue.size ≤ f.stmts.length := by
    have := size_foldl_insert_le (List.range f.stmts.length) {}
    simpa [start] using this
  have hsize : (BitSet.empty).size = 0 := rfl
  have hreads : (facts vars f fl).uses.foldl (fun acc us => acc + us.length) 0 =
      (reads (facts vars f fl)).length := by
    rw [← Array.foldl_toList, foldl_add_length, Nat.zero_add]
    rfl
  have hprev : ∀ i, fl.prevOf i = fl.prev.toList.getD i [] := fun i => by
    rw [Flow.prevOf, List.getD_eq_getElem?_getD, Array.getD_eq_getD_getElem?, Array.getElem?_toList]
  have hedges : fl.prev.foldl (fun acc ps => acc + ps.length) 0 =
      ∑ i ∈ Finset.range f.stmts.length, (fl.prevOf i).length := by
    have hlen : fl.prev.toList.length = f.stmts.length := by
      rw [Array.length_toList, d.size_prev]
    rw [← Array.foldl_toList, foldl_add_length, Nat.zero_add, ← sum_getD_length, hlen]
    exact Finset.sum_congr rfl fun i _ => by rw [hprev i]
  -- all sets are empty, so every statement still has all of the reads to gain
  have hsum : ∑ i ∈ Finset.range f.stmts.length, (fl.prevOf i).length *
        ((reads (facts vars f fl)).length -
          ((start f.stmts.length).sets.liveAt i).size) =
      (reads (facts vars f fl)).length * fl.prev.foldl (fun acc ps => acc + ps.length) 0 := by
    rw [hedges, Finset.mul_sum]
    exact Finset.sum_congr rfl fun i _ => by
      rw [liveAt_start, hsize, Nat.sub_zero, Nat.mul_comm]
  have hdefs : (facts vars f fl).defs.size = f.stmts.length := by simp [facts]
  unfold potential enough
  simp only [hdefs, hreads]
  show _ + ∑ i ∈ Finset.range f.stmts.length, (fl.prevOf i).length * _ ≤
    f.stmts.length + _ * fl.prev.foldl _ 0 + 1
  rw [hsum]
  omega

/-! ## The solution -/

/-- The liveness equations at every statement, as facts about members. -/
structure Solution (vars : VarTable) (f : Func) (fl : Flow) (l : Liveness) : Prop where
  size_live : l.live.size = f.stmts.length
  size_meet : l.meet.size = f.stmts.length
  meet_iff : ∀ i u, (l.meetAt i).contains u = true ↔
    ∃ j ∈ fl.nextOf i, (l.liveAt j).contains u = true
  live_iff : ∀ i s, f.stmts[i]? = some s → ∀ u, (l.liveAt i).contains u = true ↔
    u ∈ s.uses vars ∨ (u ∉ s.defs vars ∧ (l.meetAt i).contains u = true)
  /-- Only registers that some statement reads are ever live. -/
  live_read : ∀ i u, (l.liveAt i).contains u = true → ∃ s ∈ f.stmts, u ∈ s.uses vars

/-- Once nothing waits the sets solve the equations. -/
theorem Progress.solution (d : Flow.Describes f fl) {w : Work}
    (p : Progress (facts vars f fl) f.stmts.length w) (hdone : ∀ i, i ∉ w.queue) :
    Solution vars f fl w.sets := by
  refine ⟨p.size_live, p.size_meet, fun i u => ?_, fun i s hs u => ?_, fun i u hu => ?_⟩
  · by_cases hi : i < f.stmts.length
    · rw [(p.solved i hi (hdone i) u).1, contains_join]
      rfl
    · -- beyond the last statement both sides are empty
      have hmeet : Liveness.meetAt w.sets i = BitSet.empty := by
        have := p.size_meet
        rw [meetAt, Array.getD_eq_getD_getElem?, Array.getElem?_eq_none (by omega)]
        rfl
      rw [hmeet, d.nextOf_eq_nil (by omega)]
      simp
  · obtain ⟨hi, _⟩ := List.getElem?_eq_some_iff.1 hs
    obtain ⟨hmeet, hlive⟩ := p.solved i hi (hdone i) u
    rw [hlive, contains_transfer, ← hmeet, uses_facts, defs_facts, hs]
    rfl
  · have hread := p.bounded i u hu
    obtain ⟨us, hus, hmem⟩ := List.mem_flatten.1 hread
    simp only [facts, List.mem_map] at hus
    obtain ⟨s, hs, rfl⟩ := hus
    exact ⟨s, hs, hmem⟩

/-- The computed sets solve the equations. -/
theorem solution_analyze (vars : VarTable) (d : Flow.Describes f fl) :
    Solution vars f fl (analyze vars f fl) := by
  obtain ⟨p, hdone⟩ := progress_solve d (enough (facts vars f fl)) progress_start
    (potential_start_le d)
  exact p.solution d hdone

end Solving

/-! ## Evaluation

The kernel cannot compute the largest element of a tree, which is found by well-founded recursion,
but it can compute the last element of its list. -/

/-- The worklist with the next statement read off the list of those that wait. -/
def solveList (fx : Facts) : Nat → Work → Work
  | 0, w => w
  | fuel + 1, w =>
    match w.queue.toList.getLast? with
    | none => w
    | some i => solveList fx fuel (visit fx i w)

/-- Taking the least statement of the queue is one way to choose. -/
theorem solve_eq_solveList (fx : Facts) (fuel : Nat) (w : Work) :
    solve fx fuel w = solveList fx fuel w := by
  induction fuel generalizing w with
  | zero => rfl
  | succ fuel ih =>
    rw [solve, solveList, Std.TreeSet.max?_eq_getLast?_toList]
    cases w.queue.toList.getLast? with
    | none => rfl
    | some i => exact ih _

/-- The analysis is the general worklist with that choice. -/
theorem analyze_eq_solveList (vars : VarTable) (f : Func) (flow : Flow) :
    analyze vars f flow = (solveList (facts vars f flow) (enough (facts vars f flow))
      (start f.stmts.length)).sets := by
  rw [analyze, solve_eq_solveList]

end Tac.Liveness
