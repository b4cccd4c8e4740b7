import Mathlib
import Tac.Flow
import Tac.Proofs.BitSet

/-!
# What control flow says

The flow of a function is computed by folds over its statements.  This module states what the
results mean, in the terms that the analyses and the lowering proofs use.

* **`getElem?_lastTable`** — a table filled by insertion in order holds the *last* position of each
  label; it serves statements here and instructions in the machine.
* **`Describes`** — the flow of a function: labels, one successor list for each statement, and the
  predecessor lists; `describes_of_connect` says that `connect` returns exactly that.
* **`mem_prevOf_iff`** — predecessors are successors turned around.
* **`Reaches`** — paths from the entry; `contains_reachable_iff` says that the search finds exactly
  the statements on such paths.  The search may stop at its step bound, so the proof carries a
  count: steps left and statements done always sum to the number of statements.
-/

namespace Tac

/-- The label that a statement may jump to. -/
def Stmt.target? : Stmt → Option Int
  | .jump l | .branch _ _ _ l => some l
  | _ => none

/-! ## Tables of last positions -/

/-- The table of the last position of each label, where `key` gives the label that an element
defines, if any. -/
def lastTable {α : Type} (key : α → Option Int) (xs : List α) : Std.TreeMap Int Nat :=
  xs.zipIdx.foldl (fun m p => match key p.1 with | some l => m.insert l p.2 | none => m) {}

/-- The last entry of a list wins. -/
theorem lastTable_concat {α : Type} (key : α → Option Int) (xs : List α) (x : α) :
    lastTable key (xs ++ [x]) =
      match key x with
      | some l => (lastTable key xs).insert l xs.length
      | none => lastTable key xs := by
  unfold lastTable
  rw [List.zipIdx_append, List.foldl_append]
  simp only [List.zipIdx_singleton, List.foldl_cons, List.foldl_nil, Nat.zero_add]

/-- A position is in the table exactly when it defines the label and no later one does. -/
theorem getElem?_lastTable {α : Type} (key : α → Option Int) (xs : List α) (l : Int) (j : Nat) :
    (lastTable key xs)[l]? = some j ↔
      xs[j]?.bind key = some l ∧ ∀ k, j < k → xs[k]?.bind key ≠ some l := by
  -- From the back, since later entries win over earlier ones.
  induction xs using List.reverseRecOn with
  | nil => simp [lastTable]
  | append_singleton xs x ih =>
    rw [lastTable_concat]
    -- positions of `xs ++ [x]`: those of `xs`, the new last one, and none beyond
    have hbelow : ∀ k, k < xs.length → (xs ++ [x])[k]? = xs[k]? := fun k hk =>
      List.getElem?_append_left hk
    have hlast : (xs ++ [x])[xs.length]? = some x := by simp
    have hbeyond : ∀ k, xs.length < k → (xs ++ [x])[k]? = none := fun k hk =>
      List.getElem?_eq_none (by simp; omega)
    have hout : ∀ k, xs.length ≤ k → xs[k]? = none := fun k hk => List.getElem?_eq_none hk
    by_cases hx : key x = some l
    · rw [hx]
      simp only [Std.TreeMap.getElem?_insert_self, Option.some.injEq]
      constructor
      · rintro rfl
        refine ⟨by rw [hlast]; exact hx, fun k hk => ?_⟩
        rw [hbeyond k hk]
        simp
      · rintro ⟨hj, hno⟩
        rcases Nat.lt_trichotomy j xs.length with hlt | heq | hgt
        · exact absurd (by rw [hlast]; exact hx) (hno xs.length hlt)
        · exact heq.symm
        · rw [hbeyond j hgt] at hj
          cases hj
    · have htable : (match key x with
          | some l' => (lastTable key xs).insert l' xs.length
          | none => lastTable key xs)[l]? = (lastTable key xs)[l]? := by
        cases hk : key x with
        | none => rfl
        | some l' =>
          have hne : l' ≠ l := fun h => hx (by rw [hk, h])
          simp only [Std.TreeMap.getElem?_insert, Std.LawfulEqCmp.compare_eq_iff_eq, hne, if_false]
      rw [htable, ih]
      have hsame : ∀ k : Nat, (xs ++ [x])[k]?.bind key = some l ↔ xs[k]?.bind key = some l := by
        intro k
        rcases Nat.lt_trichotomy k xs.length with hlt | heq | hgt
        · rw [hbelow k hlt]
        · subst heq
          rw [hlast, hout _ (Nat.le_refl _)]
          simp [hx]
        · rw [hbeyond k hgt, hout k (by omega)]
      simp only [hsame, ne_eq]

/-- The label that a statement defines. -/
def Stmt.label? : Stmt → Option Int
  | .label l => some l
  | _ => none

namespace Flow

/-- The table of labels as a table in which the last entry wins. -/
theorem labelTable_eq (stmts : List Stmt) : labelTable stmts = lastTable Stmt.label? stmts := by
  unfold labelTable lastTable
  congr 1
  funext m p
  obtain ⟨s, i⟩ := p
  cases s <;> rfl

theorem label?_eq_some_iff (s : Stmt) (l : Int) : s.label? = some l ↔ s = .label l := by
  cases s <;> simp [Stmt.label?]

/-- A label stands for the last statement that defines it. -/
theorem getElem?_labelTable (stmts : List Stmt) (l : Int) (j : Nat) :
    (labelTable stmts)[l]? = some j ↔
      stmts[j]? = some (.label l) ∧ ∀ k, j < k → stmts[k]? ≠ some (.label l) := by
  have hiff : ∀ k : Nat, stmts[k]?.bind Stmt.label? = some l ↔ stmts[k]? = some (Stmt.label l) := by
    intro k
    cases stmts[k]? with
    | none => simp
    | some s => simp [label?_eq_some_iff]
  rw [labelTable_eq, getElem?_lastTable]
  simp only [hiff, ne_eq]

/-! ## Successors -/

theorem mem_following_iff (n i j : Nat) : j ∈ following n i ↔ j = i + 1 ∧ i + 1 < n := by
  unfold following
  split <;> simp <;> omega

/-- What is known of the successors if all of them were found. -/
theorem successorsFrom_ok {labels : Std.TreeMap Int Nat} {n : Nat} {ss : List Stmt} :
    ∀ {i : Nat} {next : List (List Nat)}, successorsFrom labels n i ss = .ok next →
      next.length = ss.length ∧
        ∀ k s, ss[k]? = some s →
          ∃ js, successors labels n (i + k) s = .ok js ∧ next[k]? = some js := by
  -- On the statements, with the position of the first.
  induction ss with
  | nil =>
    intro i next h
    cases h
    exact ⟨rfl, fun k s hk => by simp at hk⟩
  | cons s ss ih =>
    intro i next h
    rw [successorsFrom] at h
    split at h
    · cases h
    · next js hjs =>
      split at h
      · cases h
      · next rest hrest =>
        cases h
        obtain ⟨hlen, hget⟩ := ih hrest
        refine ⟨by simp [hlen], fun k t hk => ?_⟩
        -- position `0` is this statement, the later ones are positions of the rest from `i + 1` on
        cases k with
        | zero =>
          obtain rfl : s = t := by simpa using hk
          exact ⟨js, hjs, rfl⟩
        | succ k =>
          obtain ⟨ks, hks, hn⟩ := hget k t (by simpa using hk)
          exact ⟨ks, by rwa [show i + (k + 1) = i + 1 + k by omega], by simpa using hn⟩

/-- The successors are found if those of each statement are. -/
theorem exists_successorsFrom {labels : Std.TreeMap Int Nat} {n : Nat} {ss : List Stmt} :
    ∀ {i : Nat}, (∀ k s, ss[k]? = some s → ∃ js, successors labels n (i + k) s = .ok js) →
      ∃ next, successorsFrom labels n i ss = .ok next := by
  induction ss with
  | nil => exact fun _ => ⟨[], rfl⟩
  | cons s ss ih =>
    intro i h
    obtain ⟨js, hjs⟩ := h 0 s rfl
    obtain ⟨rest, hrest⟩ := ih (i := i + 1) fun k t hk => by
      rw [Nat.add_assoc, Nat.add_comm 1 k]
      exact h (k + 1) t (by simpa using hk)
    rw [Nat.add_zero] at hjs
    exact ⟨js :: rest, by rw [successorsFrom, hjs, hrest]⟩

/-- A function has a flow when each of its statements has successors. -/
theorem exists_connect {f : Func} (h : ∀ i s, f.stmts[i]? = some s →
    ∃ js, successors (labelTable f.stmts) f.stmts.length i s = .ok js) :
    ∃ fl, connect f = .ok fl := by
  obtain ⟨next, hnext⟩ := exists_successorsFrom (i := 0) fun k s hk => by
    rw [Nat.zero_add]
    exact h k s hk
  unfold connect
  simp only
  rw [hnext]
  exact ⟨_, rfl⟩

/-- The flow of a function: one list of successors for each statement, and these turned around. -/
structure Describes (f : Func) (fl : Flow) : Prop where
  labels_eq : fl.labels = labelTable f.stmts
  size_next : fl.next.size = f.stmts.length
  successors_eq : ∀ i s, f.stmts[i]? = some s →
    successors fl.labels f.stmts.length i s = .ok (fl.nextOf i)
  prev_eq : fl.prev = predecessors fl.next.toList

/-- The flow that is computed describes the function: its successors are those of the
statements, and its labels are where they stand. -/
theorem describes_of_connect {f : Func} {fl : Flow} (h : connect f = .ok fl) : Describes f fl := by
  unfold connect at h
  simp only at h
  split at h
  · cases h
  · next next hnext =>
    cases h
    obtain ⟨hlen, hget⟩ := successorsFrom_ok hnext
    refine ⟨rfl, by simpa using hlen, fun i s hs => ?_, by simp⟩
    obtain ⟨js, hjs, hn⟩ := hget i s hs
    rw [Nat.zero_add] at hjs
    simp only [nextOf, Array.getD_eq_getD_getElem?, List.getElem?_toArray, hn]
    exact hjs

namespace Describes

variable {f : Func} {fl : Flow}

/-- Behind the last statement nothing follows. -/
theorem nextOf_eq_nil (d : Describes f fl) {i : Nat} (h : f.stmts.length ≤ i) :
    fl.nextOf i = [] := by
  have := d.size_next
  rw [nextOf, Array.getD_eq_getD_getElem?, Array.getElem?_eq_none (by omega)]
  rfl

/-- A jump can only go to the statement of its label. -/
theorem label_of_jump (d : Describes f fl) {i : Nat} {l : Int}
    (hs : f.stmts[i]? = some (.jump l)) :
    ∃ j, fl.labels[l]? = some j ∧ fl.nextOf i = [j] := by
  have h := d.successors_eq i _ hs
  rw [successors] at h
  split at h
  · next j hj => exact ⟨j, hj, (Except.ok.inj h).symm⟩
  · cases h

/-- A conditional jump goes to the statement of its label or falls through. -/
theorem label_of_branch (d : Describes f fl) {i : Nat} {x y : Val} {rel : Rel} {l : Int}
    (hs : f.stmts[i]? = some (.branch x rel y l)) :
    ∃ j, fl.labels[l]? = some j ∧ fl.nextOf i = j :: following f.stmts.length i := by
  have h := d.successors_eq i _ hs
  rw [successors] at h
  split at h
  · next j hj => exact ⟨j, hj, (Except.ok.inj h).symm⟩
  · cases h

/-- A label of the table stands where the table says. -/
theorem stmt_of_label (d : Describes f fl) {l : Int} {j : Nat} (h : fl.labels[l]? = some j) :
    f.stmts[j]? = some (.label l) := by
  rw [d.labels_eq] at h
  exact ((getElem?_labelTable _ _ _).1 h).1

/-- The table of labels stays inside the function. -/
theorem lt_of_label (d : Describes f fl) {l : Int} {j : Nat} (h : fl.labels[l]? = some j) :
    j < f.stmts.length := by
  obtain ⟨hlt, _⟩ := List.getElem?_eq_some_iff.1 (d.stmt_of_label h)
  exact hlt

/-- Successors stay inside the function. -/
theorem lt_of_mem_nextOf (d : Describes f fl) {i j : Nat} (h : j ∈ fl.nextOf i) :
    j < f.stmts.length := by
  by_cases hi : i < f.stmts.length
  · have hs := List.getElem?_eq_getElem hi
    have hok := d.successors_eq i _ hs
    -- the statement decides whether `j` is a label's statement or the one that follows
    cases hst : f.stmts[i] with
    | jump l =>
      obtain ⟨k, hk, hn⟩ := d.label_of_jump (by rw [hs, hst])
      rw [hn, List.mem_singleton] at h
      exact h ▸ d.lt_of_label hk
    | branch x rel y l =>
      obtain ⟨k, hk, hn⟩ := d.label_of_branch (by rw [hs, hst])
      rw [hn, List.mem_cons, mem_following_iff] at h
      rcases h with rfl | ⟨rfl, hlt⟩
      · exact d.lt_of_label hk
      · exact hlt
    | ret v =>
      rw [hst] at hok
      rw [← Except.ok.inj hok] at h
      cases h
    | binary | unary | move | store | load | label | call | zeroFill =>
      rw [hst] at hok
      rw [← Except.ok.inj hok, mem_following_iff] at h
      omega
  · rw [d.nextOf_eq_nil (by omega)] at h
    cases h

end Describes

/-! ## Predecessors -/

/-- Entering one statement as a predecessor of several. -/
theorem mem_foldl_modify (js : List Nat) (i k x : Nat) (acc : Array (List Nat)) :
    (js.foldl (fun acc j => acc.modify j (i :: ·)) acc).size = acc.size ∧
      (x ∈ (js.foldl (fun acc j => acc.modify j (i :: ·)) acc).getD k [] ↔
        x ∈ acc.getD k [] ∨ (x = i ∧ k ∈ js ∧ k < acc.size)) := by
  induction js generalizing acc with
  | nil => simp
  | cons j js ih =>
    rw [List.foldl_cons]
    obtain ⟨hsize, hmem⟩ := ih (acc.modify j (i :: ·))
    refine ⟨by rw [hsize, Array.size_modify], ?_⟩
    rw [hmem, Array.size_modify]
    simp only [Array.getD_eq_getD_getElem?, Array.getElem?_modify, List.mem_cons]
    -- an update out of range changes nothing, hence the bound on the right-hand side
    by_cases hjk : j = k
    · subst hjk
      by_cases hlt : j < acc.size
      · rw [if_pos rfl, Array.getElem?_eq_getElem hlt]
        simp only [Option.map_some, Option.getD_some, List.mem_cons]
        grind
      · rw [if_pos rfl, Array.getElem?_eq_none (by omega)]
        simp [hlt]
    · rw [if_neg hjk]
      have hne : k ≠ j := fun h => hjk h.symm
      simp only [hne, false_or]

/-- Entering all statements as predecessors of their successors. -/
theorem mem_foldl_predecessors (ps : List (List Nat × Nat)) (k x : Nat) (acc : Array (List Nat)) :
    (ps.foldl (fun acc (js, i) => js.foldl (fun acc j => acc.modify j (i :: ·)) acc) acc).size =
        acc.size ∧
      (x ∈ (ps.foldl (fun acc (js, i) => js.foldl (fun acc j => acc.modify j (i :: ·)) acc)
          acc).getD k [] ↔
        x ∈ acc.getD k [] ∨ ∃ js, (js, x) ∈ ps ∧ k ∈ js ∧ k < acc.size) := by
  -- On the statements; `mem_foldl_modify` says what each of them enters.
  induction ps generalizing acc with
  | nil => simp
  | cons p ps ih =>
    obtain ⟨js, i⟩ := p
    rw [List.foldl_cons]
    obtain ⟨hsize, hmem⟩ := ih (js.foldl (fun acc j => acc.modify j (i :: ·)) acc)
    obtain ⟨hsize', hmem'⟩ := mem_foldl_modify js i k x acc
    refine ⟨by rw [hsize, hsize'], ?_⟩
    rw [hmem, hmem', hsize']
    constructor
    · rintro ((h | ⟨rfl, hk, hlt⟩) | ⟨ks, hks, hk, hlt⟩)
      · exact Or.inl h
      · exact Or.inr ⟨js, List.mem_cons_self, hk, hlt⟩
      · exact Or.inr ⟨ks, List.mem_cons_of_mem _ hks, hk, hlt⟩
    · rintro (h | ⟨ks, hks, hk, hlt⟩)
      · exact Or.inl (Or.inl h)
      · rcases List.mem_cons.1 hks with heq | htail
        · obtain ⟨rfl, rfl⟩ := Prod.mk.inj heq
          exact Or.inl (Or.inr ⟨rfl, hk, hlt⟩)
        · exact Or.inr ⟨ks, htail, hk, hlt⟩

/-- Predecessors are successors turned around. -/
theorem mem_predecessors_iff (next : List (List Nat)) (i j : Nat) :
    i ∈ (predecessors next).getD j [] ↔ j < next.length ∧ j ∈ next.getD i [] := by
  obtain ⟨hsize, hmem⟩ := mem_foldl_predecessors next.zipIdx j i (Array.replicate next.length [])
  -- the final reversal of each list does not change its members
  have hrev : i ∈ (predecessors next).getD j [] ↔
      i ∈ (next.zipIdx.foldl
        (fun acc (js, i) => js.foldl (fun acc j => acc.modify j (i :: ·)) acc)
        (Array.replicate next.length [])).getD j [] := by
    simp only [predecessors, Array.getD_eq_getD_getElem?, Array.getElem?_map]
    cases (next.zipIdx.foldl (fun acc (js, i) => js.foldl (fun acc j => acc.modify j (i :: ·)) acc)
      (Array.replicate next.length []))[j]? <;> simp
  have hstart : (Array.replicate next.length ([] : List Nat)).getD j [] = [] := by
    simp only [Array.getD_eq_getD_getElem?, Array.getElem?_replicate]
    split <;> rfl
  rw [hrev, hmem, hstart, Array.size_replicate]
  simp only [List.not_mem_nil, false_or, List.mem_zipIdx_iff_getElem?]
  constructor
  · rintro ⟨js, hjs, hj, hlt⟩
    exact ⟨hlt, by simpa [List.getD_eq_getElem?_getD, hjs] using hj⟩
  · rintro ⟨hlt, hj⟩
    rw [List.getD_eq_getElem?_getD] at hj
    cases hn : next[i]? with
    | none =>
      rw [hn] at hj
      cases hj
    | some js =>
      rw [hn] at hj
      exact ⟨js, rfl, hj, hlt⟩

/-- Predecessors and successors are converse to each other. -/
theorem Describes.mem_prevOf_iff {f : Func} {fl : Flow} (d : Describes f fl) (i j : Nat) :
    i ∈ fl.prevOf j ↔ j ∈ fl.nextOf i := by
  have hnext : fl.next.toList.getD i [] = fl.nextOf i := by
    rw [nextOf, List.getD_eq_getElem?_getD, Array.getD_eq_getD_getElem?, Array.getElem?_toList]
  rw [prevOf, d.prev_eq, mem_predecessors_iff, hnext]
  constructor
  · exact fun h => h.2
  · intro h
    have := d.lt_of_mem_nextOf h
    have := d.size_next
    exact ⟨by simp; omega, h⟩

/-- Every statement has an entry for its predecessors. -/
theorem Describes.size_prev {f : Func} {fl : Flow} (d : Describes f fl) :
    fl.prev.size = f.stmts.length := by
  rw [d.prev_eq, predecessors]
  simp only [Array.size_map]
  rw [(mem_foldl_predecessors _ 0 0 _).1, Array.size_replicate, Array.length_toList, d.size_next]

/-! ## Reachability

The search takes one statement from the waiting ones in each step and lets those of its successors
wait that were not seen before.  Three facts hold throughout: waiting statements are seen, seen
statements are on a path from the entry, and the successors of a statement that was seen and waits
no more are seen.  When nothing waits, the last fact says that the seen statements are closed under
successors. -/

/-- The statements on paths from the entry. -/
inductive Reaches (fl : Flow) : Nat → Prop where
  | entry (h : fl.next.isEmpty = false) : Reaches fl 0
  | step {i j : Nat} (hi : Reaches fl i) (hj : j ∈ fl.nextOf i) : Reaches fl j

/-- The state of the search between two steps. -/
structure Searching (fl : Flow) (work : List Nat) (seen : BitSet) : Prop where
  nodup : work.Nodup
  seen_of_mem : ∀ i ∈ work, seen.contains i = true
  sound : ∀ i, seen.contains i = true → fl.Reaches i
  closed : ∀ i, seen.contains i = true → i ∉ work →
    ∀ j ∈ fl.nextOf i, seen.contains j = true

/-- Letting unseen successors wait: the new waiting list and the new seen set. -/
def enqueue (js : List Nat) (work : List Nat) (seen : BitSet) : List Nat × BitSet :=
  js.foldl
    (fun (work, seen) j => if seen.contains j then (work, seen) else (j :: work, seen.insert j))
    (work, seen)

/-- What queueing successors does: all of them are seen, nothing seen is lost, and exactly the
newly seen ones wait in addition. -/
structure Queued (js work : List Nat) (seen : BitSet) (work' : List Nat) (seen' : BitSet) :
    Prop where
  nodup : work'.Nodup
  mem_iff : ∀ k, k ∈ work' ↔ k ∈ work ∨ (k ∈ js ∧ seen.contains k = false)
  contains_iff : ∀ k, seen'.contains k = true ↔ seen.contains k = true ∨ k ∈ js
  size_eq : seen'.size + work.length = seen.size + work'.length

section Queueing

variable {j : Nat} {js work work' : List Nat} {seen seen' : BitSet}

/-- What was seen before neither waits nor is seen in addition. -/
theorem Queued.skip (h : Queued js work seen work' seen') (hj : seen.contains j = true) :
    Queued (j :: js) work seen work' seen' := by
  refine ⟨h.nodup, fun k => ?_, fun k => ?_, h.size_eq⟩
  · rw [h.mem_iff, List.mem_cons]
    refine or_congr Iff.rfl (and_congr_left fun h0 => (or_iff_right ?_).symm)
    rintro rfl
    rw [hj] at h0
    cases h0
  · rw [h.contains_iff, List.mem_cons, or_left_comm]
    refine (or_iff_right_of_imp ?_).symm
    rintro rfl
    exact Or.inl hj

/-- What is new waits and is seen, so both counts grow by one. -/
theorem Queued.push (h : Queued js (j :: work) (seen.insert j) work' seen')
    (hj : seen.contains j = false) : Queued (j :: js) work seen work' seen' := by
  refine ⟨h.nodup, fun k => ?_, fun k => ?_, ?_⟩
  · rw [h.mem_iff, BitSet.contains_insert, List.mem_cons, List.mem_cons]
    -- The index itself, or one that was seen before or comes later.
    by_cases hk : k = j
    · subst hk
      simp [hj]
    · simp [hk]
  · rw [h.contains_iff, BitSet.contains_insert, List.mem_cons]
    by_cases hk : k = j
    · subst hk
      simp
    · simp [hk]
  · have hsize := h.size_eq
    have hgrow := BitSet.size_insert seen j hj
    rw [List.length_cons] at hsize
    omega

end Queueing

/-- What is put on the stack has not been seen before and is seen from then on. -/
theorem queued_enqueue (js : List Nat) : ∀ {work : List Nat} {seen : BitSet},
    work.Nodup → (∀ i ∈ work, seen.contains i = true) →
      Queued js work seen (enqueue js work seen).1 (enqueue js work seen).2 := by
  -- On the statements to be put there.
  induction js with
  | nil =>
    intro work seen hnd _
    exact ⟨hnd, by simp [enqueue], by simp [enqueue], rfl⟩
  | cons j js ih =>
    intro work seen hnd hsub
    by_cases hj : seen.contains j = true
    · have hstep : enqueue (j :: js) work seen = enqueue js work seen := by
        simp only [enqueue, List.foldl_cons, if_pos hj]
      rw [hstep]
      exact (ih hnd hsub).skip hj
    · have hstep : enqueue (j :: js) work seen = enqueue js (j :: work) (seen.insert j) := by
        simp only [enqueue, List.foldl_cons, if_neg hj]
      have hfresh : j ∉ work := fun h => hj (hsub j h)
      have hsub' : ∀ i ∈ j :: work, (seen.insert j).contains i = true := by
        intro i hi
        rw [BitSet.contains_insert]
        rcases List.mem_cons.1 hi with rfl | h
        · simp
        · simp [hsub i h]
      rw [hstep]
      exact (ih (List.nodup_cons.2 ⟨hfresh, hnd⟩) hsub').push (by simpa using hj)

/-- Visiting a statement keeps the invariant of the search. -/
theorem searching_enqueue {fl : Flow} {i : Nat} {work : List Nat} {seen : BitSet}
    (h : Searching fl (i :: work) seen) :
    Searching fl (enqueue (fl.nextOf i) work seen).1 (enqueue (fl.nextOf i) work seen).2 := by
  obtain ⟨hfresh, hnd⟩ := List.nodup_cons.1 h.nodup
  have ha := queued_enqueue (fl.nextOf i) hnd
    (fun k hk => h.seen_of_mem k (List.mem_cons_of_mem _ hk))
  refine ⟨ha.nodup, fun k hk => ?_, fun k hk => ?_, fun k hk hout j hj => ?_⟩
  · rw [ha.contains_iff]
    rcases (ha.mem_iff k).1 hk with hw | ⟨hn, _⟩
    · exact Or.inl (h.seen_of_mem k (List.mem_cons_of_mem _ hw))
    · exact Or.inr hn
  · rcases (ha.contains_iff k).1 hk with hs | hn
    · exact h.sound k hs
    · exact .step (h.sound i (h.seen_of_mem i List.mem_cons_self)) hn
  · rw [ha.contains_iff]
    by_cases hki : k = i
    · subst hki
      exact Or.inr hj
    · -- `k` was seen before, or it would wait now
      have hold : seen.contains k = true := by
        rcases (ha.contains_iff k).1 hk with hs | hn
        · exact hs
        · by_contra hno
          exact hout ((ha.mem_iff k).2 (Or.inr ⟨hn, by simpa using hno⟩))
      have hnot : k ∉ i :: work := by
        intro hmem
        rcases List.mem_cons.1 hmem with heq | hw
        · exact hki heq
        · exact hout ((ha.mem_iff k).2 (Or.inl hw))
      exact Or.inl (h.closed k hold hnot j hj)

/-- A set of statements of a function of `n` statements has at most `n` members. -/
theorem size_le_of_lt {s : BitSet} {n : Nat} (h : ∀ i, s.contains i = true → i < n) :
    s.size ≤ n := by
  have hsub : s.toList ⊆ List.range n := fun i hi =>
    List.mem_range.2 (h i ((BitSet.mem_toList s i).1 hi))
  have := ((BitSet.nodup_toList s).subperm hsub).length_le
  rwa [List.length_range, ← BitSet.size_eq_length] at this

/-- What is reached is a statement of the function. -/
theorem Describes.lt_of_reaches {f : Func} {fl : Flow} (d : Describes f fl) {i : Nat}
    (h : fl.Reaches i) : i < f.stmts.length := by
  cases h with
  | entry h0 =>
    have := d.size_next
    rw [Array.isEmpty_eq_false_iff, ne_eq, ← Array.size_eq_zero_iff] at h0
    omega
  | step _ hj => exact d.lt_of_mem_nextOf hj

/-- The search ends with nothing waiting: each step finishes one statement for good, so with as many
steps left as unfinished statements the bound is never met. -/
theorem searching_visitFrom {f : Func} {fl : Flow} (d : Describes f fl) :
    ∀ (fuel : Nat) {work : List Nat} {seen : BitSet}, Searching fl work seen →
      seen.size + fuel = work.length + f.stmts.length →
      Searching fl [] (visitFrom fl fuel work seen) ∧
        ∀ i, seen.contains i = true → (visitFrom fl fuel work seen).contains i = true := by
  intro fuel
  -- On the fuel; each visit takes a statement off the stack that is never put there again.
  induction fuel with
  | zero =>
    intro work seen h hcount
    -- no step left: the count puts all statements among the seen ones, with none waiting
    have hle := size_le_of_lt fun i hi => d.lt_of_reaches (h.sound i hi)
    obtain rfl : work = [] := List.eq_nil_of_length_eq_zero (by omega)
    exact ⟨h, fun i hi => hi⟩
  | succ fuel ih =>
    intro work seen h hcount
    cases work with
    | nil => exact ⟨h, fun i hi => hi⟩
    | cons i work =>
      obtain ⟨hfresh, hnd⟩ := List.nodup_cons.1 h.nodup
      have ha := queued_enqueue (fl.nextOf i) hnd
        (fun k hk => h.seen_of_mem k (List.mem_cons_of_mem _ hk))
      have hsize := ha.size_eq
      rw [List.length_cons] at hcount
      obtain ⟨hdone, hkeep⟩ := ih (searching_enqueue h) (by omega)
      refine ⟨hdone, fun k hk => hkeep k ?_⟩
      exact (ha.contains_iff k).2 (Or.inl hk)

/-- The search finds exactly the statements on paths from the entry. -/
theorem Describes.contains_reachable_iff {f : Func} {fl : Flow} (d : Describes f fl) (i : Nat) :
    fl.reachable.contains i = true ↔ fl.Reaches i := by
  unfold reachable
  by_cases hempty : fl.next.isEmpty = true
  · rw [if_pos hempty, BitSet.contains_empty]
    constructor
    · intro h
      cases h
    · intro h
      have := d.lt_of_reaches h
      have := d.size_next
      rw [Array.isEmpty_iff, ← Array.size_eq_zero_iff] at hempty
      omega
  · rw [if_neg hempty]
    have hfalse : fl.next.isEmpty = false := by simpa using hempty
    have hstart : Searching fl [0] (BitSet.empty.insert 0) := by
      refine ⟨List.nodup_singleton 0, ?_, ?_, ?_⟩
      · simp
      · intro k hk
        obtain rfl : k = 0 := by simpa using hk
        exact .entry hfalse
      · intro k hk hout
        obtain rfl : k = 0 := by simpa using hk
        exact absurd (List.mem_singleton.2 rfl) hout
    have hsize : (BitSet.empty.insert 0).size = 1 := by decide
    obtain ⟨hdone, hkeep⟩ := searching_visitFrom d fl.next.size hstart (by
      rw [hsize, d.size_next]
      rfl)
    constructor
    · exact hdone.sound i
    · intro h
      -- the seen statements hold the entry and are closed, so a path never leaves them
      induction h with
      | entry _ => exact hkeep 0 (by simp)
      | step _ hj ih => exact hdone.closed _ ih (List.not_mem_nil) _ hj

end Flow

end Tac
