import Mathlib
import Tac.Proofs.Allocation
import Tac.Proofs.LivePaths

/-!
# Pruning keeps every walk

Removing statements renumbers the others.  Walks from the entry only meet statements that stay, and
each of these is followed by the same ones as before: what a reachable statement falls through to is
reachable, so it stays right behind it, and the definition that a reachable jump goes to is reachable,
so it stays the last one of its label.

* **`Func.walk`** — the statements that a run visits, for given outcomes of its conditional jumps;
  `Flow.Describes.mem_nextOf_iff` says that one step of a walk is one edge of the flow.
* **`Renumbers`** — what the statements left have to do with the old ones.
* **`Renumbers.walk`** — the walks of the two functions go side by side.
* **`Func.prune_settles`** — pruning keeps all walks and leaves nothing to prune, so the second
  analysis is the last one and describes the statements that are left.
-/

namespace Tac

/-! ## Walks -/

/-- Whether the statement is a conditional jump. -/
def Stmt.isBranch : Stmt → Bool
  | .branch .. => true
  | _ => false

/-- The statement that comes after statement `i`; `taken` says whether a conditional jump is taken. -/
def Func.after? (f : Func) (taken : Bool) (i : Nat) : Option Nat :=
  match f.stmts[i]? with
  | some (.jump l) => (Flow.labelTable f.stmts)[l]?
  | some (.branch _ _ _ l) =>
    if taken then (Flow.labelTable f.stmts)[l]? else (Flow.following f.stmts.length i).head?
  | some (.ret _) | none => none
  | some _ => (Flow.following f.stmts.length i).head?

/-- The statements that at most `n` steps visit from `i` on, when `outcome k` says whether the
conditional jump that is met after `k` others is taken. -/
def Func.walk (f : Func) : Nat → (Nat → Bool) → Nat → List Nat
  | 0, _, _ => []
  | n + 1, outcome, i =>
    match f.stmts[i]? with
    | none => []
    | some s =>
      match f.after? (outcome 0) i with
      | none => [i]
      | some j => i :: f.walk n (if s.isBranch then fun k => outcome (k + 1) else outcome) j

/-- Behind the last statement nothing follows. -/
theorem Func.after?_of_none {f : Func} {i : Nat} (h : f.stmts[i]? = none) (taken : Bool) :
    f.after? taken i = none := by
  rw [Func.after?, h]

namespace Flow

theorem following_eq_nil {n i : Nat} (h : ¬ i + 1 < n) : following n i = [] := if_neg h

/-- A statement is followed by at most one. -/
theorem mem_following_iff_head? (n i j : Nat) : j ∈ following n i ↔ (following n i).head? = some j := by
  unfold following
  split <;> simp [eq_comm]

/-- One step of a walk is one edge of the flow. -/
theorem Describes.mem_nextOf_iff {f : Func} {fl : Flow} (d : Describes f fl) (i j : Nat) :
    j ∈ fl.nextOf i ↔ ∃ taken, f.after? taken i = some j := by
  cases hs : f.stmts[i]? with
  | none =>
    rw [d.nextOf_eq_nil (List.getElem?_eq_none_iff.1 hs)]
    simp [Func.after?_of_none hs]
  | some s =>
    have hok := d.successors_eq i s hs
    -- Only a branch looks at whether it is taken; its target and the next statement are the
    -- two successors.
    cases s with
    | jump l =>
      obtain ⟨k, hk, hn⟩ := d.label_of_jump hs
      rw [d.labels_eq] at hk
      simp [Func.after?, hs, hk, hn, eq_comm]
    | branch x rel y l =>
      obtain ⟨k, hk, hn⟩ := d.label_of_branch hs
      rw [d.labels_eq] at hk
      simp [Func.after?, hs, hk, hn, mem_following_iff_head?, eq_comm, or_comm]
    | ret v =>
      rw [← Except.ok.inj hok]
      simp [Func.after?, hs]
    | binary | unary | move | store | load | label | call | zeroFill =>
      rw [← Except.ok.inj hok]
      simp [Func.after?, hs, mem_following_iff_head?]

end Flow

/-! ## Renumbering -/

/-- The function `f'` has the statements of `f` with the numbers in `old`, in their order.  Among them
is all that the entry of `f` reaches. -/
structure Renumbers (f f' : Func) (fl : Flow) (old : List Nat) : Prop where
  length_eq : old.length = f'.stmts.length
  stmt_eq : ∀ k i : Nat, old[k]? = some i → f'.stmts[k]? = f.stmts[i]?
  sorted : old.Pairwise (· < ·)
  lt : ∀ i ∈ old, i < f.stmts.length
  reached : ∀ i, fl.Reaches i → i ∈ old

section Sorted

variable {xs : List Nat} {k i j : Nat}

/-- In a list in order nothing lies between two neighbours. -/
theorem getElem?_succ_of_sorted (hxs : xs.Pairwise (· < ·)) (hk : xs[k]? = some i)
    (hmem : i + 1 ∈ xs) : xs[k + 1]? = some (i + 1) := by
  obtain ⟨m, hm⟩ := List.getElem?_of_mem hmem
  have hlt : ∀ a b x y : Nat, xs[a]? = some x → xs[b]? = some y → a < b → x < y := by
    intro a b x y ha hb hab
    obtain ⟨ha', rfl⟩ := List.getElem?_eq_some_iff.1 ha
    obtain ⟨hb', rfl⟩ := List.getElem?_eq_some_iff.1 hb
    exact List.pairwise_iff_getElem.1 hxs a b ha' hb' hab
  rcases Nat.lt_trichotomy m (k + 1) with h | rfl | h
  · -- a successor cannot stand at its predecessor's place or before it
    rcases Nat.lt_or_ge m k with hmk | hmk
    · have := hlt m k _ _ hm hk hmk
      omega
    · obtain rfl : m = k := by omega
      rw [hk] at hm
      exact absurd (Option.some.inj hm) (by omega)
  · exact hm
  · -- what stands at `k + 1` would be between them
    obtain ⟨x, hx⟩ : ∃ x, xs[k + 1]? = some x := by
      obtain ⟨hm', _⟩ := List.getElem?_eq_some_iff.1 hm
      exact ⟨_, List.getElem?_eq_getElem (by omega)⟩
    have h1 := hlt k (k + 1) _ _ hk hx (Nat.lt_succ_self k)
    have h2 := hlt (k + 1) m _ _ hx hm h
    omega

/-- In a sorted list the order of the entries is that of their positions. -/
theorem lt_iff_of_sorted (hxs : xs.Pairwise (· < ·)) {m : Nat} (hk : xs[k]? = some i)
    (hm : xs[m]? = some j) : k < m ↔ i < j := by
  obtain ⟨hk', rfl⟩ := List.getElem?_eq_some_iff.1 hk
  obtain ⟨hm', rfl⟩ := List.getElem?_eq_some_iff.1 hm
  have hmono := List.pairwise_iff_getElem.1 hxs
  constructor
  · exact hmono k m hk' hm'
  · intro h
    -- Were the positions in the other order, so would be the values.
    by_contra hge
    rcases Nat.eq_or_lt_of_le (Nat.le_of_not_lt hge) with heq | hlt
    · subst heq
      omega
    · have := hmono m k hm' hk' hlt
      omega

end Sorted

namespace Renumbers

variable {f f' : Func} {fl : Flow} {old : List Nat} (r : Renumbers f f' fl old)

include r

/-- A statement that is kept is the old one. -/
theorem stmt_of_some {k : Nat} {s : Stmt} (h : f'.stmts[k]? = some s) :
    ∃ i, old[k]? = some i ∧ f.stmts[i]? = some s := by
  obtain ⟨hlt, _⟩ := List.getElem?_eq_some_iff.1 h
  rw [← r.length_eq] at hlt
  have hk := List.getElem?_eq_getElem hlt
  exact ⟨_, hk, by rw [← r.stmt_eq k _ hk, h]⟩

/-- No old statement is kept twice. -/
theorem eq_of_getElem? {k m i : Nat} (hk : old[k]? = some i) (hm : old[m]? = some i) : k = m := by
  have h1 := lt_iff_of_sorted r.sorted hk hm
  have h2 := lt_iff_of_sorted r.sorted hm hk
  omega

/-- A label whose statement stays is found there. -/
theorem label {l : Int} {j : Nat} (hl : (Flow.labelTable f.stmts)[l]? = some j) (hj : j ∈ old) :
    ∃ k, (Flow.labelTable f'.stmts)[l]? = some k ∧ old[k]? = some j := by
  obtain ⟨k, hk⟩ := List.getElem?_of_mem hj
  obtain ⟨hdef, hlast⟩ := (Flow.getElem?_labelTable _ _ _).1 hl
  refine ⟨k, (Flow.getElem?_labelTable _ _ _).2 ⟨by rw [r.stmt_eq k j hk, hdef], fun m hm hm' => ?_⟩, hk⟩
  -- a later definition among the statements that stay was a later one before
  obtain ⟨i, hi, hidef⟩ := r.stmt_of_some hm'
  exact hlast i ((lt_iff_of_sorted r.sorted hk hi).1 hm) hidef

/-- What follows a statement stays right behind it, and behind the last statement there is nothing. -/
theorem following {k i : Nat} (hk : old[k]? = some i) (hnext : ∀ j ∈ Flow.following f.stmts.length i, j ∈ old) :
    ((Flow.following f'.stmts.length k).head? = none ∧ (Flow.following f.stmts.length i).head? = none) ∨
      (Flow.following f'.stmts.length k).head? = some (k + 1) ∧
        (Flow.following f.stmts.length i).head? = some (i + 1) ∧ old[k + 1]? = some (i + 1) := by
  -- The next statement is kept, or there is none; then nothing is kept behind either.
  by_cases hi : i + 1 < f.stmts.length
  · have hmem := hnext (i + 1) ((Flow.mem_following_iff _ _ _).2 ⟨rfl, hi⟩)
    have hsucc := getElem?_succ_of_sorted r.sorted hk hmem
    obtain ⟨hlt, _⟩ := List.getElem?_eq_some_iff.1 hsucc
    rw [r.length_eq] at hlt
    exact Or.inr ⟨by simp [Flow.following, hlt], by simp [Flow.following, hi], hsucc⟩
  · have hlast : ¬ k + 1 < f'.stmts.length := by
      rw [← r.length_eq]
      intro hlt
      have hx := List.getElem?_eq_getElem hlt
      have h1 := (lt_iff_of_sorted r.sorted hk hx).1 (Nat.lt_succ_self k)
      have h2 := r.lt _ (List.getElem_mem hlt)
      omega
    rw [Flow.following_eq_nil hi, Flow.following_eq_nil hlast]
    exact Or.inl ⟨rfl, rfl⟩

/-- From a statement that the entry reaches, both functions go on to the same statement or both end. -/
theorem after? (d : Flow.Describes f fl) {k i : Nat} (hk : old[k]? = some i) (hi : fl.Reaches i)
    (taken : Bool) :
    (f'.after? taken k = none ∧ f.after? taken i = none) ∨
      ∃ k' i', f'.after? taken k = some k' ∧ f.after? taken i = some i' ∧ old[k']? = some i' ∧
        fl.Reaches i' := by
  have hstay : ∀ j ∈ fl.nextOf i, j ∈ old := fun j hj => r.reached j (.step hi hj)
  have hedge : ∀ j, f.after? taken i = some j → fl.Reaches j := fun j hj =>
    .step hi ((d.mem_nextOf_iff i j).2 ⟨taken, hj⟩)
  have hstmt := r.stmt_eq k i hk
  -- falling through and jumping are the two ways to go on
  have hfall : (∀ j ∈ Flow.following f.stmts.length i, j ∈ old) →
      f'.after? taken k = (Flow.following f'.stmts.length k).head? →
      f.after? taken i = (Flow.following f.stmts.length i).head? →
      (f'.after? taken k = none ∧ f.after? taken i = none) ∨
        ∃ k' i', f'.after? taken k = some k' ∧ f.after? taken i = some i' ∧ old[k']? = some i' ∧
          fl.Reaches i' := by
    intro hnext h' h
    rw [h', h]
    rcases r.following hk hnext with hnone | ⟨hk', hi', hold⟩
    · exact Or.inl hnone
    · exact Or.inr ⟨_, _, hk', hi', hold, hedge _ (h.trans hi')⟩
  have hjump : ∀ (l : Int) (j : Nat), (Flow.labelTable f.stmts)[l]? = some j → j ∈ fl.nextOf i →
      f'.after? taken k = (Flow.labelTable f'.stmts)[l]? →
      f.after? taken i = (Flow.labelTable f.stmts)[l]? →
      ∃ k' i', f'.after? taken k = some k' ∧ f.after? taken i = some i' ∧ old[k']? = some i' ∧
        fl.Reaches i' := by
    intro l j hl hj h' h
    obtain ⟨k', hk', hold⟩ := r.label hl (hstay j hj)
    exact ⟨k', j, h'.trans hk', h.trans hl, hold, .step hi hj⟩
  cases hs : f.stmts[i]? with
  | none => exact Or.inl ⟨Func.after?_of_none (hstmt.trans hs) _, Func.after?_of_none hs _⟩
  | some s =>
    rw [hs] at hstmt
    have hok := d.successors_eq i s hs
    cases s with
    | jump l =>
      obtain ⟨j, hl, hn⟩ := d.label_of_jump hs
      rw [d.labels_eq] at hl
      exact Or.inr (hjump l j hl (by simp [hn]) (by simp [Func.after?, hstmt])
        (by simp [Func.after?, hs]))
    | branch x rel y l =>
      obtain ⟨j, hl, hn⟩ := d.label_of_branch hs
      rw [d.labels_eq] at hl
      cases taken with
      | true =>
        exact Or.inr (hjump l j hl (by simp [hn]) (by simp [Func.after?, hstmt])
          (by simp [Func.after?, hs]))
      | false =>
        exact hfall (fun j hj => hstay j (by simp [hn, hj])) (by simp [Func.after?, hstmt])
          (by simp [Func.after?, hs])
    | ret v => exact Or.inl ⟨by simp [Func.after?, hstmt], by simp [Func.after?, hs]⟩
    | binary | unary | move | store | load | label | call | zeroFill =>
      have hn : Flow.following f.stmts.length i = fl.nextOf i := Except.ok.inj hok
      exact hfall (fun j hj => hstay j (hn ▸ hj)) (by simp [Func.after?, hstmt])
        (by simp [Func.after?, hs])

/-- The walks of the two functions go side by side and end together. -/
theorem walk (d : Flow.Describes f fl) (n : Nat) (outcome : Nat → Bool) {k i : Nat}
    (hk : old[k]? = some i) (hi : fl.Reaches i) :
    List.Forall₂ (fun k i => old[k]? = some i) (f'.walk n outcome k) (f.walk n outcome i) := by
  -- On the number of steps; each of them goes to the survivor of where the old one goes.
  induction n generalizing outcome k i with
  | zero => exact .nil
  | succ n ih =>
    rw [Func.walk, Func.walk, r.stmt_eq k i hk]
    cases f.stmts[i]? with
    | none => exact .nil
    | some s =>
      rcases r.after? d hk hi (outcome 0) with ⟨hk', hi'⟩ | ⟨k', i', hk', hi', hold, hreach⟩
      · simp only [hk', hi']
        exact .cons hk .nil
      · simp only [hk', hi']
        exact .cons hk (ih _ hold hreach)

/-- A function that has statements keeps its entry. -/
theorem entry (d : Flow.Describes f fl) (h : f.stmts ≠ []) : old[0]? = some 0 ∧ fl.Reaches 0 := by
  have hpos := List.length_pos_iff.2 h
  have hreach : fl.Reaches 0 := .entry (by
    rw [Array.isEmpty_eq_false_iff, ne_eq, ← Array.size_eq_zero_iff, d.size_next]
    omega)
  obtain ⟨k, hk⟩ := List.getElem?_of_mem (r.reached 0 hreach)
  refine ⟨?_, hreach⟩
  cases k with
  | zero => exact hk
  | succ k =>
    -- nothing is before number zero
    obtain ⟨hlt, _⟩ := List.getElem?_eq_some_iff.1 hk
    have hx := List.getElem?_eq_getElem (Nat.lt_of_succ_lt hlt)
    have := (lt_iff_of_sorted r.sorted hx hk).1 (Nat.lt_succ_self k)
    omega

/-- From the entry the two functions walk alike. -/
theorem walk_entry (d : Flow.Describes f fl) (n : Nat) (outcome : Nat → Bool) :
    List.Forall₂ (fun k i => old[k]? = some i) (f'.walk n outcome 0) (f.walk n outcome 0) := by
  by_cases h : f.stmts = []
  · have hold : old = [] := List.eq_nil_iff_forall_not_mem.2 fun i hi => by
      have := r.lt i hi
      simp [h] at this
    have h' : f'.stmts = [] := List.length_eq_zero_iff.1 (by rw [← r.length_eq, hold, List.length_nil])
    cases n <;> simp [Func.walk, h, h']
  · obtain ⟨hk, hi⟩ := r.entry d h
    exact r.walk d n outcome hk hi

/-- What the entry reached before it reaches now. -/
theorem reaches {fl' : Flow} (d : Flow.Describes f fl) (d' : Flow.Describes f' fl') {i : Nat}
    (hi : fl.Reaches i) : ∃ k, old[k]? = some i ∧ fl'.Reaches k := by
  -- On how the statement is reached; whatever is reached is kept.
  induction hi with
  | entry h =>
    have hne : f.stmts ≠ [] := by
      rintro hnil
      have := d.size_next
      rw [hnil, List.length_nil, Array.size_eq_zero_iff] at this
      rw [this] at h
      cases h
    obtain ⟨hk, _⟩ := r.entry d hne
    refine ⟨0, hk, .entry ?_⟩
    obtain ⟨hlt, _⟩ := List.getElem?_eq_some_iff.1 hk
    rw [Array.isEmpty_eq_false_iff, ne_eq, ← Array.size_eq_zero_iff, d'.size_next, ← r.length_eq]
    omega
  | step hi hj ih =>
    obtain ⟨k, hk, hreach⟩ := ih
    obtain ⟨taken, ht⟩ := (d.mem_nextOf_iff _ _).1 hj
    rcases r.after? d hk hi taken with ⟨_, hnone⟩ | ⟨k', i', hk', hi', hold, _⟩
    · rw [ht] at hnone
      cases hnone
    · rw [ht] at hi'
      cases hi'
      exact ⟨k', hold, .step hreach ((d'.mem_nextOf_iff _ _).2 ⟨taken, hk'⟩)⟩

/-- A statement that stays has its successors, when the entry reaches it or it needs none. -/
theorem connects (d : Flow.Describes f fl)
    (hret : ∀ i ∈ old, fl.Reaches i ∨ ∃ v, f.stmts[i]? = some (.ret v)) :
    ∃ fl', Flow.connect f' = .ok fl' := by
  refine Flow.exists_connect fun k s hs => ?_
  obtain ⟨i, hk, hi⟩ := r.stmt_of_some hs
  -- only a jump needs its label, and it is no return
  have htarget : ∀ (l : Int) (j : Nat), (∀ v, s ≠ .ret v) → fl.labels[l]? = some j → j ∈ fl.nextOf i →
      ∃ k', (Flow.labelTable f'.stmts)[l]? = some k' := by
    intro l j hne hl hj
    have hreach := (hret i (List.mem_of_getElem? hk)).resolve_right fun ⟨v, hv⟩ => by
      rw [hi] at hv
      exact hne v (Option.some.inj hv)
    rw [d.labels_eq] at hl
    obtain ⟨k', hk', _⟩ := r.label hl (r.reached j (.step hreach hj))
    exact ⟨k', hk'⟩
  cases s with
  | jump l =>
    obtain ⟨j, hl, hn⟩ := d.label_of_jump hi
    obtain ⟨k', hk'⟩ := htarget l j (fun v => by simp) hl (by simp [hn])
    exact ⟨[k'], by simp [Flow.successors, hk']⟩
  | branch x rel y l =>
    obtain ⟨j, hl, hn⟩ := d.label_of_branch hi
    obtain ⟨k', hk'⟩ := htarget l j (fun v => by simp) hl (by simp [hn])
    exact ⟨_, by rw [Flow.successors, hk']⟩
  | ret | label | binary | unary | move | store | load | call | zeroFill => exact ⟨_, rfl⟩

end Renumbers

/-! ## Pruning -/

section Prune

variable (vars : VarTable) (f : Func) (reach : BitSet)

/-- The numbers that the statements left by pruning had before. -/
def Func.survivors : List Nat :=
  (f.stmts.zipIdx.filter fun (s, i) => f.keeps vars reach i s).map Prod.snd

/-- Pruning leaves the statements that are kept, in order. -/
theorem Func.stmts_prune : (f.prune vars reach).func.stmts =
    (f.stmts.zipIdx.filter fun (s, i) => f.keeps vars reach i s).map Prod.fst := by
  simp only [Func.prune, List.partition_eq_filter_filter]

variable {vars f reach}

/-- The survivors are the positions of what is kept. -/
theorem Func.mem_survivors {i : Nat} :
    i ∈ f.survivors vars reach ↔ ∃ s, f.stmts[i]? = some s ∧ f.keeps vars reach i s = true := by
  simp only [Func.survivors, List.mem_map, List.mem_filter, Prod.exists, exists_eq_right,
    List.mem_zipIdx_iff_getElem?]

/-- A statement is kept if it is reached, or if it is a last return that names no value
with a number. -/
theorem Func.keeps_iff {i : Nat} {s : Stmt} : f.keeps vars reach i s = true ↔
    reach.contains i = true ∨ (i + 1 = f.stmts.length ∧ s.isReturn = true ∧ s.numbers vars = []) := by
  simp only [Func.keeps, Bool.or_eq_true, Bool.and_eq_true, beq_iff_eq, List.isEmpty_iff, and_assoc]

/-- Pruning renumbers the statements it keeps, in order, and the flow with them. -/
theorem Flow.Describes.renumbers (vars : VarTable) {fl : Flow} (d : Flow.Describes f fl) :
    Renumbers f (f.prune vars fl.reachable).func fl (f.survivors vars fl.reachable) := by
  refine ⟨by rw [Func.stmts_prune, Func.survivors, List.length_map, List.length_map],
    fun k i hk => ?_, ?_, fun i hi => ?_, fun i hi => ?_⟩
  · rw [Func.survivors, List.getElem?_map, Option.map_eq_some_iff] at hk
    obtain ⟨⟨s, _⟩, hp, rfl⟩ := hk
    have hmem := (List.mem_filter.1 (List.mem_of_getElem? hp)).1
    rw [Func.stmts_prune, List.getElem?_map, hp]
    exact (List.mem_zipIdx_iff_getElem?.1 hmem).symm
  -- The survivors are a part of `0, 1, 2, ...`, in order.
  · have hsub := (List.filter_sublist (l := f.stmts.zipIdx)
      (p := fun (s, i) => f.keeps vars fl.reachable i s)).map Prod.snd
    rw [List.zipIdx_map_snd] at hsub
    exact List.Pairwise.sublist hsub (List.pairwise_lt_range' ..)
  · obtain ⟨s, hs, _⟩ := Func.mem_survivors.1 hi
    exact (List.getElem?_eq_some_iff.1 hs).1
  · have hs := List.getElem?_eq_getElem (d.lt_of_reaches hi)
    exact Func.mem_survivors.2 ⟨_, hs, Func.keeps_iff.2 (Or.inl ((d.contains_reachable_iff i).2 hi))⟩

/-- Pruning that may keep everything changes nothing. -/
theorem Func.prune_eq_self (h : ∀ i s, f.stmts[i]? = some s → f.keeps vars reach i s = true) :
    (f.prune vars reach).removed = [] ∧ (f.prune vars reach).func = f := by
  have hall : ∀ p ∈ f.stmts.zipIdx, f.keeps vars reach p.2 p.1 = true := fun p hp =>
    h p.2 p.1 (List.mem_zipIdx_iff_getElem?.1 hp)
  refine ⟨?_, ?_⟩
  · simp only [Func.prune, List.partition_eq_filter_filter, List.map_eq_nil_iff]
    exact List.filter_eq_nil_iff.2 fun p hp => by simp [hall p hp]
  · have hstmts : (f.prune vars reach).func.stmts = f.stmts := by
      rw [Func.stmts_prune, List.filter_eq_self.2 fun p hp => hall p hp, List.zipIdx_map_fst]
    calc (f.prune vars reach).func = { f with stmts := (f.prune vars reach).func.stmts } := rfl
      _ = f := by rw [hstmts]

/-- Pruning that removes nothing changes nothing. -/
theorem Func.prune_of_removed (h : (f.prune vars reach).removed = []) :
    (f.prune vars reach).func = f := by
  refine (Func.prune_eq_self fun i s hs => ?_).2
  simp only [Func.prune, List.partition_eq_filter_filter, List.map_eq_nil_iff] at h
  simpa using List.filter_eq_nil_iff.1 h (s, i) (List.mem_zipIdx_iff_getElem?.2 hs)

end Prune

/-- What is left by pruning has a flow; the entry reaches all of it but a last return that reads
nothing. -/
theorem Flow.connect_prune (vars : VarTable) {f : Func} {fl : Flow} (d : Flow.Describes f fl) :
    ∃ fl', Flow.connect (f.prune vars fl.reachable).func = .ok fl' ∧
      ∀ k s, (f.prune vars fl.reachable).func.stmts[k]? = some s → fl'.Reaches k ∨
        (k + 1 = (f.prune vars fl.reachable).func.stmts.length ∧ s.isReturn = true ∧
          s.numbers vars = []) := by
  have r := d.renumbers vars
  have hkept : ∀ i ∈ f.survivors vars fl.reachable, ∀ s, f.stmts[i]? = some s → fl.Reaches i ∨
      (i + 1 = f.stmts.length ∧ s.isReturn = true ∧ s.numbers vars = []) := by
    intro i hi s hs
    obtain ⟨t, ht, hkeep⟩ := Func.mem_survivors.1 hi
    obtain rfl : t = s := Option.some.inj (ht.symm.trans hs)
    exact (Func.keeps_iff.1 hkeep).imp_left (d.contains_reachable_iff i).1
  -- A label can only be missed by what was not reached, and that is a return, which has none.
  obtain ⟨fl', hfl'⟩ := r.connects d fun i hi => by
    obtain ⟨s, hs⟩ : ∃ s, f.stmts[i]? = some s := ⟨_, List.getElem?_eq_getElem (r.lt i hi)⟩
    refine (hkept i hi s hs).imp_right fun ⟨_, hret, _⟩ => ?_
    cases s with
    | ret v => exact ⟨v, hs⟩
    | jump | branch | label | binary | unary | move | store | load | call | zeroFill => cases hret
  refine ⟨fl', hfl', fun k s hs => ?_⟩
  obtain ⟨i, hk, hi⟩ := r.stmt_of_some hs
  rcases hkept i (List.mem_of_getElem? hk) s hi with hreach | ⟨hlast, hret, hnone⟩
  · obtain ⟨m, hm, hreach'⟩ := r.reaches d (Flow.describes_of_connect hfl') hreach
    rw [r.eq_of_getElem? hk hm]
    exact Or.inl hreach'
  · -- nothing is left behind the old last statement
    refine Or.inr ⟨?_, hret, hnone⟩
    obtain ⟨hlt, _⟩ := List.getElem?_eq_some_iff.1 hk
    rw [← r.length_eq]
    by_contra hne
    have hx := List.getElem?_eq_getElem (show k + 1 < (f.survivors vars fl.reachable).length by omega)
    have h1 := (lt_iff_of_sorted r.sorted hk hx).1 (Nat.lt_succ_self k)
    have h2 := r.lt _ (List.mem_of_getElem? hx)
    omega

/-! ## Rounds -/

/-- The analyses describe the statements of their function: the flow by its successors and
predecessors, the live sets by paths to reads, the graph by what is live together. -/
structure Analysis.Current (vars : VarTable) (a : Analysis) : Prop where
  analyzed : a.func.analyze vars = .ok a
  flow : Flow.Describes a.func a.flow
  prev_size : a.flow.prev.size = a.func.stmts.length
  prev_iff : ∀ i j, i ∈ a.flow.prevOf j ↔ j ∈ a.flow.nextOf i
  live : Liveness.Exact vars a.func a.flow a.live
  nodes : ∀ u, a.graph.Has u ↔ ∃ i, a.flow.Reaches i ∧ (a.live.liveAt i).contains u = true
  edges : ∀ u v, a.graph.Adj u v ↔ u ≠ v ∧ ∃ i, a.flow.Reaches i ∧
    (a.live.liveAt i).contains u = true ∧ (a.live.liveAt i).contains v = true

/-- The flow of an analysis is the one that was connected. -/
theorem Flow.connect_of_analyze {vars : VarTable} {f : Func} {a : Analysis}
    (h : f.analyze vars = .ok a) : Flow.connect f = .ok a.flow := by
  unfold Func.analyze at h
  split at h
  · cases h
  · next fl hfl =>
    split at h <;> cases h
    exact hfl

/-- An analysis is that of the function as it stands. -/
theorem Func.current_of_analyze {vars : VarTable} {f : Func} {a : Analysis}
    (h : f.analyze vars = .ok a) : a.Current vars := by
  obtain ⟨rfl, d, _, hreach, hgraph, hnum⟩ := Func.analyze_spec h
  obtain ⟨b, hb, _, hexact, _⟩ := Liveness.analyze_exact (Flow.connect_of_analyze h) hnum
  obtain rfl : b = a := Except.ok.inj (hb.symm.trans h)
  refine ⟨h, d, d.size_prev, d.mem_prevOf_iff, hexact, fun u => ?_, fun u v => ?_⟩
  · simp only [hgraph, Graph.has_build, hreach, d.contains_reachable_iff]
  · simp only [hgraph, Graph.adj_build, hreach, d.contains_reachable_iff]

/-- A function whose first analysis prunes something is analysed again without it. -/
theorem Func.settle_of_pruned {vars : VarTable} {f : Func} {a : Analysis} {rounds : List Analysis}
    {e : Option AnalysisError} (h : f.analyze vars = .ok a) (hr : (a.prune vars).removed ≠ [])
    (hrest : (a.prune vars).func.settle vars = (rounds, e)) : f.settle vars = (a :: rounds, e) := by
  unfold Func.settle
  split
  · next e he =>
    rw [h] at he
    cases he
  · next b hb =>
    rw [h] at hb
    cases hb
    rw [dif_neg hr, hrest]

/-- An analysis that fails is the last one. -/
theorem Func.settle_of_error {vars : VarTable} {f : Func} {e : AnalysisError}
    (h : f.analyze vars = .error e) : f.settle vars = ([], some e) := by
  unfold Func.settle
  split
  · next e he =>
    rw [h] at he
    cases he
    rfl
  · next b hb =>
    rw [h] at hb
    cases hb

/-- An operand without a number stops the first analysis. -/
theorem Func.settle_of_malformed {vars : VarTable} {f : Func} {fl : Flow}
    (hfl : Flow.connect f = .ok fl) (hnum : f.stmts.all (Stmt.isNumbered vars) = false) :
    f.settle vars = ([], some .malformed) := by
  have hbad : f.analyze vars = .error .malformed := by
    rw [Func.analyze, hfl]
    simp only [hnum, Bool.false_eq_true, if_false]
  exact Func.settle_of_error hbad

/-- Where the second pruning finds nothing, allocation analyses a function at most twice, and what the
last analysis describes is what the first pruning left. -/
theorem Func.settle_of_connect {vars : VarTable} {f : Func} {fl fl' : Flow}
    (hfl : Flow.connect f = .ok fl) (hnum : f.stmts.all (Stmt.isNumbered vars) = true)
    (hfl' : Flow.connect (f.prune vars fl.reachable).func = .ok fl')
    (hclean : ((f.prune vars fl.reachable).func.prune vars fl'.reachable).removed = []) :
    ∃ rounds a, f.settle vars = (rounds, none) ∧ rounds.length ≤ 2 ∧ rounds.getLast? = some a ∧
      a.func = (f.prune vars fl.reachable).func ∧ a.Current vars := by
  have r := (Flow.describes_of_connect hfl).renumbers vars
  -- Pruning adds no statement, so the values that are left still have their numbers.
  have hnum' : (f.prune vars fl.reachable).func.stmts.all (Stmt.isNumbered vars) = true := by
    rw [List.all_eq_true] at hnum ⊢
    intro s hs
    obtain ⟨k, hk⟩ := List.getElem?_of_mem hs
    obtain ⟨i, _, hi⟩ := r.stmt_of_some hk
    exact hnum s (List.mem_of_getElem? hi)
  obtain ⟨a, ha, hprune⟩ : ∃ a, f.analyze vars = .ok a ∧ a.prune vars = f.prune vars fl.reachable :=
    ⟨_, Func.analyze_of_connect hfl hnum, rfl⟩
  obtain ⟨b, hb, hfunc, hclean'⟩ : ∃ b, (f.prune vars fl.reachable).func.analyze vars = .ok b ∧
      b.func = (f.prune vars fl.reachable).func ∧ (b.prune vars).removed = [] :=
    ⟨_, Func.analyze_of_connect hfl' hnum', rfl, hclean⟩
  have hcurrent := Func.current_of_analyze hb
  have hsettle := Func.settle_of_clean hb hclean'
  by_cases hr : (a.prune vars).removed = []
  · -- nothing to prune: the first analysis is the last
    have hself := Func.prune_of_removed (hprune ▸ hr)
    rw [hself] at hsettle hfunc ⊢
    exact ⟨[b], b, hsettle, by simp, rfl, hfunc, hcurrent⟩
  · have hround := Func.settle_of_pruned ha hr (hprune ▸ hsettle)
    exact ⟨[a, b], b, hround, Nat.le_refl 2, rfl, hfunc, hcurrent⟩

/-- Pruning keeps every walk from the entry, statement by statement, and what it leaves has a flow and
nothing more to prune.  So allocation analyses a function at most twice, and unless an operand has no
number its last analysis describes the statements that are left. -/
theorem Func.prune_settles (vars : VarTable) {f : Func} {fl : Flow}
    (hfl : Flow.connect f = .ok fl) :
    ∃ f' fl' old, (f.prune vars fl.reachable).func = f' ∧ Flow.connect f' = .ok fl' ∧
      Renumbers f f' fl old ∧
      (∀ n outcome, List.Forall₂ (fun k i => old[k]? = some i)
        (f'.walk n outcome 0) (f.walk n outcome 0)) ∧
      (∀ k s, f'.stmts[k]? = some s → fl'.Reaches k ∨
        (k + 1 = f'.stmts.length ∧ s.isReturn = true ∧ s.numbers vars = [])) ∧
      (f'.prune vars fl'.reachable).removed = [] ∧ (f'.prune vars fl'.reachable).func = f' ∧
      ((f.stmts.all (Stmt.isNumbered vars) = false ∧ f.settle vars = ([], some .malformed)) ∨
        ∃ rounds a, f.settle vars = (rounds, none) ∧ rounds.length ≤ 2 ∧
          rounds.getLast? = some a ∧ a.func = f' ∧ a.Current vars) := by
  have d := Flow.describes_of_connect hfl
  have r := d.renumbers vars
  obtain ⟨fl', hfl', hleft⟩ := Flow.connect_prune vars d
  have d' := Flow.describes_of_connect hfl'
  -- What is left after one round is reached, or it is the return that is always kept.
  have hclean := Func.prune_eq_self fun k s hs =>
    Func.keeps_iff.2 ((hleft k s hs).imp_left (d'.contains_reachable_iff k).2)
  refine ⟨_, fl', _, rfl, hfl', r, fun n outcome => r.walk_entry d n outcome, hleft, hclean.1,
    hclean.2, ?_⟩
  cases hnum : f.stmts.all (Stmt.isNumbered vars) with
  | false => exact Or.inl ⟨rfl, Func.settle_of_malformed hfl hnum⟩
  | true => exact Or.inr (Func.settle_of_connect hfl hnum hfl' hclean.1)

/-- The first definition of the label and the assignment after it are not reached, and neither is the
return behind the endless loop, which stays as the last statement. -/
def loopingFunc : Func where
  name := "f"
  void := true
  stmts := [.jump 1, .label 1, .move (.temp 0) (.const 5), .label 1, .jump 1, .ret none]

/-- Four statements are left, and the last analysis is that of these. -/
theorem Func.prune_settles_looping : ∃ fl f', Flow.connect loopingFunc = .ok fl ∧
    (loopingFunc.prune #[] fl.reachable).func = f' ∧
    f'.stmts = [.jump 1, .label 1, .jump 1, .ret none] ∧
    ∃ rounds a, loopingFunc.settle #[] = (rounds, none) ∧ rounds.getLast? = some a ∧ a.func = f' ∧
      a.Current #[] := by
  cases hfl : Flow.connect loopingFunc with
  | error e =>
    have hok : (Flow.connect loopingFunc).toOption.isSome = true := by decide
    rw [hfl] at hok
    cases hok
  | ok fl =>
    obtain ⟨f', _, _, hf', _, _, _, _, _, _, hsettle⟩ := Func.prune_settles #[] hfl
    -- The flow is not compared, only what is left of the function.
    have hstmts : (Flow.connect loopingFunc).toOption.map
        (fun fl => (loopingFunc.prune #[] fl.reachable).func.stmts) =
        some [.jump 1, .label 1, .jump 1, .ret none] := by decide
    rw [hfl] at hstmts
    refine ⟨fl, f', rfl, hf', ?_, ?_⟩
    · rw [← hf']
      exact Option.some.inj hstmts
    · rcases hsettle with ⟨hnum, _⟩ | ⟨rounds, a, hrounds, _, hlast, hfunc, hcurrent⟩
      · exact absurd hnum (by decide)
      · exact ⟨rounds, a, hrounds, hlast, hfunc, hcurrent⟩

end Tac
