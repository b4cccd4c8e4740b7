import Mathlib
import Tac.Session.Sets
import Tac.Proofs.BitSet

/-!
# Bit sets are finite sets

The words of a bit set are no canonical form: a set that shrank keeps its words, a copy may have none,
and a set that was emptied has storage without words.  None of this shows.  Every question about sets
that were made by any sequence of requests is answered as for finite sets of natural numbers.

* **`visit_eq`** — taking the lowest bits out of one word after the other is a walk along the listing.
* **`Visits`** — a callback sees the listing up to the first key after which it stops.
* **`Represents`** — named bit sets have the members of named finite sets; each request keeps this.
* **`after_answers`** — membership, listing, size, visits and comparison after any requests.
-/

namespace Tac.BitSet

/-! ## The lowest bit -/

/-- The lowest bit that is set. -/
theorem lowest?_eq_some_iff {w : UInt64} {j : Nat} : lowest? w = some j ↔
    j < 64 ∧ w.toBitVec.getLsbD j = true ∧ ∀ i < j, w.toBitVec.getLsbD i = false := by
  rw [lowest?, List.find?_range_eq_some]
  constructor
  · rintro ⟨hbit, hmem, hleast⟩
    have hj : j < 64 := List.mem_range.1 hmem
    rw [and_bit, Nat.mod_eq_of_lt hj] at hbit
    refine ⟨hj, hbit, fun i hi => ?_⟩
    have hnot := hleast i hi
    rw [and_bit, Nat.mod_eq_of_lt (by omega)] at hnot
    simpa using hnot
  · rintro ⟨hj, hbit, hleast⟩
    refine ⟨?_, List.mem_range.2 hj, fun i hi => ?_⟩
    · rwa [and_bit, Nat.mod_eq_of_lt hj]
    · rw [and_bit, Nat.mod_eq_of_lt (by omega), hleast i hi]
      rfl

/-- A word without a lowest bit has none. -/
theorem lowest?_eq_none {w : UInt64} (h : lowest? w = none) (base : Nat) : wordKeys base w = [] := by
  rw [wordKeys_eq, List.filterMap_eq_nil_iff]
  intro j hj
  have hbit := List.find?_eq_none.1 h j hj
  rw [if_neg hbit]

/-- The first key of a word is that of its lowest bit; the others are those of the word without it. -/
theorem wordKeys_lowest {w : UInt64} {j : Nat} (h : lowest? w = some j) (base : Nat) :
    wordKeys base w = (base + j) :: wordKeys base (w &&& ~~~(bit j)) := by
  obtain ⟨hj, hbit, hleast⟩ := lowest?_eq_some_iff.1 h
  have hclear : ∀ p < 64, (w &&& ~~~(bit j)).toBitVec.getLsbD p = true ↔
      w.toBitVec.getLsbD p = true ∧ p ≠ j := by
    intro p hp
    have hp' := getLsbD_bit j p
    rw [Nat.mod_eq_of_lt hp, Nat.mod_eq_of_lt hj] at hp'
    rw [getLsbD_clear _ _ hp, hp']
    simp
  apply eq_of_ascending (pairwise_wordKeys _ _)
  · refine List.pairwise_cons.2 ⟨fun k hk => ?_, pairwise_wordKeys _ _⟩
    -- a bit below the lowest one is not set, and the lowest one was cleared
    obtain ⟨hle, hlt, hk⟩ := (mem_wordKeys _ _ _).1 hk
    obtain ⟨hset, hne⟩ := (hclear _ (by omega)).1 hk
    by_contra hge
    rw [hleast (k - base) (by omega)] at hset
    cases hset
  · intro k
    rw [List.mem_cons, mem_wordKeys, mem_wordKeys]
    constructor
    · rintro ⟨hle, hlt, hk⟩
      by_cases heq : k = base + j
      · exact Or.inl heq
      · exact Or.inr ⟨hle, hlt, (hclear _ (by omega)).2 ⟨hk, by omega⟩⟩
    · rintro (rfl | ⟨hle, hlt, hk⟩)
      · exact ⟨by omega, by omega, by rwa [Nat.add_sub_cancel_left]⟩
      · exact ⟨hle, hlt, ((hclear _ (by omega)).1 hk).1⟩

/-! ## Visits -/

/-- A walk along a list that puts each key before those `seen`, until `stop` holds; tells whether it
did. -/
def walk (stop : List Nat → Bool) : List Nat → List Nat → List Nat × Bool
  | seen, [] => (seen, false)
  | seen, k :: ks => if stop (k :: seen) then (k :: seen, true) else walk stop (k :: seen) ks

variable {stop : List Nat → Bool}

/-- A walk over two lists goes on with the second unless it was stopped. -/
theorem walk_append (seen xs ys : List Nat) : walk stop seen (xs ++ ys) =
    match walk stop seen xs with
    | (seen, true) => (seen, true)
    | (seen, false) => walk stop seen ys := by
  induction xs generalizing seen with
  | nil => rfl
  | cons x xs ih =>
    rw [List.cons_append, walk, walk]
    split
    · rfl
    · exact ih _

/-- Visiting a word walks over its keys. -/
theorem visitWord_eq (base : Nat) (seen : List Nat) (w : UInt64) :
    visitWord stop base seen w = walk stop seen (wordKeys base w) := by
  fun_induction visitWord stop base seen w with
  | case1 seen w h => rw [lowest?_eq_none h, walk]
  | case2 seen w j h seen' hstop => rw [wordKeys_lowest h, walk, if_pos hstop]
  | case3 seen w j h seen' hgo ih => rw [wordKeys_lowest h, walk, if_neg hgo, ih]

/-- Visiting words walks over the keys of all of them. -/
theorem visitWords_eq (i : Nat) (seen : List Nat) (ws : List UInt64) :
    visitWords stop i seen ws =
      (walk stop seen ((ws.zipIdx i).flatMap fun x => wordKeys (64 * x.2) x.1)).1 := by
  induction ws generalizing i seen with
  | nil => rfl
  | cons w ws ih =>
    rw [visitWords, visitWord_eq, List.zipIdx_cons, List.flatMap_cons, walk_append]
    split
    · next h => rw [h]
    · next h => rw [h, ih]

/-- Taking the lowest bits out of the words is a walk along the listing. -/
theorem visit_eq (s : BitSet) (stop : List Nat → Bool) :
    s.visit stop = (walk stop [] s.toList).1.reverse := by
  rw [visit, visitWords_eq]
  rfl

/-- What a callback sees of a listing: it goes on after each key but the last one, and after that one
only if there are no more. -/
structure Visits (stop : List Nat → Bool) (xs ks : List Nat) : Prop where
  isPrefix : ks <+: xs
  goes : ∀ ps, ps <+: ks → ps ≠ [] → ps ≠ ks → stop ps.reverse = false
  stops : ks ≠ xs → ks ≠ [] ∧ stop ks.reverse = true

/-- The walk behind keys after which the callback went on. -/
theorem visits_walk (seen xs : List Nat)
    (hseen : ∀ ps, ps <+: seen.reverse → ps ≠ [] → stop ps.reverse = false) :
    Visits stop (seen.reverse ++ xs) (walk stop seen xs).1.reverse := by
  -- On the members that are left; what was seen is the part before them.
  induction xs generalizing seen with
  | nil =>
    rw [List.append_nil]
    exact ⟨List.prefix_refl _, fun ps hps hne _ => hseen ps hps hne, fun h => absurd rfl h⟩
  | cons x xs ih =>
    have hcons : seen.reverse ++ x :: xs = (x :: seen).reverse ++ xs := by simp
    rw [walk, hcons]
    -- a beginning of the keys so far is all of them or a beginning of those before
    have hbefore : ∀ ps, ps <+: (x :: seen).reverse → ps ≠ (x :: seen).reverse →
        ps <+: seen.reverse := by
      intro ps hps hne
      rw [List.reverse_cons] at hps hne
      exact (List.prefix_concat_iff.1 hps).resolve_left hne
    split
    · next hstop =>
      refine ⟨List.prefix_append _ _, fun ps hps hne hlast => ?_, fun _ => ⟨by simp, ?_⟩⟩
      · exact hseen ps (hbefore ps hps hlast) hne
      · rwa [List.reverse_reverse]
    · next hgo =>
      apply ih
      intro ps hps hne
      by_cases hlast : ps = (x :: seen).reverse
      · rw [hlast, List.reverse_reverse]
        exact Bool.eq_false_of_not_eq_true hgo
      · exact hseen ps (hbefore ps hps hlast) hne

/-- A visit goes over the members in order, until it is told to stop. -/
theorem visits_visit (s : BitSet) (stop : List Nat → Bool) : Visits stop s.toList (s.visit stop) := by
  have h : Visits stop s.toList (walk stop [] s.toList).1.reverse :=
    visits_walk [] s.toList fun ps hps hne => absurd (List.prefix_nil.1 hps) hne
  rw [visit_eq]
  exact h

end Tac.BitSet

namespace Tac.Session

/-! ## Requests on finite sets -/

/-- The keys of a list up to the first negative one. -/
def usable (ks : List Int) : Finset Nat := ((ks.takeWhile fun k => 0 ≤ k).map Int.toNat).toFinset

/-- The finite sets by name after a request.  A negative key is refused; keys before it are added to
a set that is there. -/
def SetRequest.members (m : String → Finset Nat) : SetRequest → String → Finset Nat
  | .of a ks => if ∀ k ∈ ks, 0 ≤ k then Function.update m a (usable ks) else m
  | .add a ks => Function.update m a (m a ∪ usable ks)
  | .erase a k => if k < 0 then m else Function.update m a ((m a).erase k.toNat)
  | .union a b => Function.update m a (m a ∪ m b)
  | .diff a b => Function.update m a (m a \ m b)
  | .copy a b => Function.update m a (m b)
  | .reset a => Function.update m a ∅
  | .contains .. | .same .. | .size _ | .first .. | .wire _ => m

/-- The bit sets by name after requests. -/
def Sets.after (rs : List SetRequest) : Sets := rs.foldl (fun st r => (st.handle r).1) {}

/-- The finite sets by name after requests. -/
def membersAfter (rs : List SetRequest) : String → Finset Nat :=
  rs.foldl SetRequest.members fun _ => ∅

/-- The named bit sets have the members of the named finite sets. -/
def Represents (st : Sets) (m : String → Finset Nat) : Prop :=
  ∀ a k, (st.named a).contains k = true ↔ k ∈ m a

/-- Keys are added up to the first that is negative. -/
theorem contains_addKeys (s : BitSet) (ks : List Int) (k : Nat) :
    (addKeys s ks).1.contains k = true ↔ s.contains k = true ∨ k ∈ usable ks := by
  -- On the keys; the first negative one ends it.
  induction ks generalizing s with
  | nil => simp [addKeys, usable]
  | cons x ks ih =>
    rw [addKeys]
    split
    · next hneg =>
      have hstop : ¬ 0 ≤ x := by omega
      simp [usable, hstop]
    · next hpos =>
      have hgo : 0 ≤ x := by omega
      rw [ih, BitSet.contains_insert]
      simp [usable, hgo]
      tauto

/-- Of a list without negative keys all are taken. -/
theorem mem_usable {ks : List Int} (h : ∀ k ∈ ks, 0 ≤ k) (k : Nat) : k ∈ usable ks ↔ (k : Int) ∈ ks := by
  have hall : ks.takeWhile (fun k => decide (0 ≤ k)) = ks :=
    List.takeWhile_eq_self_iff.2 fun k hk => decide_eq_true (h k hk)
  rw [usable, hall, List.mem_toFinset, List.mem_map]
  constructor
  · rintro ⟨j, hj, rfl⟩
    rwa [Int.toNat_of_nonneg (h j hj)]
  · exact fun hk => ⟨k, hk, Int.toNat_natCast k⟩

/-- All keys were added just if none is negative. -/
theorem addKeys_snd (s : BitSet) (ks : List Int) :
    (addKeys s ks).2 = true ↔ ∀ k ∈ ks, 0 ≤ k := by
  induction ks generalizing s with
  | nil => simp [addKeys]
  | cons x ks ih =>
    rw [addKeys, List.forall_mem_cons]
    split
    · next hneg => simp [hneg]
    · next hpos => rw [ih]; simp [Int.not_lt.1 hpos]

section Represents

variable {st : Sets} {m : String → Finset Nat}

/-- Writing one set leaves the others as they are. -/
theorem named_insert (st : Sets) (a b : String) (s : BitSet) :
    Sets.named (st.insert a s) b = if a = b then s else st.named b := by
  rw [Sets.named, Std.TreeMap.getD_insert]
  simp only [Std.LawfulEqCmp.compare_eq_iff_eq]
  rfl

/-- A new set under a name, with the members that the name gets. -/
theorem Represents.put (h : Represents st m) {a : String} {s : BitSet} {xs : Finset Nat}
    (hs : ∀ k, s.contains k = true ↔ k ∈ xs) :
    Represents (st.insert a s) (Function.update m a xs) := by
  intro b k
  rw [named_insert, Function.update_apply]
  by_cases hab : a = b
  · rw [if_pos hab, if_pos hab.symm]
    exact hs k
  · rw [if_neg hab, if_neg (Ne.symm hab)]
    exact h b k

/-- A request changes a set as it changes the finite set it stands for. -/
theorem Represents.handle (h : Represents st m) (r : SetRequest) :
    Represents (st.handle r).1 (r.members m) := by
  cases r with
  | of a ks =>
    have hkeys := addKeys_snd BitSet.empty ks
    have hmem := contains_addKeys BitSet.empty ks
    rw [Sets.handle, SetRequest.members]
    split
    · next s hs =>
      rw [hs] at hkeys hmem
      rw [if_pos (hkeys.1 rfl)]
      apply h.put
      simpa using hmem
    · next s hs =>
      rw [hs] at hkeys
      rw [if_neg fun hall => absurd (hkeys.2 hall) Bool.false_ne_true]
      exact h
  | add a ks =>
    -- keys before a negative one stay in the set
    have hst : ((st.handle (.add a ks)).1) = st.insert a (addKeys (st.named a) ks).1 := by
      rw [Sets.handle]
      split
      · next hs => rw [hs]; rfl
      · next hs => rw [hs]
    rw [hst, SetRequest.members]
    apply h.put
    intro k
    rw [contains_addKeys, h a k, Finset.mem_union]
  | erase a k =>
    rw [Sets.handle, SetRequest.members]
    split
    · exact h
    · apply h.put
      intro j
      rw [BitSet.contains_erase, Finset.mem_erase, ← h a j]
      simp
  | union a b =>
    apply h.put
    intro k
    rw [BitSet.contains_union, Bool.or_eq_true, h a k, h b k, Finset.mem_union]
  | diff a b =>
    apply h.put
    intro k
    rw [BitSet.contains_diff, Finset.mem_sdiff, ← h a k, ← h b k]
    simp
  | copy a b =>
    apply h.put
    intro k
    rw [BitSet.contains_copy, h b k]
  | reset a =>
    apply h.put
    intro k
    simp
  | contains a k =>
    rw [Sets.handle, SetRequest.members]
    split <;> exact h
  | same | size | first | wire => exact h

/-- Requests change the sets as they change the finite sets they stand for. -/
theorem Represents.foldl (h : Represents st m) (rs : List SetRequest) :
    Represents (rs.foldl (fun st r => (st.handle r).1) st) (rs.foldl SetRequest.members m) := by
  induction rs generalizing st m with
  | nil => exact h
  | cons r rs ih => exact ih (h.handle r)

/-- After any requests the sets stand for the finite sets that are asked for. -/
theorem represents_after (rs : List SetRequest) : Represents (Sets.after rs) (membersAfter rs) := by
  apply Represents.foldl
  intro a k
  have hnew : Sets.named {} a = BitSet.empty := by simp [Sets.named]
  simp [hnew]

end Represents

/-- A set that is made by requests answers as the finite set of its members. -/
theorem after_answers (rs : List SetRequest) (a : String) :
    let s := (Sets.after rs).named a
    let xs := membersAfter rs a
    (∀ k, s.contains k = decide (k ∈ xs)) ∧
      ((∀ k, k ∈ s.toList ↔ k ∈ xs) ∧ s.toList.Pairwise (· < ·)) ∧
      (s.size = s.toList.length ∧ s.size = xs.card) ∧
      (∀ stop, BitSet.Visits stop s.toList (s.visit stop)) ∧
      ∀ b, s.sameMembers ((Sets.after rs).named b) = true ↔ xs = membersAfter rs b := by
  intro s xs
  have hrep := represents_after rs
  have hmem : ∀ k, k ∈ s.toList ↔ k ∈ xs := fun k => (BitSet.mem_toList s k).trans (hrep a k)
  refine ⟨fun k => ?_, ⟨hmem, BitSet.pairwise_toList s⟩, ⟨BitSet.size_eq_length s, ?_⟩,
    BitSet.visits_visit s, fun b => ?_⟩
  · rw [Bool.eq_iff_iff, decide_eq_true_iff]
    exact hrep a k
  · -- the listing has no repetitions, so its length counts the members
    have hset : s.toList.toFinset = xs := Finset.ext fun k => List.mem_toFinset.trans (hmem k)
    rw [BitSet.size_eq_length, ← hset, List.toFinset_card_of_nodup (BitSet.nodup_toList s)]
  · rw [BitSet.sameMembers_iff, Finset.ext_iff]
    constructor
    · intro h k
      rw [← hrep a k, ← hrep b k, show s.contains k = _ from h k]
    · intro h k
      rw [Bool.eq_iff_iff, hrep b k, ← h k]
      exact hrep a k

/-- A set that shrank again is the same as one that never grew. -/
example : ((Sets.after [.of "a" [1, 70], .of "b" [1, 70, 300], .erase "b" 300]).named "a").sameMembers
    ((Sets.after [.of "b" [1, 70, 300], .erase "b" 300]).named "b") = true := by
  decide +kernel

end Tac.Session
