import Mathlib
import Tac.BitSet

/-!
# Members of bit sets

A set is stored as words, but everything the analyses ask of it depends on `contains` alone.  This
module says once what each operation does to the members, so that no later proof looks at words.

* **`and_bit`** — the test of a bit in a word is the bit of the word as a bit vector; all word-level
  reasoning goes through it.
* **`contains_*`** — one equation for each operation.
* **`mem_toList`, `pairwise_toList`** — the listing holds exactly the members, strictly ascending.
* **`sameMembers_iff`** — the comparison decides equality of members whatever the storage.
-/

namespace Tac.BitSet

/-! ## One word

A key has its bit at position `k % 64` of word `k / 64`.  Two keys of one word with the same
position are the same key. -/

theorem eq_of_div_mod {j k : Nat} (hd : j / 64 = k / 64) (hm : j % 64 = k % 64) : j = k := by
  omega

/-- A bit as a bit vector. -/
theorem toBitVec_bit (k : Nat) : (bit k).toBitVec = BitVec.twoPow 64 (k % 64) := by
  have hk : k % 64 < 64 := Nat.mod_lt _ (by decide)
  have hs : (BitVec.ofNat 64 (k % 64) % (64 : BitVec 64)).toNat = k % 64 := by
    rw [BitVec.toNat_umod, BitVec.toNat_ofNat]
    rw [show (64 : BitVec 64).toNat = 64 from rfl]
    rw [Nat.mod_eq_of_lt (show k % 64 < 2 ^ 64 by omega), Nat.mod_mod]
  rw [bit, UInt64.toBitVec_shiftLeft, BitVec.shiftLeft_eq', UInt64.toBitVec_ofNat', hs]
  rfl

/-- The bit of key `j` in the bit of key `k`. -/
theorem getLsbD_bit (k j : Nat) : (bit k).toBitVec.getLsbD (j % 64) = decide (j % 64 = k % 64) := by
  have hk : k % 64 < 64 := Nat.mod_lt _ (by decide)
  rw [toBitVec_bit, BitVec.getLsbD_twoPow]
  by_cases h : j % 64 = k % 64
  · simp [h, hk]
  · simp [h, Ne.symm h]

/-- Testing a word against the bit of a key reads that position of the word. -/
theorem and_bit (w : UInt64) (k : Nat) : (w &&& bit k != 0) = w.toBitVec.getLsbD (k % 64) := by
  have hk : k % 64 < 64 := Nat.mod_lt _ (by decide)
  -- Masking leaves a single bit or nothing.
  have hand : (w &&& bit k).toBitVec =
      if w.toBitVec.getLsbD (k % 64) then BitVec.twoPow 64 (k % 64) else 0 := by
    rw [UInt64.toBitVec_and, toBitVec_bit, BitVec.and_twoPow]
    rfl
  cases h : w.toBitVec.getLsbD (k % 64) with
  | false =>
    rw [h] at hand
    have : w &&& bit k = 0 := UInt64.toBitVec_inj.1 (by rw [hand]; rfl)
    simp [this]
  | true =>
    rw [h] at hand
    have hne : w &&& bit k ≠ 0 := by
      intro h0
      rw [h0] at hand
      have hb := congrArg (fun v : BitVec 64 => v.getLsbD (k % 64)) hand
      simp [hk] at hb
    simp [hne]

theorem contains_eq (s : BitSet) (k : Nat) :
    s.contains k = (s.word (k / 64)).toBitVec.getLsbD (k % 64) := and_bit _ _

/-! ## Words of changed storage -/

/-- Growing adds words that are empty. -/
theorem word_grow (s : BitSet) (n i : Nat) : (s.grow n).word i = s.word i := by
  unfold grow
  split
  · simp only [word, Array.getD_eq_getD_getElem?, Array.getElem?_append, Array.getElem?_replicate]
    split
    · rfl
    · next h =>
      rw [Array.getElem?_eq_none (by omega)]
      split <;> rfl
  · rfl

/-- A set that was grown has as many words as were asked for. -/
theorem size_grow (s : BitSet) (n : Nat) : n ≤ (s.grow n).words.size := by
  unfold grow
  split
  · simp only [Array.size_append, Array.size_replicate]
    omega
  · omega

/-- Changing a word that is stored changes that word and no other. -/
theorem getD_modify (ws : Array UInt64) (n i : Nat) (f : UInt64 → UInt64) (h : n < ws.size) :
    (ws.modify n f).getD i 0 = if n = i then f (ws.getD i 0) else ws.getD i 0 := by
  simp only [Array.getD_eq_getD_getElem?, Array.getElem?_modify]
  split
  · next hi =>
    subst hi
    rw [Array.getElem?_eq_getElem h]
    rfl
  · rfl

/-- Mapping words by position maps the words that are stored. -/
theorem getD_mapIdx (ws : Array UInt64) (f : Nat → UInt64 → UInt64) (i : Nat) :
    (ws.mapIdx f).getD i 0 = if i < ws.size then f i (ws.getD i 0) else 0 := by
  simp only [Array.getD_eq_getD_getElem?, Array.getElem?_mapIdx]
  split
  · next h =>
    rw [Array.getElem?_eq_getElem h]
    rfl
  · next h =>
    rw [Array.getElem?_eq_none (by omega)]
    rfl

/-! ## Members after each operation -/

@[simp] theorem contains_empty (k : Nat) : empty.contains k = false := by
  rw [contains_eq]
  simp [word, empty]

/-- Inserting adds one member. -/
@[simp] theorem contains_insert (s : BitSet) (k j : Nat) :
    (s.insert k).contains j = (decide (j = k) || s.contains j) := by
  have hsize : k / 64 < (s.grow (k / 64 + 1)).words.size := size_grow s (k / 64 + 1)
  have hword : (s.insert k).word (j / 64) =
      if k / 64 = j / 64 then s.word (j / 64) ||| bit k else s.word (j / 64) := by
    have hg := word_grow s (k / 64 + 1) (j / 64)
    simp only [word] at hg
    simp only [insert, word, getD_modify _ _ _ _ hsize, hg]
  rw [contains_eq, contains_eq, hword]
  -- In another word nothing changes; in the same word only the bit of the key.
  by_cases hd : k / 64 = j / 64
  · rw [if_pos hd, UInt64.toBitVec_or, BitVec.getLsbD_or, getLsbD_bit, Bool.or_comm]
    congr 1
    exact decide_eq_decide.2 ⟨fun hm => eq_of_div_mod hd.symm hm, fun h => by rw [h]⟩
  · have hne : j ≠ k := fun h => hd (by rw [h])
    simp [hd, hne]

/-- Erasing takes one member away. -/
@[simp] theorem contains_erase (s : BitSet) (k j : Nat) :
    (s.erase k).contains j = (decide (j ≠ k) && s.contains j) := by
  rw [contains_eq, contains_eq]
  by_cases hsize : k / 64 < s.words.size
  · have hword : (s.erase k).word (j / 64) =
        if k / 64 = j / 64 then s.word (j / 64) &&& ~~~(bit k) else s.word (j / 64) := by
      simp only [erase, word, getD_modify _ _ _ _ hsize]
    rw [hword]
    by_cases hd : k / 64 = j / 64
    · have hlt : j % 64 < 64 := Nat.mod_lt _ (by decide)
      rw [if_pos hd, UInt64.toBitVec_and, UInt64.toBitVec_not, BitVec.getLsbD_and,
        BitVec.getLsbD_not, getLsbD_bit, Bool.and_comm]
      congr 1
      have hiff : j % 64 = k % 64 ↔ j = k :=
        ⟨fun hm => eq_of_div_mod hd.symm hm, fun h => by rw [h]⟩
      simp [hlt, hiff]
    · have hne : j ≠ k := fun h => hd (by rw [h])
      simp [hd, hne]
  · -- the key lies beyond the storage, so nothing changes and it was no member
    have hword : (s.erase k).word (j / 64) = s.word (j / 64) := by
      have hout : s.words.modify (k / 64) (· &&& ~~~(bit k)) = s.words := by
        apply Array.ext_getElem?
        intro i
        rw [Array.getElem?_modify]
        split
        · next h => rw [← h, Array.getElem?_eq_none (by omega)]; rfl
        · rfl
      simp only [erase, word, hout]
    rw [hword]
    by_cases hj : j = k
    · subst hj
      have h0 : s.word (j / 64) = 0 := by
        simp only [word, Array.getD_eq_getD_getElem?]
        rw [Array.getElem?_eq_none (by omega)]
        rfl
      simp [h0]
    · simp [hj]

/-- The members of a union. -/
@[simp] theorem contains_union (s t : BitSet) (j : Nat) :
    (s.union t).contains j = (s.contains j || t.contains j) := by
  have hsize := size_grow s t.words.size
  have hg := word_grow s t.words.size (j / 64)
  rw [contains_eq, contains_eq, contains_eq]
  have hword : (s.union t).word (j / 64) = s.word (j / 64) ||| t.word (j / 64) := by
    have hm := getD_mapIdx (s.grow t.words.size).words (fun i w => w ||| t.word i) (j / 64)
    simp only [union, word] at hm hg ⊢
    rw [hm, hg]
    by_cases h : j / 64 < (s.grow t.words.size).words.size
    · rw [if_pos h]
    · rw [if_neg h]
      -- beyond the grown storage both sets have zero words
      have hs : s.words.getD (j / 64) 0 = 0 := by
        rw [← hg, Array.getD_eq_getD_getElem?, Array.getElem?_eq_none (by omega)]
        rfl
      have ht : t.words.getD (j / 64) 0 = 0 := by
        rw [Array.getD_eq_getD_getElem?, Array.getElem?_eq_none (by omega)]
        rfl
      rw [hs, ht]
      rfl
  rw [hword, UInt64.toBitVec_or, BitVec.getLsbD_or]

/-- The bits of a word outside another word. -/
theorem getLsbD_clear (w v : UInt64) {p : Nat} (hp : p < 64) :
    (w &&& ~~~v).toBitVec.getLsbD p = (w.toBitVec.getLsbD p && !v.toBitVec.getLsbD p) := by
  rw [UInt64.toBitVec_and, UInt64.toBitVec_not, BitVec.getLsbD_and, BitVec.getLsbD_not]
  simp [hp]

/-- The members of a difference. -/
@[simp] theorem contains_diff (s t : BitSet) (j : Nat) :
    (s.diff t).contains j = (s.contains j && !t.contains j) := by
  rw [contains_eq, contains_eq, contains_eq]
  have hword : (s.diff t).word (j / 64) = s.word (j / 64) &&& ~~~(t.word (j / 64)) := by
    have hm := getD_mapIdx s.words (fun i w => w &&& ~~~(t.word i)) (j / 64)
    simp only [diff, word] at hm ⊢
    rw [hm]
    split
    · rfl
    · -- beyond the storage there is nothing to remove
      rw [UInt64.zero_and]
  rw [hword, getLsbD_clear _ _ (Nat.mod_lt _ (by decide))]

@[simp] theorem contains_reset (s : BitSet) (j : Nat) : s.reset.contains j = false := by
  rw [contains_eq]
  simp [word, reset]

@[simp] theorem contains_copy (s : BitSet) (j : Nat) : s.copy.contains j = s.contains j := rfl

/-- Inserting a list adds its members. -/
@[simp] theorem contains_insertAll (s : BitSet) (ks : List Nat) (j : Nat) :
    (s.insertAll ks).contains j = (decide (j ∈ ks) || s.contains j) := by
  unfold insertAll
  induction ks generalizing s with
  | nil => simp
  | cons k ks ih =>
    rw [List.foldl_cons, ih, contains_insert]
    by_cases hjk : j = k <;> simp [hjk]

/-- Erasing a list takes its members away. -/
theorem contains_foldl_erase (s : BitSet) (ks : List Nat) (j : Nat) :
    (ks.foldl erase s).contains j = (decide (j ∉ ks) && s.contains j) := by
  induction ks generalizing s with
  | nil => simp
  | cons k ks ih =>
    rw [List.foldl_cons, ih, contains_erase]
    by_cases hjk : j = k <;> simp [hjk]

/-- A fold of unions holds the members of the start and of every set that was joined. -/
theorem contains_foldl_union {ι : Type} (f : ι → BitSet) (is : List ι) (s : BitSet) (j : Nat) :
    (is.foldl (fun m i => m.union (f i)) s).contains j =
      (s.contains j || is.any fun i => (f i).contains j) := by
  induction is generalizing s with
  | nil => simp
  | cons i is ih => rw [List.foldl_cons, ih, contains_union, List.any_cons, Bool.or_assoc]

/-! ## The listing -/

/-- An empty word is skipped, which changes nothing. -/
theorem wordKeys_eq (base : Nat) (w : UInt64) : wordKeys base w =
    (List.range 64).filterMap fun j => if w &&& bit j != 0 then some (base + j) else none := by
  unfold wordKeys
  split
  · next h0 =>
    symm
    rw [List.filterMap_eq_nil_iff]
    intro j _
    simp [h0]
  · rfl

/-- The keys of a word are the bits that are set in it. -/
theorem mem_wordKeys (base : Nat) (w : UInt64) (k : Nat) :
    k ∈ wordKeys base w ↔ base ≤ k ∧ k < base + 64 ∧ w.toBitVec.getLsbD (k - base) = true := by
  rw [wordKeys_eq, List.mem_filterMap]
  constructor
  -- The key is the position of a bit behind the base of the word.
  · rintro ⟨j, hj, hjk⟩
    have hlt : j < 64 := List.mem_range.1 hj
    rw [and_bit, Nat.mod_eq_of_lt hlt] at hjk
    split at hjk
    · next hbit =>
      obtain rfl := Option.some.inj hjk
      rw [Nat.add_sub_cancel_left]
      exact ⟨by omega, by omega, hbit⟩
    · cases hjk
  · rintro ⟨hle, hlt, hbit⟩
    refine ⟨k - base, List.mem_range.2 (by omega), ?_⟩
    rw [and_bit, Nat.mod_eq_of_lt (by omega), if_pos hbit]
    congr 1
    omega

/-- The listing holds exactly the members. -/
theorem mem_toList (s : BitSet) (k : Nat) : k ∈ s.toList ↔ s.contains k = true := by
  rw [toList, List.mem_flatMap, contains_eq]
  constructor
  · rintro ⟨⟨w, i⟩, hmem, hk⟩
    obtain ⟨hle, hlt, hbit⟩ := (mem_wordKeys _ _ _).1 hk
    have hi : k / 64 = i := by omega
    have hw : s.words.toList[i]? = some w := by
      rw [List.mem_zipIdx_iff_getElem?] at hmem
      simpa using hmem
    have hword : s.word (k / 64) = w := by
      rw [word, hi, Array.getD_eq_getD_getElem?, ← Array.getElem?_toList, hw]
      rfl
    rw [hword, show k % 64 = k - 64 * i by omega]
    exact hbit
  · intro hbit
    -- Words beyond the storage read as zero, so the member lies in a stored one.
    have hlt : k / 64 < s.words.size := by
      by_contra hge
      rw [word, Array.getD_eq_getD_getElem?, Array.getElem?_eq_none (by omega)] at hbit
      simp at hbit
    refine ⟨(s.word (k / 64), k / 64), ?_, ?_⟩
    · rw [List.mem_zipIdx_iff_getElem?]
      simp only [word, Array.getD_eq_getD_getElem?, Array.getElem?_toList]
      rw [Array.getElem?_eq_getElem hlt]
      rfl
    · rw [mem_wordKeys]
      refine ⟨by omega, by omega, ?_⟩
      rw [show k - 64 * (k / 64) = k % 64 by omega]
      exact hbit

/-- The keys of a word are listed in order. -/
theorem pairwise_wordKeys (base : Nat) (w : UInt64) : (wordKeys base w).Pairwise (· < ·) := by
  unfold wordKeys
  split
  · exact List.Pairwise.nil
  -- The positions of a word are visited from the lowest one.
  · rw [List.pairwise_filterMap]
    refine List.pairwise_lt_range.imp ?_
    intro a b hab x hx y hy
    split at hx
    · split at hy
      · obtain rfl := Option.some.inj hx
        obtain rfl := Option.some.inj hy
        omega
      · cases hy
    · cases hx

/-- The listing is strictly ascending: keys of one word ascend, and all keys of a word lie below
those of the next. -/
theorem pairwise_toList (s : BitSet) : s.toList.Pairwise (· < ·) := by
  rw [toList, List.pairwise_flatMap]
  refine ⟨fun x _ => pairwise_wordKeys _ _, ?_⟩
  -- words come in ascending order of their positions
  have hidx : (s.words.toList.zipIdx).Pairwise fun x y => x.2 < y.2 := by
    have hlt := List.pairwise_lt_range (n := s.words.toList.length)
    rw [List.range_eq_range', ← List.zipIdx_map_snd 0 s.words.toList] at hlt
    exact List.pairwise_map.1 hlt
  refine hidx.imp ?_
  rintro ⟨v, i⟩ ⟨w, j⟩ hij a ha b hb
  have hA := (mem_wordKeys _ _ _).1 ha
  have hB := (mem_wordKeys _ _ _).1 hb
  simp only at hij hA hB
  omega

theorem nodup_toList (s : BitSet) : s.toList.Nodup :=
  (pairwise_toList s).imp fun h => Nat.ne_of_lt h

/-- Two ascending lists of the same keys are the same list. -/
theorem eq_of_ascending {xs ys : List Nat} (hxs : xs.Pairwise (· < ·)) (hys : ys.Pairwise (· < ·))
    (h : ∀ k, k ∈ xs ↔ k ∈ ys) : xs = ys := by
  have hperm : xs.Perm ys :=
    (List.perm_ext_iff_of_nodup (hxs.imp Nat.ne_of_lt) (hys.imp Nat.ne_of_lt)).2 h
  exact hperm.eq_of_pairwise (fun a b _ _ h1 h2 => absurd h1 (by omega)) hxs hys

/-! ## Comparison and size -/

/-- A word has as many keys as it has ones. -/
theorem length_wordKeys (base : Nat) (w : UInt64) : (wordKeys base w).length = ones w := by
  rw [wordKeys_eq, List.length_filterMap_eq_countP, ones]
  apply List.countP_congr
  intro j _
  by_cases h : w &&& bit j = 0 <;> simp [h]

/-- The size is the length of the listing: both count the bits of every word. -/
theorem size_eq_length (s : BitSet) : s.size = s.toList.length := by
  have hkeys : ∀ x : UInt64 × Nat, (wordKeys (64 * x.2) x.1).length = ones x.1 := fun x =>
    length_wordKeys _ _
  have hwords : s.words.toList.zipIdx.map Prod.fst = s.words.toList := List.zipIdx_map_fst 0 _
  rw [size, toList, List.length_flatMap, List.map_congr_left fun x _ => hkeys x]
  conv_lhs => rw [← hwords, List.map_map]
  rfl

/-- Sets compare equal just if they have the same members, however many words they have. -/
theorem sameMembers_iff (s t : BitSet) :
    s.sameMembers t = true ↔ ∀ k, s.contains k = t.contains k := by
  rw [sameMembers, List.all_eq_true]
  constructor
  · intro h k
    rw [contains_eq, contains_eq]
    by_cases hk : k / 64 < max s.words.size t.words.size
    · rw [eq_of_beq (h _ (List.mem_range.2 hk))]
    · -- beyond both storages there are no members
      have hs : s.word (k / 64) = 0 := by
        rw [word, Array.getD_eq_getD_getElem?, Array.getElem?_eq_none (by omega)]
        rfl
      have ht : t.word (k / 64) = 0 := by
        rw [word, Array.getD_eq_getD_getElem?, Array.getElem?_eq_none (by omega)]
        rfl
      rw [hs, ht]
  · intro h i _
    have hw : s.word i = t.word i := by
      apply UInt64.toBitVec_inj.1
      apply BitVec.eq_of_getLsbD_eq
      intro p hp
      have := h (64 * i + p)
      rwa [contains_eq, contains_eq, show (64 * i + p) / 64 = i by omega,
        show (64 * i + p) % 64 = p by omega] at this
    rw [hw]
    exact beq_self_eq_true _

theorem isEmpty_toList_iff (s : BitSet) : s.toList = [] ↔ ∀ k, s.contains k = false := by
  rw [List.eq_nil_iff_forall_not_mem]
  exact forall_congr' fun k => by rw [mem_toList, Bool.not_eq_true]

/-- Adding a key that was no member makes the set larger by one. -/
theorem size_insert (s : BitSet) (k : Nat) (h : s.contains k = false) :
    (s.insert k).size = s.size + 1 := by
  have hnot : k ∉ s.toList := fun hk => by
    rw [(mem_toList s k).1 hk] at h
    cases h
  have hperm : (s.insert k).toList.Perm (k :: s.toList) := by
    refine (List.perm_ext_iff_of_nodup (nodup_toList _)
      (List.nodup_cons.2 ⟨hnot, nodup_toList s⟩)).2 fun j => ?_
    rw [mem_toList, contains_insert, List.mem_cons, mem_toList]
    simp
  rw [size_eq_length, size_eq_length, hperm.length_eq, List.length_cons]

/-- Removing a member makes the set smaller by one. -/
theorem size_erase (s : BitSet) (k : Nat) (h : s.contains k = true) :
    (s.erase k).size + 1 = s.size := by
  have hmem : k ∈ s.toList := (mem_toList s k).2 h
  have hperm : (s.erase k).toList.Perm (s.toList.erase k) := by
    refine (List.perm_ext_iff_of_nodup (nodup_toList _) ((nodup_toList s).erase k)).2 fun j => ?_
    rw [mem_toList, contains_erase, (nodup_toList s).mem_erase_iff, mem_toList]
    simp
  have hpos := List.length_pos_of_mem hmem
  rw [size_eq_length, size_eq_length, hperm.length_eq, List.length_erase_of_mem hmem]
  omega

end Tac.BitSet
