import Tac.Wire

/-!
# Sets of natural numbers as bit words

A set is stored as an array of 64-bit words: key `k` is a member when bit `k % 64` of word `k / 64`
is set.  The array grows on demand and never shrinks by itself, so one set has many storages;
everything but the log form depends on the members alone.  The log form also tells a set that was
never given storage from an empty one.
-/

namespace Tac

/-- A growable set of natural numbers. -/
structure BitSet where
  /-- Membership bits, 64 keys to a word, the lowest keys first. -/
  words : Array UInt64 := #[]
  /-- Whether storage was ever given to the set; a set with words always has it. -/
  stored : Bool := false
deriving Inhabited, DecidableEq, Repr

namespace BitSet

/-- The set without members and without storage. -/
def empty : BitSet := {}

/-- The word holding the bits of keys `64 * i` to `64 * i + 63`; zero beyond the storage. -/
def word (s : BitSet) (i : Nat) : UInt64 := s.words.getD i 0

/-- The bit of a key inside its word. -/
def bit (k : Nat) : UInt64 := (1 : UInt64) <<< UInt64.ofNat (k % 64)

/-- Membership. -/
def contains (s : BitSet) (k : Nat) : Bool := s.word (k / 64) &&& bit k != 0

/-- Extends the storage with zero words until it has at least `n` of them. -/
def grow (s : BitSet) (n : Nat) : BitSet :=
  if s.words.size < n then
    { words := s.words ++ Array.replicate (n - s.words.size) 0, stored := true }
  else s

/-- Adds a key, growing the storage up to its word. -/
def insert (s : BitSet) (k : Nat) : BitSet :=
  let t := s.grow (k / 64 + 1)
  { t with words := t.words.modify (k / 64) (· ||| bit k) }

/-- Adds the keys of a list. -/
def insertAll (s : BitSet) (ks : List Nat) : BitSet := ks.foldl insert s

/-- The set of the keys of a list. -/
def ofList (ks : List Nat) : BitSet := empty.insertAll ks

/-- Removes a key; the storage keeps its length. -/
def erase (s : BitSet) (k : Nat) : BitSet :=
  { s with words := s.words.modify (k / 64) (· &&& ~~~(bit k)) }

/-- Adds the members of `t`, growing the storage to the length of `t`'s. -/
def union (s t : BitSet) : BitSet :=
  let g := s.grow t.words.size
  { g with words := g.words.mapIdx fun i w => w ||| t.word i }

/-- Removes the members of `t`. -/
def diff (s t : BitSet) : BitSet :=
  { s with words := s.words.mapIdx fun i w => w &&& ~~~(t.word i) }

/-- The same members in storage of its own: none if there are no words. -/
def copy (s : BitSet) : BitSet := { words := s.words, stored := !s.words.isEmpty }

/-- Drops all members and all words. -/
def reset (s : BitSet) : BitSet := { words := #[], stored := s.stored }

/-- Equality of members, whatever the storage. -/
def sameMembers (s t : BitSet) : Bool :=
  (List.range (max s.words.size t.words.size)).all fun i => s.word i == t.word i

/-- The keys of one word, ascending, for the word whose first key is `base`. -/
def wordKeys (base : Nat) (w : UInt64) : List Nat :=
  if w = 0 then []
  else (List.range 64).filterMap fun j =>
    if w &&& bit j != 0 then some (base + j) else none

/-- The members in ascending order. -/
def toList (s : BitSet) : List Nat :=
  (s.words.toList.zipIdx).flatMap fun (w, i) => wordKeys (64 * i) w

/-- The number of bits that are set in a word. -/
def ones (w : UInt64) : Nat := (List.range 64).countP fun j => w &&& bit j != 0

/-- The number of members. -/
def size (s : BitSet) : Nat := (s.words.toList.map ones).foldr (· + ·) 0

/-- Whether there is no member. -/
def isEmpty (s : BitSet) : Bool := s.words.all (· == 0)

/-- The position of the lowest bit that is set in a word; none for zero. -/
def lowest? (w : UInt64) : Option Nat := (List.range 64).find? fun j => w &&& bit j != 0

/-- Clearing a bit that is set makes a word smaller. -/
theorem toNat_clear_lt {w b : UInt64} (h : w &&& b ≠ 0) : (w &&& ~~~b).toNat < w.toNat := by
  refine Nat.lt_of_le_of_ne ?_ fun heq => h ?_
  · rw [UInt64.toNat_and]
    exact Nat.and_le_left
  · -- a word that stays the same had none of the bits
    have hsame : w &&& ~~~b = w := UInt64.toNat_inj.1 heq
    rw [← hsame, UInt64.and_assoc, UInt64.not_and_self, UInt64.and_zero]

/-- Goes through the bits of a word that are set, the lowest first, where `base` is the first key of
the word.  Each key is put before those `seen`; tells whether `stop` held after one of them. -/
def visitWord (stop : List Nat → Bool) (base : Nat) (seen : List Nat) (w : UInt64) :
    List Nat × Bool :=
  match _h : lowest? w with
  | none => (seen, false)
  | some j =>
    let seen := (base + j) :: seen
    if stop seen then (seen, true) else visitWord stop base seen (w &&& ~~~(bit j))
termination_by w.toNat
decreasing_by exact toNat_clear_lt (by simpa using List.find?_some _h)

/-- Goes through the words from number `i` on, until `stop` holds. -/
def visitWords (stop : List Nat → Bool) : Nat → List Nat → List UInt64 → List Nat
  | _, seen, [] => seen
  | i, seen, w :: ws =>
    match visitWord stop (64 * i) seen w with
    | (seen, true) => seen
    | (seen, false) => visitWords stop (i + 1) seen ws

/-- The members up to and including the first one after which `stop` holds; it is given the members
so far, the latest first. -/
def visit (s : BitSet) (stop : List Nat → Bool) : List Nat :=
  (visitWords stop 0 [] s.words.toList).reverse

/-- The log form: the missing value for a set without storage, otherwise the list of members. -/
def wire (s : BitSet) : Wire.Bytes :=
  if s.stored then Wire.list (s.toList.map Wire.nat) else Wire.null

end BitSet

end Tac
