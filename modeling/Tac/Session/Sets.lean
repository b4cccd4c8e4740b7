import Std.Data.TreeMap
import Tac.BitSet

/-!
# Working with named sets

Requests on bit sets that are kept by name.  A name that was not used before is the empty set.  Keys
come as integers; a negative one is refused, after the keys before it were taken.
-/

namespace Tac.Session

/-- Sets by name. -/
abbrev Sets := Std.TreeMap String BitSet

/-- A request on named sets. -/
inductive SetRequest where
  | of (a : String) (keys : List Int)
  | add (a : String) (keys : List Int)
  | erase (a : String) (key : Int)
  | union (a b : String)
  | diff (a b : String)
  | copy (a b : String)
  | reset (a : String)
  | contains (a : String) (key : Int)
  | same (a b : String)
  | size (a : String)
  /-- The members up to the first after which `count` are seen. -/
  | first (a : String) (count : Int)
  | wire (a : String)

/-- The answer to a request. -/
inductive SetReply where
  | keys (ks : List Nat)
  | bool (b : Bool)
  | nat (n : Nat)
  | text (s : String)
  /-- A negative key. -/
  | fault

/-- Adds keys up to the first negative one; tells whether there was none. -/
def addKeys (s : BitSet) : List Int → BitSet × Bool
  | [] => (s, true)
  | k :: ks => if k < 0 then (s, false) else addKeys (s.insert k.toNat) ks

namespace Sets

/-- The set of a name. -/
def named (st : Sets) (a : String) : BitSet := st.getD a BitSet.empty

/-- Stores a set and answers with its members. -/
def put (st : Sets) (a : String) (s : BitSet) : Sets × SetReply := (st.insert a s, .keys s.toList)

/-- Carries out a request. -/
def handle (st : Sets) : SetRequest → Sets × SetReply
  | .of a ks =>
    match addKeys BitSet.empty ks with
    | (s, true) => st.put a s
    | (_, false) => (st, .fault)
  | .add a ks =>
    match addKeys (st.named a) ks with
    | (s, true) => st.put a s
    | (s, false) => (st.insert a s, .fault)
  | .erase a k => if k < 0 then (st, .fault) else st.put a ((st.named a).erase k.toNat)
  | .union a b => st.put a ((st.named a).union (st.named b))
  | .diff a b => st.put a ((st.named a).diff (st.named b))
  | .copy a b => st.put a (st.named b).copy
  | .reset a => st.put a (st.named a).reset
  | .contains a k =>
    if k < 0 then (st, .fault) else (st, .bool ((st.named a).contains k.toNat))
  | .same a b => (st, .bool ((st.named a).sameMembers (st.named b)))
  | .size a => (st, .nat (st.named a).size)
  | .first a n => (st, .keys ((st.named a).visit fun seen => n ≤ seen.length))
  | .wire a => (st, .text (Wire.hex (st.named a).wire))

end Sets

end Tac.Session
