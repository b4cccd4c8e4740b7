import Std.Data.TreeMap

/-!
# Disjoint groups of numbers

Numbers are put into groups by joining two of them at a time.  A group is a tree of links, from a
number to a smaller one of its group; the smallest is the root, which stands for the group.  Looking
up the root of a number links everything on the way to it directly.

A root has no link or a link to itself.  The search goes on as long as links go down, which on the
forests that joining makes is until it comes to a root.
-/

namespace Tac

/-- Links from numbers to members of the same group. -/
structure Forest where
  parent : Std.TreeMap Int Int := {}

namespace Forest

/-- How many numbers up to `u` have a link: all that a search from `u` can come by. -/
def below (f : Forest) (u : Int) : Nat := f.parent.keys.countP (· ≤ u)

/-- Fewer numbers of a list are at most `p` than at most a larger number that is in the list. -/
theorem countP_lt_of_mem {p u : Int} (hp : p < u) {ks : List Int} (hu : u ∈ ks) :
    ks.countP (· ≤ p) < ks.countP (· ≤ u) := by
  induction ks with
  | nil => cases hu
  | cons k ks ih =>
    have hle : ks.countP (· ≤ p) ≤ ks.countP (· ≤ u) :=
      List.countP_mono_left fun x _ hx => by simp at hx ⊢; omega
    rw [List.countP_cons, List.countP_cons]
    rcases List.mem_cons.1 hu with heq | hmem
    · -- the number itself counts on one side only
      rw [← heq, if_neg (by simp; omega), if_pos (by simp)]
      omega
    · have hlt := ih hmem
      by_cases hk : k ≤ p
      · simp [hk, show k ≤ u by omega]
        omega
      · simp only [hk, decide_false, Bool.false_eq_true, if_false]
        omega

/-- A search that goes down has fewer links before it. -/
theorem below_lt {f : Forest} {u p q : Int} (hu : f.parent[u]? = some q) (hp : p < u) :
    f.below p < f.below u := by
  apply countP_lt_of_mem hp
  rw [Std.TreeMap.mem_keys, Std.TreeMap.mem_iff_isSome_getElem?, hu]
  rfl

/-- Links a number to another one. -/
def link (f : Forest) (u r : Int) : Forest := { parent := f.parent.insert u r }

/-- The root of a number, and the forest in which all numbers on the way are linked to it. -/
def find (f : Forest) (u : Int) : Int × Forest :=
  match _hu : f.parent[u]? with
  | none => (u, f)
  | some p =>
    if _hp : p < u then
      let (r, g) := f.find p
      (r, g.link u r)
    else (u, f)
termination_by f.below u
decreasing_by exact below_lt _hu _hp

/-- The root of a number. -/
def root (f : Forest) (u : Int) : Int := (f.find u).1

/-- Joins the groups of two numbers under the smaller root. -/
def join (f : Forest) (a b : Int) : Forest :=
  let (ra, f) := f.find a
  let (rb, f) := f.find b
  if ra = rb then f else (f.link (min ra rb) (min ra rb)).link (max ra rb) (min ra rb)

end Forest

end Tac
