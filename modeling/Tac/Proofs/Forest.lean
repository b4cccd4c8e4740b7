import Mathlib
import Tac.Forest

/-!
# Groups of a forest

A forest is seen through the roots of its numbers: two numbers are in one group when they have one
root.  Searches link numbers anew and leave all roots as they are, and a join gives one root to two
groups.  So the groups after any joins are the classes of the smallest equivalence that contains the
joined pairs, whatever their order.

* **`root_find`, `root_join`** — what a search and a join do to roots.
* **`root_joinAll`, `root_joins`** — the groups after a list of joins.
* **`Descends`** — links go to smaller numbers or from a number to itself; searches and joins keep it.
* **`Grounded`** — under it a search does not stop before it comes to a root.
-/

namespace Tac.Forest

variable {f : Forest} {u v p : Int}

/-- A link changes one parent only. -/
theorem getElem?_link (f : Forest) (u r v : Int) :
    (f.link u r).parent[v]? = if u = v then some r else f.parent[v]? := by
  simp only [link, Std.TreeMap.getElem?_insert, Std.LawfulEqCmp.compare_eq_iff_eq]

/-! ## One step of a search -/

/-- A number that was never linked is its own root. -/
theorem find_of_none (h : f.parent[u]? = none) : f.find u = (u, f) := by
  unfold find
  split
  · rfl
  · next q hq =>
    rw [h] at hq
    cases hq

/-- A number whose parent is not below it is its own root. -/
theorem find_of_not_lt (h : f.parent[u]? = some p) (hp : ¬ p < u) : f.find u = (u, f) := by
  unfold find
  split
  · rfl
  · next q hq =>
    have hqp : q = p := Option.some.inj (hq.symm.trans h)
    rw [dif_neg (hqp ▸ hp)]

/-- Otherwise the root is that of the parent, and the path is shortened. -/
theorem find_of_lt (h : f.parent[u]? = some p) (hp : p < u) :
    f.find u = (f.root p, (f.find p).2.link u (f.root p)) := by
  conv => lhs; unfold find
  split
  · next hq =>
    rw [h] at hq
    cases hq
  · next q hq =>
    have hqp : q = p := Option.some.inj (hq.symm.trans h)
    subst hqp
    rw [dif_pos hp]
    rfl

theorem root_of_none (h : f.parent[u]? = none) : f.root u = u := by
  rw [root, find_of_none h]

theorem root_of_not_lt (h : f.parent[u]? = some p) (hp : ¬ p < u) : f.root u = u := by
  rw [root, find_of_not_lt h hp]

theorem root_of_lt (h : f.parent[u]? = some p) (hp : p < u) : f.root u = f.root p := by
  rw [root, find_of_lt h hp]

/-- Induction along a search: it ends at a number without a link or with a link that does not go
down, and goes on from the number that a link leads to. -/
theorem search_induction (f : Forest) {motive : Int → Prop}
    (bare : ∀ u, f.parent[u]? = none → motive u)
    (last : ∀ u p, f.parent[u]? = some p → ¬ p < u → motive u)
    (next : ∀ u p, f.parent[u]? = some p → p < u → motive p → motive u) (u : Int) : motive u := by
  induction u using find.induct f with
  | case1 u hu => exact bare u hu
  | case2 u p hu hp _ _ _ ih => exact next u p hu hp ih
  | case3 u p hu hp => exact last u p hu hp

/-- Roots lie below. -/
theorem root_le (f : Forest) (u : Int) : f.root u ≤ u := by
  induction u using search_induction f with
  | bare u hu => exact (root_of_none hu).le
  | last u p hu hp => exact (root_of_not_lt hu hp).le
  | next u p hu hp ih =>
    rw [root_of_lt hu hp]
    exact ih.trans hp.le

/-- A root is its own root. -/
theorem root_root (f : Forest) (u : Int) : f.root (f.root u) = f.root u := by
  induction u using search_induction f with
  | bare u hu => rw [root_of_none hu, root_of_none hu]
  | last u p hu hp => rw [root_of_not_lt hu hp, root_of_not_lt hu hp]
  | next u p hu hp ih => rw [root_of_lt hu hp, ih]

/-! ## Links that change no root -/

/-- A number that is linked to its root keeps it, and so does every number above it. -/
theorem root_link_root (f : Forest) (u v : Int) : (f.link u (f.root u)).root v = f.root v := by
  -- Along the search in the forest with the shortcut, which may pass through `u`.
  induction v using search_induction (f.link u (f.root u)) with
  | bare v hv =>
    rw [getElem?_link] at hv
    split at hv
    · cases hv
    · rw [root_of_none hv, root_of_none]
      rwa [getElem?_link, if_neg ‹_›]
  | last v p hv hp =>
    rw [root_of_not_lt hv hp]
    rw [getElem?_link] at hv
    split at hv
    · next huv =>
      -- the root is not below the number, so it is the number
      have hroot : f.root u = p := Option.some.inj hv
      have hle := f.root_le u
      rw [← huv, hroot]
      omega
    · rw [root_of_not_lt hv hp]
  | next v p hv hp ih =>
    rw [root_of_lt hv hp, ih]
    rw [getElem?_link] at hv
    split at hv
    · next huv =>
      have hroot : f.root u = p := Option.some.inj hv
      rw [← hroot, root_root, huv]
    · rw [root_of_lt hv hp]

/-- **A search changes no root.** -/
@[simp] theorem root_find (f : Forest) (u v : Int) : (f.find u).2.root v = f.root v := by
  -- Along the search; each step is a shortcut and leaves the roots as they are.
  induction u using search_induction f generalizing v with
  | bare u hu => rw [find_of_none hu]
  | last u p hu hp => rw [find_of_not_lt hu hp]
  | next u p hu hp ih =>
    rw [find_of_lt hu hp]
    -- in the forest that the rest of the search leaves, the new link leads to the root
    have hroot : f.root p = (f.find p).2.root u := by rw [ih, root_of_lt hu hp]
    rw [hroot, root_link_root, ih]

/-! ## Joins -/

/-- A root that is linked to a smaller root takes its group along. -/
theorem root_attach {lo hi : Int} (hlo : f.root lo = lo) (hhi : f.root hi = hi) (hlt : lo < hi)
    (v : Int) : ((f.link lo lo).link hi lo).root v = if f.root v = hi then lo else f.root v := by
  -- Along the search in the new forest, which ends in one of the two old roots or elsewhere.
  induction v using search_induction ((f.link lo lo).link hi lo) with
  | bare v hv =>
    rw [root_of_none hv]
    rw [getElem?_link, getElem?_link] at hv
    split at hv
    · cases hv
    · next hne =>
      split at hv
      · cases hv
      · rw [root_of_none hv, if_neg fun h => hne h.symm]
  | last v p hv hp =>
    rw [root_of_not_lt hv hp]
    rw [getElem?_link, getElem?_link] at hv
    split at hv
    · next heq =>
      have hp' : lo = p := Option.some.inj hv
      omega
    · next hne =>
      split at hv
      · next heq => rw [← heq, hlo, if_neg (by omega)]
      · rw [root_of_not_lt hv hp, if_neg fun h => hne h.symm]
  | next v p hv hp ih =>
    rw [root_of_lt hv hp, ih]
    rw [getElem?_link, getElem?_link] at hv
    split at hv
    · next heq =>
      have hp' : lo = p := Option.some.inj hv
      rw [← hp', ← heq, hlo, hhi, if_neg (by omega), if_pos rfl]
    · split at hv
      · next heq =>
        have hp' : lo = p := Option.some.inj hv
        omega
      · rw [root_of_lt hv hp]

/-- **A join gives the smaller root to the group of the larger one.** -/
theorem root_join (f : Forest) (a b v : Int) : (f.join a b).root v =
    if f.root v = max (f.root a) (f.root b) then min (f.root a) (f.root b) else f.root v := by
  have hb : ((f.find a).2.find b).1 = f.root b := f.root_find a b
  have hroots : ∀ w, ((f.find a).2.find b).2.root w = f.root w := fun w => by
    rw [root_find, root_find]
  have hjoin : f.join a b = if f.root a = f.root b then ((f.find a).2.find b).2 else
      (((f.find a).2.find b).2.link (min (f.root a) (f.root b)) (min (f.root a) (f.root b))).link
        (max (f.root a) (f.root b)) (min (f.root a) (f.root b)) := by
    rw [← hb]
    rfl
  rw [hjoin]
  split
  · next heq =>
    -- nothing to join: the larger root is the smaller one
    rw [hroots, heq, max_self, min_self]
    split <;> simp_all
  · next hne =>
    have hlo : f.root (min (f.root a) (f.root b)) = min (f.root a) (f.root b) := by
      rcases min_choice (f.root a) (f.root b) with h | h <;> rw [h, root_root]
    have hhi : f.root (max (f.root a) (f.root b)) = max (f.root a) (f.root b) := by
      rcases max_choice (f.root a) (f.root b) with h | h <;> rw [h, root_root]
    rw [root_attach (by rw [hroots, hlo]) (by rw [hroots, hhi]) (by omega), hroots]

/-- Numbers have one root after a join when they had, or when one was with `a` and the other with
`b`. -/
theorem root_join_eq_iff (f : Forest) (a b u v : Int) : (f.join a b).root u = (f.join a b).root v ↔
    f.root u = f.root v ∨ (f.root u = f.root a ∧ f.root v = f.root b) ∨
      (f.root u = f.root b ∧ f.root v = f.root a) := by
  rw [root_join, root_join]
  rcases le_total (f.root a) (f.root b) with h | h
  · rw [max_eq_right h, min_eq_left h]
    split <;> split <;> omega
  · rw [max_eq_left h, min_eq_right h]
    split <;> split <;> omega

/-- An equivalence that contains the groups and the joined pair contains the groups after the join. -/
theorem rel_of_root_join {r : Int → Int → Prop} (hr : Equivalence r) {a b : Int}
    (hgroups : ∀ x y, f.root x = f.root y → r x y) (hpair : r a b)
    (h : (f.join a b).root u = (f.join a b).root v) : r u v := by
  rcases (root_join_eq_iff f a b u v).1 h with hsame | ⟨hu, hv⟩ | ⟨hu, hv⟩
  · exact hgroups u v hsame
  · exact hr.trans (hr.trans (hgroups u a hu) hpair) (hgroups b v hv.symm)
  · exact hr.trans (hr.trans (hgroups u b hu) (hr.symm hpair)) (hgroups a v hv.symm)

/-- The forest after the joins of a list of pairs, in order. -/
def joinAll (f : Forest) (pairs : List (Int × Int)) : Forest :=
  pairs.foldl (fun g x => g.join x.1 x.2) f

@[simp] theorem joinAll_nil (f : Forest) : f.joinAll [] = f := rfl

@[simp] theorem joinAll_cons (f : Forest) (x : Int × Int) (xs : List (Int × Int)) :
    f.joinAll (x :: xs) = (f.join x.1 x.2).joinAll xs := rfl

theorem joinAll_append (f : Forest) (xs ys : List (Int × Int)) :
    f.joinAll (xs ++ ys) = (f.joinAll xs).joinAll ys := List.foldl_append

/-- **The groups after a list of joins** are the classes of the smallest equivalence that contains
the groups before and the joined pairs. -/
theorem root_joinAll (pairs : List (Int × Int)) (f : Forest) (u v : Int) :
    (f.joinAll pairs).root u = (f.joinAll pairs).root v ↔
      Relation.EqvGen (fun x y => f.root x = f.root y ∨ (x, y) ∈ pairs) u v := by
  -- On the pairs; each joins two trees and leaves the others.
  induction pairs generalizing f with
  | nil =>
    have hequiv : Equivalence fun x y => f.root x = f.root y :=
      ⟨fun _ => rfl, Eq.symm, Eq.trans⟩
    simp only [joinAll_nil, List.not_mem_nil, or_false]
    rw [hequiv.eqvGen_iff]
  | cons x pairs ih =>
    obtain ⟨a, b⟩ := x
    rw [joinAll_cons, ih (f.join a b)]
    have hequiv := Relation.EqvGen.is_equivalence
      fun x y => f.root x = f.root y ∨ (x, y) ∈ (a, b) :: pairs
    constructor
    · intro h
      apply hequiv.eqvGen_iff.1
      refine h.mono fun x y hxy => ?_
      rcases hxy with hroot | hmem
      · -- what holds after the first join follows from its pair
        exact rel_of_root_join hequiv (fun x y h => .rel _ _ (Or.inl h))
          (.rel _ _ (Or.inr List.mem_cons_self)) hroot
      · exact .rel _ _ (Or.inr (List.mem_cons_of_mem _ hmem))
    · intro h
      refine h.mono fun x y hxy => ?_
      rcases hxy with hroot | hmem
      · exact Or.inl ((root_join_eq_iff f a b x y).2 (Or.inl hroot))
      · rcases List.mem_cons.1 hmem with heq | hmem
        · cases heq
          exact Or.inl ((root_join_eq_iff f a b a b).2 (Or.inr (Or.inl ⟨rfl, rfl⟩)))
        · exact Or.inr hmem

/-- **Joins from the beginning** make groups of the numbers that chains of joined pairs connect. -/
theorem root_joins (pairs : List (Int × Int)) (u v : Int) :
    (joinAll {} pairs).root u = (joinAll {} pairs).root v ↔
      Relation.EqvGen (fun x y => (x, y) ∈ pairs) u v := by
  -- Before any join each number is alone.
  have hbare : ∀ x, ({} : Forest).root x = x := fun x => root_of_none (by simp)
  rw [root_joinAll]
  simp only [hbare]
  constructor
  · intro h
    refine (Relation.EqvGen.is_equivalence _).eqvGen_iff.1 (h.mono fun x y hxy => ?_)
    rcases hxy with heq | hmem
    · exact heq ▸ .refl x
    · exact .rel _ _ hmem
  · exact fun h => h.mono fun x y hxy => Or.inr hxy

/-! ## Links go down -/

/-- Every link goes to a smaller number or from a number to itself. -/
def Descends (f : Forest) : Prop := ∀ u p : Int, f.parent[u]? = some p → p < u ∨ p = u

/-- Nothing is linked in the empty forest. -/
theorem descends_empty : Descends {} := by
  intro u p h
  simp at h

/-- A link to something below keeps the links going down. -/
theorem Descends.link {r : Int} (h : f.Descends) (hr : r ≤ u) : (f.link u r).Descends := by
  intro v p hv
  rw [getElem?_link] at hv
  split at hv
  · cases hv
    omega
  · exact h v p hv

/-- Shortening paths keeps the links going down. -/
theorem Descends.find (h : f.Descends) (u : Int) : (f.find u).2.Descends := by
  induction u using search_induction f with
  | bare u hu => rwa [find_of_none hu]
  | last u p hu hp => rwa [find_of_not_lt hu hp]
  | next u p hu hp ih =>
    rw [find_of_lt hu hp]
    have := f.root_le p
    exact ih.link (by omega)

/-- Joining keeps the links going down. -/
theorem Descends.join (h : f.Descends) (a b : Int) : (f.join a b).Descends := by
  have hfind := (h.find a).find b
  unfold Forest.join
  simp only
  split
  · exact hfind
  · exact (hfind.link (le_refl _)).link (by omega)

/-- Joining pairs keeps the links going down. -/
theorem descends_joinAll (pairs : List (Int × Int)) (h : f.Descends) :
    (f.joinAll pairs).Descends := by
  induction pairs generalizing f with
  | nil => exact h
  | cons x pairs ih => exact ih (h.join x.1 x.2)

/-- Searches need no bound: links go down or stay, and a search follows every link to another number.
It ends at a number without a link or with a link to itself, and nowhere else. -/
structure Grounded (f : Forest) : Prop where
  descends : f.Descends
  ends : ∀ u : Int, f.parent[u]? = none ∨ f.parent[u]? = some u → f.find u = (u, f)
  follows : ∀ u p : Int, f.parent[u]? = some p → p ≠ u →
    f.find u = ((f.find p).1, (f.find p).2.link u (f.find p).1)

/-- If the links go down, every search ends in a root. -/
theorem Descends.grounded (h : f.Descends) : f.Grounded where
  descends := h
  ends u hu := hu.elim find_of_none fun hself => find_of_not_lt hself (lt_irrefl u)
  follows u p hu hne := find_of_lt hu ((h u p hu).resolve_right hne)

end Tac.Forest
