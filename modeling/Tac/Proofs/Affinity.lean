import Mathlib
import Tac.Affinity
import Tac.Proofs.Coloring
import Tac.Proofs.Forest

/-!
# Groups of values that moves connect

Moves join values one pair after another, and the representatives of the groups are looked up only
when all moves are read.  Which values are in a group depends on the moves alone, not on their order:
they are those that a chain of moves connects.

* **`Func.Connected`** — a chain of moves between two values, each taken in either direction.
* **`root_ofStmts`** — two values have one root when they are connected.
* **`TakenUp`** — the order and the representatives of the values taken up so far, kept by `takeUp`.
* **`mem_group_iff`** — the members of a group.
* **`FromComponents`** — what is known of groups and recommendations.
* **`groups_connected`** — it holds of the preferences of every function, and no search on the way to
  them goes on for ever.
-/

namespace Tac

/-! ## Chains of moves -/

/-- A statement of the function moves the second value to the first. -/
def Func.Moves (vars : VarTable) (f : Func) (a b : Int) : Prop :=
  ∃ d s, Stmt.move d s ∈ f.stmts ∧ vars.number? d = some a ∧ vars.number? s = some b

/-- A chain of moves connects two values; a move is taken in either direction. -/
def Func.Connected (vars : VarTable) (f : Func) : Int → Int → Prop := Relation.EqvGen (f.Moves vars)

/-- A move goes to or from the value. -/
def Func.Mentions (vars : VarTable) (f : Func) (u : Int) : Prop :=
  ∃ v, f.Moves vars u v ∨ f.Moves vars v u

section Chains

variable {vars : VarTable} {f : Func} {u v : Int}

theorem Func.connected_self (vars : VarTable) (f : Func) (u : Int) : f.Connected vars u u := .refl u

theorem Func.Connected.symm (h : f.Connected vars u v) : f.Connected vars v u :=
  Relation.EqvGen.symm u v h

theorem Func.Connected.trans {w : Int} (h : f.Connected vars u v) (h' : f.Connected vars v w) :
    f.Connected vars u w := Relation.EqvGen.trans u v w h h'

/-- Different values are connected only when moves mention both. -/
theorem Func.Connected.mentions (h : f.Connected vars u v) :
    u = v ∨ f.Mentions vars u ∧ f.Mentions vars v := by
  induction h with
  | rel a b hab => exact Or.inr ⟨⟨b, Or.inl hab⟩, ⟨a, Or.inr hab⟩⟩
  | refl a => exact Or.inl rfl
  | symm a b _ ih => exact ih.imp Eq.symm And.symm
  | trans a b c _ _ hab hbc =>
    rcases hab with rfl | hab
    · exact hbc
    · rcases hbc with rfl | hbc
      · exact Or.inr hab
      · exact Or.inr ⟨hab.1, hbc.2⟩

theorem Func.Connected.eq_of_not_mentions (h : f.Connected vars u v) (hu : ¬ f.Mentions vars u) :
    u = v := h.mentions.resolve_right fun hm => hu hm.1

end Chains

/-- The values between which a statement moves. -/
def VarTable.moved? (vars : VarTable) : Stmt → Option (Int × Int)
  | .move d s => (vars.number? d).bind fun a => (vars.number? s).map fun b => (a, b)
  | _ => none

/-- The pairs of values between which statements move, in order. -/
def VarTable.movedPairs (vars : VarTable) (ss : List Stmt) : List (Int × Int) :=
  ss.filterMap vars.moved?

/-- The pairs that are joined are those of the moves. -/
theorem VarTable.mem_movedPairs {vars : VarTable} {f : Func} {a b : Int} :
    (a, b) ∈ vars.movedPairs f.stmts ↔ f.Moves vars a b := by
  rw [movedPairs, List.mem_filterMap]
  constructor
  · rintro ⟨s, hs, hmoved⟩
    -- No other statement makes a pair.
    cases s with
    | move d s =>
      obtain ⟨a', ha, hmoved⟩ := Option.bind_eq_some_iff.1 hmoved
      obtain ⟨b', hb, hpair⟩ := Option.map_eq_some_iff.1 hmoved
      cases hpair
      exact ⟨d, s, hs, ha, hb⟩
    | jump | branch | label | binary | unary | store | load | zeroFill | call | ret => cases hmoved
  · rintro ⟨d, s, hs, ha, hb⟩
    exact ⟨.move d s, hs, by rw [moved?, ha, hb]; rfl⟩

namespace Affinity

variable {vars : VarTable} {f : Func} {u v : Int}

/-! ## What the statements say -/

namespace Survey

variable {h : Survey}

/-- A preference leaves the groups as they are. -/
@[simp] theorem forest_prefer (h : Survey) (r : Reg) (v : Option Int) :
    (h.prefer r v).forest = h.forest := by
  unfold prefer
  split
  · rfl
  · split <;> rfl

/-- A preference mentions nothing new. -/
@[simp] theorem mentions_prefer (h : Survey) (r : Reg) (v : Option Int) :
    (h.prefer r v).mentions = h.mentions := by
  unfold prefer
  split
  · rfl
  · split <;> rfl

/-- Arguments have no part in the groups. -/
theorem foldl_prefer (vars : VarTable) (xs : List (Val × Reg)) (h : Survey) :
    (xs.foldl (fun h x => h.prefer x.2 (vars.number? x.1)) h).forest = h.forest ∧
      (xs.foldl (fun h x => h.prefer x.2 (vars.number? x.1)) h).mentions.toList =
        h.mentions.toList ++ [] := by
  rw [List.append_nil]
  induction xs generalizing h with
  | nil => exact ⟨rfl, rfl⟩
  | cons x xs ih => simpa using ih (h.prefer x.2 (vars.number? x.1))

/-- A statement joins the values that it moves between and mentions them, if there are any. -/
theorem observe_moved (vars : VarTable) (h : Survey) (s : Stmt) :
    (h.observe vars s).forest = h.forest.joinAll (vars.moved? s).toList ∧
      (h.observe vars s).mentions.toList =
        h.mentions.toList ++ (vars.moved? s).toList.flatMap fun x => [x.1, x.2] := by
  cases s with
  | move d s =>
    rw [VarTable.moved?, observe]
    cases hd : vars.number? d with
    | none => simp
    | some a =>
      cases hs : vars.number? s with
      | none => simp
      | some b => simp [join]
  | call ret callee args =>
    have hnone : vars.moved? (.call ret callee args) = none := rfl
    rw [hnone]
    cases ret with
    | none => exact foldl_prefer vars (args.zip Reg.args) h
    | some v =>
      have hfold := foldl_prefer vars (args.zip Reg.args) (h.prefer (Reg.a 0) (vars.number? v))
      rw [forest_prefer, mentions_prefer] at hfold
      exact hfold
  | ret v =>
    have hnone : vars.moved? (.ret v) = none := rfl
    rw [hnone]
    cases v with
    | none => simp [observe]
    | some v => simp [observe]
  | jump | branch | label | binary | unary | store | load | zeroFill => simp [VarTable.moved?, observe]

/-- Statements join the pairs of values that they move between, in order. -/
theorem foldl_observe (vars : VarTable) (ss : List Stmt) (h : Survey) :
    (ss.foldl (observe vars) h).forest =
        h.forest.joinAll (vars.movedPairs ss) ∧
      (ss.foldl (observe vars) h).mentions.toList =
        h.mentions.toList ++ (vars.movedPairs ss).flatMap fun x => [x.1, x.2] := by
  -- On the statements; each joins its own pair and mentions its own operands.
  induction ss generalizing h with
  | nil => simp [VarTable.movedPairs]
  | cons s ss ih =>
    obtain ⟨hforest, hmentions⟩ := ih (h.observe vars s)
    obtain ⟨hf, hm⟩ := observe_moved vars h s
    have hpairs : vars.movedPairs (s :: ss) = (vars.moved? s).toList ++ vars.movedPairs ss := by
      rw [VarTable.movedPairs, List.filterMap_cons]
      cases vars.moved? s <;> rfl
    rw [List.foldl_cons, hpairs, Forest.joinAll_append, List.flatMap_append, ← List.append_assoc, ← hf, ← hm]
    exact ⟨hforest, hmentions⟩

/-- The groups are those of the pairs that are moved. -/
theorem forest_ofStmts (vars : VarTable) (n : Nat) (ss : List Stmt) :
    (ofStmts vars n ss).forest = Forest.joinAll {} (vars.movedPairs ss) :=
  (foldl_observe vars ss (ofParams n)).1

/-- In the forest all links go down. -/
theorem descends_ofStmts (vars : VarTable) (n : Nat) (ss : List Stmt) :
    (ofStmts vars n ss).forest.Descends := by
  rw [forest_ofStmts]
  exact Forest.descends_joinAll _ Forest.descends_empty

/-- What is collected is what is mentioned. -/
theorem mem_mentions (vars : VarTable) (n : Nat) (f : Func) (u : Int) :
    u ∈ (ofStmts vars n f.stmts).mentions.toList ↔ f.Mentions vars u := by
  have hmentions := (foldl_observe vars f.stmts (ofParams n)).2
  have hnil : (ofParams n).mentions.toList = [] := rfl
  rw [ofStmts, hmentions, hnil, List.nil_append, List.mem_flatMap]
  constructor
  · rintro ⟨⟨a, b⟩, hab, hu⟩
    have hmoves := VarTable.mem_movedPairs.1 hab
    -- A value is mentioned as either side of a move.
    rcases List.mem_pair.1 hu with rfl | rfl
    · exact ⟨b, Or.inl hmoves⟩
    · exact ⟨a, Or.inr hmoves⟩
  · rintro ⟨w, hw | hw⟩
    · exact ⟨(u, w), VarTable.mem_movedPairs.2 hw, by simp⟩
    · exact ⟨(w, u), VarTable.mem_movedPairs.2 hw, by simp⟩

/-- **Two values have one root when moves connect them.** -/
theorem root_ofStmts (vars : VarTable) (n : Nat) (f : Func) (u v : Int) :
    (ofStmts vars n f.stmts).forest.root u = (ofStmts vars n f.stmts).forest.root v ↔
      f.Connected vars u v := by
  have hmoves : (fun x y => (x, y) ∈ vars.movedPairs f.stmts) = f.Moves vars := by
    funext x y
    exact propext VarTable.mem_movedPairs
  rw [forest_ofStmts, Forest.root_joins, hmoves]
  rfl

end Survey

/-! ## Order and representatives -/

/-- What is known when the values `us` have been taken up from the groups of a forest. -/
structure TakenUp (g : Forest) (us : List Int) (s : Forest × Affinity) : Prop where
  /-- The forest has changed, but no root. -/
  roots : ∀ v, s.1.root v = g.root v
  nodup : s.2.order.Nodup
  mem_order : ∀ u, u ∈ s.2.order ↔ u ∈ us
  getElem?_rep : ∀ u, s.2.rep[u]? = if u ∈ us then some (g.root u) else none

variable {g : Forest} {us : List Int} {s : Forest × Affinity}

/-- Taking up one more number keeps the invariant. -/
theorem TakenUp.takeUp (h : TakenUp g us s) (u : Int) : TakenUp g (us ++ [u]) (takeUp s u) := by
  have hcontains : s.2.rep.contains u = true ↔ u ∈ us := by
    rw [Std.TreeMap.contains_eq_isSome_getElem?, h.getElem?_rep]
    split <;> simp_all
  unfold Affinity.takeUp
  split
  · next hu =>
    -- a value taken up again changes nothing
    have hmem : ∀ v, v ∈ us ++ [u] ↔ v ∈ us := by
      intro v
      rw [List.mem_append, List.mem_singleton, or_iff_left_iff_imp]
      rintro rfl
      exact hcontains.1 hu
    refine ⟨h.roots, h.nodup, fun v => (h.mem_order v).trans (hmem v).symm, fun v => ?_⟩
    rw [h.getElem?_rep]
    exact if_congr (hmem v).symm rfl rfl
  · next hu =>
    have hnot : u ∉ us := fun hmem => hu (hcontains.2 hmem)
    refine ⟨fun v => ?_, ?_, fun v => ?_, fun v => ?_⟩
    · simp only [Forest.root_find]
      exact h.roots v
    · refine List.nodup_append.2 ⟨h.nodup, List.nodup_singleton u, ?_⟩
      intro a ha b hb hab
      rw [List.mem_singleton] at hb
      exact hnot ((h.mem_order u).1 (hb ▸ hab ▸ ha))
    · simp only [List.mem_append, h.mem_order v]
    · have hroot : (s.1.find u).1 = g.root u := h.roots u
      simp only [getElem?_insert_map, h.getElem?_rep, hroot, List.mem_append, List.mem_singleton]
      by_cases huv : u = v
      · subst huv
        simp
      · simp [huv, Ne.symm huv]

/-- Taking up any numbers keeps the invariant. -/
theorem TakenUp.foldl (h : TakenUp g us s) (vs : List Int) :
    TakenUp g (us ++ vs) (vs.foldl Affinity.takeUp s) := by
  induction vs generalizing us s with
  | nil => rwa [List.append_nil]
  | cons v vs ih =>
    rw [List.foldl_cons, List.append_cons]
    exact ih (h.takeUp v)

/-- Taking up values keeps links going down. -/
theorem descends_takeUp (h : s.1.Descends) (us : List Int) : (us.foldl takeUp s).1.Descends := by
  induction us generalizing s with
  | nil => exact h
  | cons u us ih =>
    refine ih ?_
    unfold takeUp
    split
    · exact h
    · exact h.find u

/-- The order and the representatives of the preferences of a function. -/
theorem takenUp_ofFunc (vars : VarTable) (f : Func) : ∃ f',
    TakenUp (Survey.ofStmts vars f.params.length f.stmts).forest
      (Survey.ofStmts vars f.params.length f.stmts).mentions.toList (f', ofFunc vars f) := by
  have hstart : TakenUp (Survey.ofStmts vars f.params.length f.stmts).forest []
      ((Survey.ofStmts vars f.params.length f.stmts).forest,
        { fixed := (Survey.ofStmts vars f.params.length f.stmts).fixed }) :=
    ⟨fun _ => rfl, List.nodup_nil, fun _ => Iff.rfl, fun _ => by simp⟩
  have hend := hstart.foldl (Survey.ofStmts vars f.params.length f.stmts).mentions.toList
  rw [List.nil_append, Array.foldl_toList] at hend
  exact ⟨_, hend⟩

/-! ## Groups -/

/-- A value that moves mention is represented by the root of its group. -/
theorem getElem?_rep_of_mentions (hu : f.Mentions vars u) : (ofFunc vars f).rep[u]? =
    some ((Survey.ofStmts vars f.params.length f.stmts).forest.root u) := by
  obtain ⟨f', h⟩ := takenUp_ofFunc vars f
  rw [h.getElem?_rep, if_pos ((Survey.mem_mentions ..).2 hu)]

/-- What is not mentioned has no representative. -/
theorem getElem?_rep_of_not_mentions (hu : ¬ f.Mentions vars u) :
    (ofFunc vars f).rep[u]? = none := by
  obtain ⟨f', h⟩ := takenUp_ofFunc vars f
  rw [h.getElem?_rep, if_neg fun hmem => hu ((Survey.mem_mentions ..).1 hmem)]

/-- What is mentioned is represented by the root of its tree. -/
theorem repOf_of_mentions (hu : f.Mentions vars u) : (ofFunc vars f).repOf u =
    (Survey.ofStmts vars f.params.length f.stmts).forest.root u := by
  rw [repOf, Std.TreeMap.getD_eq_getD_getElem?, getElem?_rep_of_mentions hu, Option.getD_some]

/-- Of the values in order, a group are those with the same representative. -/
theorem group_of_mentions (hu : f.Mentions vars u) : (ofFunc vars f).group u =
    (ofFunc vars f).order.filter fun v => (ofFunc vars f).repOf v == (ofFunc vars f).repOf u := by
  rw [group, Std.TreeMap.contains_eq_isSome_getElem?, getElem?_rep_of_mentions hu, Option.isSome_some,
    if_pos rfl]

/-- What is not mentioned is a group by itself. -/
theorem group_of_not_mentions (hu : ¬ f.Mentions vars u) : (ofFunc vars f).group u = [u] := by
  rw [group, Std.TreeMap.contains_eq_isSome_getElem?, getElem?_rep_of_not_mentions hu,
    Option.isSome_none, if_neg Bool.false_ne_true]

/-- **The members of a group** are the values that moves connect. -/
theorem mem_group_iff (vars : VarTable) (f : Func) (u v : Int) :
    v ∈ (ofFunc vars f).group u ↔ f.Connected vars u v := by
  obtain ⟨f', h⟩ := takenUp_ofFunc vars f
  have horder : v ∈ (ofFunc vars f).order ↔ f.Mentions vars v :=
    (h.mem_order v).trans (Survey.mem_mentions ..)
  -- A value that was never mentioned is alone in its group.
  by_cases hu : f.Mentions vars u
  · rw [group_of_mentions hu, List.mem_filter, horder, beq_iff_eq, repOf_of_mentions hu]
    constructor
    · intro hmem
      have hroot := hmem.2
      rw [repOf_of_mentions hmem.1] at hroot
      exact (Survey.root_ofStmts ..).1 hroot.symm
    · intro hconnected
      have hv : f.Mentions vars v := by
        rcases hconnected.mentions with heq | hboth
        · exact heq ▸ hu
        · exact hboth.2
      rw [repOf_of_mentions hv]
      exact ⟨hv, ((Survey.root_ofStmts ..).2 hconnected).symm⟩
  · rw [group_of_not_mentions hu, List.mem_singleton]
    constructor
    · intro heq
      rw [heq]
      exact Func.connected_self ..
    · intro hconnected
      exact (hconnected.eq_of_not_mentions hu).symm

/-- Nothing is listed twice in a group. -/
theorem nodup_group (vars : VarTable) (f : Func) (u : Int) : ((ofFunc vars f).group u).Nodup := by
  obtain ⟨f', h⟩ := takenUp_ofFunc vars f
  unfold group
  split
  · exact h.nodup.filter _
  · exact List.nodup_singleton u

/-- Connected values have one group, listed in one order. -/
theorem group_eq_of_connected (h : f.Connected vars u v) :
    (ofFunc vars f).group u = (ofFunc vars f).group v := by
  by_cases huv : u = v
  · rw [huv]
  · -- moves mention both, so both groups are taken from the same order
    obtain ⟨hu, hv⟩ := h.mentions.resolve_left huv
    rw [group_of_mentions hu, group_of_mentions hv, repOf_of_mentions hu, repOf_of_mentions hv,
      (Survey.root_ofStmts ..).2 h]

/-! ## Recommendations -/

/-- The other members of a group. -/
theorem mem_others_iff (vars : VarTable) (f : Func) (u v : Int) :
    v ∈ ((ofFunc vars f).group u).filter (· != u) ↔ v ≠ u ∧ f.Connected vars u v := by
  rw [List.mem_filter, mem_group_iff, bne_iff_ne, and_comm]

/-- What is known of the preferences of a function: groups are the components that moves make of its
values, and a value is recommended nothing but what it and its group prefer or have. -/
structure FromComponents (vars : VarTable) (f : Func) (h : Affinity) : Prop where
  nodup : ∀ u, (h.group u).Nodup
  members : ∀ u v, v ∈ h.group u ↔ f.Connected vars u v
  alone : ∀ u, (∀ v, f.Connected vars u v → v = u) → h.group u = [u]
  shared : ∀ u v, f.Connected vars u v → h.group u = h.group v
  /-- The register of the value itself, those of the others, and those that the others are in. -/
  recommended : ∀ u locs, ∃ others given,
    h.recommend u locs = h.fixed[u]?.toList ++ others ++ given ∧
      (∀ r, r ∈ others ↔ ∃ v, v ≠ u ∧ f.Connected vars u v ∧ h.fixed[v]? = some r) ∧
      ∀ r, r ∈ given ↔ ∃ v, v ≠ u ∧ f.Connected vars u v ∧ locs.ofNumber? v = some (.reg r)

/-- What is connected to nothing else is a group by itself. -/
theorem group_of_alone (h : ∀ v, f.Connected vars u v → v = u) : (ofFunc vars f).group u = [u] := by
  have hperm : ((ofFunc vars f).group u).Perm [u] := by
    refine (List.perm_ext_iff_of_nodup (nodup_group vars f u) (List.nodup_singleton u)).2 fun v => ?_
    rw [mem_group_iff, List.mem_singleton]
    exact ⟨h v, fun hv => hv ▸ Func.connected_self ..⟩
  exact List.perm_singleton.1 hperm

/-- The recommendations in order: the register that is fixed for the value itself, then
those fixed for its group, then those given to its group so far. -/
theorem recommend_parts (vars : VarTable) (f : Func) (u : Int) (locs : Locs) : ∃ others given,
    (ofFunc vars f).recommend u locs = (ofFunc vars f).fixed[u]?.toList ++ others ++ given ∧
      (∀ r, r ∈ others ↔
        ∃ v, v ≠ u ∧ f.Connected vars u v ∧ (ofFunc vars f).fixed[v]? = some r) ∧
      ∀ r, r ∈ given ↔ ∃ v, v ≠ u ∧ f.Connected vars u v ∧ locs.ofNumber? v = some (.reg r) := by
  refine ⟨_, _, rfl, fun r => ?_, fun r => ?_⟩
  · rw [List.mem_filterMap]
    simp only [mem_others_iff, and_assoc]
  -- Only what has a register is recommended.
  · have hreg : ∀ l : Option Loc, l.bind Loc.reg? = some r ↔ l = some (.reg r) := by
      intro l
      cases l with
      | none => simp
      | some l => cases l <;> simp [Loc.reg?]
    rw [List.mem_filterMap]
    simp only [mem_others_iff, and_assoc, hreg]

/-- **Groups are the components that moves make.**  While statements are read and while
representatives are looked up, links go down and searches come to an end; afterwards the group of every
value lists, without repetition, the values that a chain of moves connects it with, connected values
have one group, and recommendations come from the group in the order of their priority. -/
theorem groups_connected (vars : VarTable) (f : Func) :
    (∀ (n : Nat) (us : List Int) (h : Affinity),
      (us.foldl takeUp ((Survey.ofStmts vars f.params.length (f.stmts.take n)).forest, h)).1.Grounded) ∧
      FromComponents vars f (ofFunc vars f) := by
  constructor
  -- Statements leave a forest whose links go down, and taking up representatives keeps it so.
  · intro n us h
    have hread : (Survey.ofStmts vars f.params.length (f.stmts.take n)).forest.Descends :=
      Survey.descends_ofStmts _ _ _
    exact (descends_takeUp (s := (_, h)) hread us).grounded
  · exact {
      nodup := nodup_group vars f
      members := mem_group_iff vars f
      alone := fun u => group_of_alone
      shared := fun u v => group_eq_of_connected
      recommended := recommend_parts vars f }

/-- Two pairs of values, joined only by the last move, a value that moves to itself and a result. -/
def chained : Func where
  name := "chained"
  void := false
  stmts := [.move (.temp 3) (.temp 2), .move (.temp 5) (.temp 5), .move (.temp 1) (.temp 0),
    .move (.temp 2) (.temp 1), .ret (some (.temp 0))]

/-- The first value, whose number is nine, is recommended the register of the result, which another
member of its group prefers, and then the one that a third member is in. -/
theorem groups_connected_chained :
    (ofFunc #[] chained).group 9 = [9, 6, 3, 0] ∧ (ofFunc #[] chained).group 15 = [15] ∧
      chained.Connected #[] 9 0 ∧ ¬ chained.Connected #[] 9 15 ∧
      (ofFunc #[] chained).recommend 9
        (Std.TreeMap.ofList [(3, Loc.reg (Reg.t 4)), (15, Loc.reg (Reg.t 5))]) = [Reg.a 0, Reg.t 4] := by
  have hgroup : (ofFunc #[] chained).group 9 = [9, 6, 3, 0] := by cbv
  obtain ⟨-, h⟩ := groups_connected #[] chained
  refine ⟨hgroup, by cbv, ?_, fun hother => ?_, by cbv⟩
  · rw [← h.members, hgroup]
    decide
  · rw [← h.members, hgroup] at hother
    exact absurd hother (by decide)

end Affinity

end Tac
