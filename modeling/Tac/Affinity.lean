import Std.Data.TreeMap
import Tac.Forest
import Tac.Reg
import Tac.VReg

/-!
# Register preferences

Values joined by moves do best in one register, and some values have a register of their own that
saves a move: parameters, arguments and results.  Preferences are read off the statements once.

A group is a class of values connected by moves; its representative is its smallest member, and its
members are listed in the order in which moves first mention them.

Preferences are kept by the number of a value, whatever its sign; only locations need numbers that
are not negative.
-/

namespace Tac

/-- Where each value is kept. -/
abbrev Locs := Std.TreeMap Nat Loc

/-- The location of the value with a given number; negative numbers have none. -/
def Locs.ofNumber? (locs : Locs) (u : Int) : Option Loc := if 0 ≤ u then locs[u.toNat]? else none

/-- Preferred registers. -/
structure Affinity where
  /-- The values that moves mention, in order of first mention, without repetition. -/
  order : List Int := []
  /-- The representative of each value that moves mention. -/
  rep : Std.TreeMap Int Int := {}
  /-- The register of its own that a value prefers. -/
  fixed : Std.TreeMap Int Reg := {}

namespace Affinity

/-! ## Reading the statements -/

/-- What the statements read so far say. -/
structure Survey where
  /-- The groups so far. -/
  forest : Forest := {}
  /-- The values that moves mention, in order and with repetitions. -/
  mentions : Array Int := #[]
  /-- The register of its own that a value prefers. -/
  fixed : Std.TreeMap Int Reg := {}

namespace Survey

/-- Takes note of a move between two values, which joins their groups. -/
def join (h : Survey) (a b : Int) : Survey :=
  { h with forest := h.forest.join a b, mentions := (h.mentions.push a).push b }

/-- Gives a value a register of its own unless it has one. -/
def prefer (h : Survey) (r : Reg) : Option Int → Survey
  | none => h
  | some u => if h.fixed.contains u then h else { h with fixed := h.fixed.insert u r }

/-- Takes note of one statement: moves join, results prefer the result register, arguments the
registers that pass them. -/
def observe (vars : VarTable) (h : Survey) (s : Stmt) : Survey :=
  match s with
  | .move d s =>
    match vars.number? d, vars.number? s with
    | some a, some b => h.join a b
    | _, _ => h
  | .ret (some v) => h.prefer (Reg.a 0) (vars.number? v)
  | .call ret _ args =>
    let h := match ret with
      | some v => h.prefer (Reg.a 0) (vars.number? v)
      | none => h
    (args.zip Reg.args).foldl (fun h (v, r) => h.prefer r (vars.number? v)) h
  | _ => h

/-- Parameters prefer the registers that pass them. -/
def ofParams (count : Nat) : Survey where
  fixed := (Reg.args.take count).zipIdx.foldl (fun m (r, i) => m.insert (VReg.param i) r) {}

/-- What a function with `count` parameters and the given statements says. -/
def ofStmts (vars : VarTable) (count : Nat) (ss : List Stmt) : Survey :=
  ss.foldl (observe vars) (ofParams count)

end Survey

/-- Takes up a value that a move mentions.  The first time fixes its place in the order and its
representative, which is looked up only now that no group changes any more. -/
def takeUp (s : Forest × Affinity) (u : Int) : Forest × Affinity :=
  if s.2.rep.contains u then s
  else
    let (r, f) := s.1.find u
    (f, { s.2 with order := s.2.order ++ [u], rep := s.2.rep.insert u r })

/-- The preferences that all statements together come to. -/
def Survey.conclude (h : Survey) : Affinity :=
  (h.mentions.foldl takeUp (h.forest, { fixed := h.fixed })).2

/-- The preferences of a function. -/
def ofFunc (vars : VarTable) (f : Func) : Affinity :=
  (Survey.ofStmts vars f.params.length f.stmts).conclude

/-! ## Asking for preferences -/

/-- The representative of a value; a value that no move mentions stands for itself. -/
def repOf (h : Affinity) (u : Int) : Int := h.rep.getD u u

/-- The members of the group of a value, itself included. -/
def group (h : Affinity) (u : Int) : List Int :=
  if h.rep.contains u then h.order.filter fun m => h.repOf m == h.repOf u else [u]

/-- Preferred registers in decreasing priority: the value's own, then those of the other members of
its group, then the registers that `locs` already gives to other members. -/
def recommend (h : Affinity) (u : Int) (locs : Locs) : List Reg :=
  let others := (h.group u).filter (· != u)
  h.fixed[u]?.toList ++ others.filterMap (fun m => h.fixed[m]?) ++
    others.filterMap fun m => (locs.ofNumber? m).bind Loc.reg?

end Affinity

end Tac
