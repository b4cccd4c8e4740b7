import Std.Data.TreeMap
import Tac.Program

/-!
# Fusing neighbouring statements

Two neighbouring statements become one when the first only computes a temporary for the second and
nothing else reads that temporary:

* `t = …; x = t` becomes `x = …`;
* `t = a rel b; if t != 0 goto l` becomes `if a rel b goto l`;
* `t = a rel b; if t == 0 goto l` becomes a jump on the inverted relation.

A sweep goes through the statements once, trying to fuse each into the last one kept.  Sweeps repeat
until one changes nothing; every fusion removes a statement, so they end.
-/

namespace Tac.Peephole

/-- How often each temporary is read. -/
abbrev UseCounts := Std.TreeMap Int Nat

/-- The temporaries that a statement reads. -/
def tempsRead (s : Stmt) : List Int := s.sources.filterMap Val.temp?

/-- Counts the reads of temporaries in a list of statements. -/
def countUses (stmts : List Stmt) : UseCounts :=
  (stmts.flatMap tempsRead).foldl (fun m t => m.insert t (m.getD t 0 + 1)) {}

/-- Whether the operand is a temporary that is read exactly once. -/
def readOnce (uses : UseCounts) : Val → Bool
  | .temp n => uses.getD n 0 == 1
  | _ => false

/-- Whether the destination of a statement may be replaced; array loads keep theirs. -/
def isComputation : Stmt → Bool
  | .binary .. | .unary .. | .move .. | .call (some _) .. => true
  | _ => false

/-- Computes into the target of the move that follows. -/
def fuseMove? (uses : UseCounts) (last : Stmt) : Stmt → Option Stmt
  | .move d s =>
    if readOnce uses s && isComputation last && last.dst? == some s then last.withDst? d else none
  | _ => none

/-- Jumps on the comparison itself instead of on its result. -/
def fuseBranch? (uses : UseCounts) (last : Stmt) : Stmt → Option Stmt
  | .branch l rel r target =>
    if readOnce uses l && r == .const 0 then
      match last, rel with
      | .binary d a (.cmp c) b, .ne => if d = l then some (.branch a c b target) else none
      | .binary d a (.cmp c) b, .eq => if d = l then some (.branch a c.invert b target) else none
      | _, _ => none
    else none
  | _ => none

/-- The one statement that does the work of two neighbours, if there is one. -/
def fuse? (uses : UseCounts) (last s : Stmt) : Option Stmt :=
  (fuseMove? uses last s).or (fuseBranch? uses last s)

/-- Goes through the statements after `last`; gives what is kept and the number of fusions. -/
def sweepFrom (uses : UseCounts) (last : Stmt) : List Stmt → List Stmt × Nat
  | [] => ([last], 0)
  | s :: ss =>
    match fuse? uses last s with
    | some fused =>
      let (kept, n) := sweepFrom uses fused ss
      (kept, n + 1)
    | none =>
      let (kept, n) := sweepFrom uses s ss
      (last :: kept, n)

/-- One sweep, with the uses counted before it. -/
def sweep (stmts : List Stmt) : List Stmt × Nat :=
  match stmts with
  | [] => ([], 0)
  | s :: ss => sweepFrom (countUses stmts) s ss

/-- Every fusion removes one statement. -/
theorem length_sweepFrom (uses : UseCounts) (last : Stmt) (ss : List Stmt) :
    (sweepFrom uses last ss).1.length + (sweepFrom uses last ss).2 = ss.length + 1 := by
  induction ss generalizing last with
  | nil => rfl
  | cons s ss ih =>
    unfold sweepFrom
    split
    · have := ih ‹Stmt›
      simp only [List.length_cons]
      omega
    · have := ih s
      simp only [List.length_cons]
      omega

/-- Every fusion removes one statement. -/
theorem length_sweep (stmts : List Stmt) :
    (sweep stmts).1.length + (sweep stmts).2 = stmts.length := by
  cases stmts with
  | nil => rfl
  | cons s ss => exact length_sweepFrom _ s ss

/-- Sweeps until nothing changes; gives the statements left and the number of all fusions. -/
def fuseAll (stmts : List Stmt) : List Stmt × Nat :=
  if (sweep stmts).2 = 0 then ((sweep stmts).1, 0)
  else
    let (kept, n) := fuseAll (sweep stmts).1
    (kept, (sweep stmts).2 + n)
termination_by stmts.length
decreasing_by
  have := length_sweep stmts
  omega

/-- What holds of a statement list and is kept by every sweep holds of the result. -/
theorem fuseAll_induction {motive : List Stmt → Prop} (stmts : List Stmt) (h : motive stmts)
    (step : ∀ ss, motive ss → motive (sweep ss).1) : motive (fuseAll stmts).1 := by
  fun_induction fuseAll stmts with
  | case1 ss _ => exact step ss h
  | case2 ss _ _ _ hr ih =>
    have := ih (step ss h)
    rwa [hr] at this

/-- The temporaries that some statement reads or writes. -/
def mentioned (stmts : List Stmt) : Std.TreeMap Int Unit :=
  (stmts.flatMap fun s => tempsRead s ++ s.dst?.toList.filterMap Val.temp?).foldl
    (fun m t => m.insert t ()) {}

/-- Fuses a function's statements and drops the declarations of temporaries that no statement
mentions any more; gives the number of fusions too. -/
def optimize (f : Func) : Func × Nat :=
  let (stmts, n) := fuseAll f.stmts
  let seen := mentioned stmts
  ({ f with stmts, temps := f.temps.filter seen.contains }, n)

/-- The name of a function stays. -/
@[simp]
theorem optimize_name (f : Func) : (optimize f).1.name = f.name := rfl

/-- The parameters of a function stay. -/
@[simp]
theorem optimize_params (f : Func) : (optimize f).1.params = f.params := rfl

/-- The locals of a function stay. -/
@[simp]
theorem optimize_locals (f : Func) : (optimize f).1.locals = f.locals := rfl

end Tac.Peephole
