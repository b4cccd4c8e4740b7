import Std.Data.TreeSet
import Tac.Flow

/-!
# Liveness

A virtual register is live before a statement when some path from it reads the register before
writing it.  The sets solve the backward equations

* `meet i` is the union of `live j` over the successors `j` of `i`;
* `live i` is `meet i` without what statement `i` writes, with what it reads.

They are computed from empty sets by a worklist that starts with all statements and always takes the
last one waiting; a statement whose set changed makes its predecessors wait.
-/

namespace Tac

/-- The live sets of a function and the number of statements taken from the worklist. -/
structure Liveness where
  /-- Live before each statement. -/
  live : Array BitSet
  /-- Live after each statement. -/
  meet : Array BitSet
  steps : Nat

namespace Liveness

/-- What the equations need to know of each statement. -/
structure Facts where
  flow : Flow
  defs : Array (List VReg)
  uses : Array (List VReg)

/-- The facts of a function with known flow. -/
def facts (vars : VarTable) (f : Func) (flow : Flow) : Facts where
  flow := flow
  defs := (f.stmts.map (Stmt.defs vars)).toArray
  uses := (f.stmts.map (Stmt.uses vars)).toArray

/-- The live set before a statement, so far. -/
def liveAt (l : Liveness) (i : Nat) : BitSet := l.live.getD i BitSet.empty

/-- The live set after a statement, so far. -/
def meetAt (l : Liveness) (i : Nat) : BitSet := l.meet.getD i BitSet.empty

/-- The union of the live sets of the successors. -/
def join (fx : Facts) (l : Liveness) (i : Nat) : BitSet :=
  (fx.flow.nextOf i).foldl (fun m j => m.union (l.liveAt j)) BitSet.empty

/-- What is live before statement `i` when `meet` is live after it. -/
def transfer (fx : Facts) (i : Nat) (meet : BitSet) : BitSet :=
  ((fx.defs.getD i []).foldl BitSet.erase meet.copy).insertAll (fx.uses.getD i [])

/-- The sets so far and the statements waiting. -/
structure Work where
  sets : Liveness
  queue : Std.TreeSet Nat

/-- Takes statement `i` from the worklist. -/
def visit (fx : Facts) (i : Nat) (w : Work) : Work :=
  let meet := join fx w.sets i
  let live := transfer fx i meet
  let same := live.sameMembers (w.sets.liveAt i)
  let queue := w.queue.erase i
  let sets := { w.sets with meet := w.sets.meet.setIfInBounds i meet, steps := w.sets.steps + 1 }
  if same then { sets, queue }
  else
    { sets := { sets with live := sets.live.setIfInBounds i live }
      queue := (fx.flow.prevOf i).foldl (fun q p => q.insert p) queue }

/-- Works until nothing waits, for at most `fuel` steps. -/
def solve (fx : Facts) : Nat → Work → Work
  | 0, w => w
  | fuel + 1, w =>
    match w.queue.max? with
    | none => w
    | some i => solve fx fuel (visit fx i w)

/-- Empty sets, and every statement waiting. -/
def start (n : Nat) : Work where
  sets := { live := Array.replicate n BitSet.empty, meet := Array.replicate n BitSet.empty, steps := 0 }
  queue := (List.range n).foldl (fun q i => q.insert i) {}

/-- Enough steps: each statement waits once at the start and once more for each time the set of a
successor grows, which happens at most once for each register that is read anywhere. -/
def enough (fx : Facts) : Nat :=
  let n := fx.defs.size
  let reads := fx.uses.foldl (fun acc us => acc + us.length) 0
  let edges := fx.flow.prev.foldl (fun acc ps => acc + ps.length) 0
  n + reads * edges + 1

/-- The live sets of a function with known flow. -/
def analyze (vars : VarTable) (f : Func) (flow : Flow) : Liveness :=
  let fx := facts vars f flow
  (solve fx (enough fx) (start f.stmts.length)).sets

end Liveness

end Tac
