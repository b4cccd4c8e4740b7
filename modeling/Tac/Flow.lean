import Std.Data.TreeMap
import Tac.BitSet
import Tac.VReg

/-!
# Control flow

The flow of a function says for each statement which statements can run next and which can run
before.  A jump goes to the last statement that defines its label; a conditional jump can also fall
through; a return has no successor; the end of the list is left without one too.

Statements that the entry cannot reach are pruned.  The last statement stays when it is a return
that reads no virtual register.
-/

namespace Tac

/-- A jump to a label that its function does not define. -/
structure FlowError where
  func : String
  label : Int
deriving DecidableEq, Repr

/-- The wording of a flow error. -/
def FlowError.text (e : FlowError) : String :=
  "func " ++ e.func ++ ": goto to undefined label l" ++ Text.decimal e.label

/-- Labels and the successors and predecessors of each statement. -/
structure Flow where
  labels : Std.TreeMap Int Nat
  next : Array (List Nat)
  prev : Array (List Nat)

namespace Flow

/-- The statement of each label; of several definitions the last counts. -/
def labelTable (stmts : List Stmt) : Std.TreeMap Int Nat :=
  stmts.zipIdx.foldl
    (fun m (s, i) => match s with | .label l => m.insert l i | _ => m) {}

/-- The statement after `i`, unless `i` is the last of `n`. -/
def following (n i : Nat) : List Nat := if i + 1 < n then [i + 1] else []

/-- The successors of statement `i` of `n`; the label that is missing otherwise. -/
def successors (labels : Std.TreeMap Int Nat) (n i : Nat) : Stmt → Except Int (List Nat)
  | .jump l =>
    match labels[l]? with
    | some j => .ok [j]
    | none => .error l
  | .branch _ _ _ l =>
    match labels[l]? with
    | some j => .ok (j :: following n i)
    | none => .error l
  | .ret _ => .ok []
  | _ => .ok (following n i)

/-- The successors of the statements from number `i` on. -/
def successorsFrom (labels : Std.TreeMap Int Nat) (n : Nat) :
    Nat → List Stmt → Except Int (List (List Nat))
  | _, [] => .ok []
  | i, s :: ss =>
    match successors labels n i s with
    | .error l => .error l
    | .ok js =>
      match successorsFrom labels n (i + 1) ss with
      | .error l => .error l
      | .ok rest => .ok (js :: rest)

/-- Turns successor lists around: statement `j` is preceded by `i` once for each time it occurs
among the successors of `i`. -/
def predecessors (next : List (List Nat)) : Array (List Nat) :=
  let revs : Array (List Nat) := next.zipIdx.foldl
    (fun acc (js, i) => js.foldl (fun acc j => acc.modify j (i :: ·)) acc)
    (Array.replicate next.length [])
  revs.map List.reverse

/-- The flow of a function. -/
def connect (f : Func) : Except FlowError Flow :=
  let labels := labelTable f.stmts
  match successorsFrom labels f.stmts.length 0 f.stmts with
  | .error label => .error { func := f.name, label }
  | .ok next => .ok { labels, next := next.toArray, prev := predecessors next }

/-- The successors of a statement; none outside the function. -/
def nextOf (fl : Flow) (i : Nat) : List Nat := fl.next.getD i []

/-- The predecessors of a statement; none outside the function. -/
def prevOf (fl : Flow) (i : Nat) : List Nat := fl.prev.getD i []

/-- Visits the statements waiting in `work` and those they lead to.  Each statement waits at most
once, so as many steps as there are statements suffice. -/
def visitFrom (fl : Flow) : Nat → List Nat → BitSet → BitSet
  | 0, _, seen => seen
  | _ + 1, [], seen => seen
  | fuel + 1, i :: work, seen =>
    let (work, seen) := (fl.nextOf i).foldl
      (fun (work, seen) j => if seen.contains j then (work, seen) else (j :: work, seen.insert j))
      (work, seen)
    visitFrom fl fuel work seen

/-- The statements that the entry can reach. -/
def reachable (fl : Flow) : BitSet :=
  if fl.next.isEmpty then BitSet.empty
  else visitFrom fl fl.next.size [0] (BitSet.empty.insert 0)

end Flow

/-- A function without its unreachable statements, and those statements with their numbers. -/
structure Pruned where
  func : Func
  removed : List (Nat × Stmt)

/-- Whether pruning keeps statement `i`. -/
def Func.keeps (vars : VarTable) (f : Func) (reachable : BitSet) (i : Nat) (s : Stmt) : Bool :=
  reachable.contains i || (i + 1 == f.stmts.length && s.isReturn && (s.numbers vars).isEmpty)

/-- Removes the statements that are not reachable. -/
def Func.prune (vars : VarTable) (f : Func) (reachable : BitSet) : Pruned :=
  let (kept, removed) := f.stmts.zipIdx.partition fun (s, i) => f.keeps vars reachable i s
  { func := { f with stmts := kept.map Prod.fst }, removed := removed.map fun (s, i) => (i, s) }

end Tac
