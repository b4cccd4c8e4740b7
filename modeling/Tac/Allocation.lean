import Tac.Coloring
import Tac.Program.Printer

/-!
# Register allocation

Allocation of one function analyses its flow and liveness, prunes what the entry cannot reach and
starts again until nothing is pruned; then it colours the interference graph and checks the result:
values that are live together must have locations of their own.
-/

namespace Tac

/-- The analyses of one statement list. -/
structure Analysis where
  func : Func
  flow : Flow
  live : Liveness
  reachable : BitSet
  graph : Graph

/-- Why a function could not be analysed. -/
inductive AnalysisError where
  | flow (e : FlowError)
  /-- An operand cannot be looked up or has a negative number. -/
  | malformed
deriving DecidableEq, Repr

/-- The analyses of a function. -/
def Func.analyze (vars : VarTable) (f : Func) : Except AnalysisError Analysis :=
  match Flow.connect f with
  | .error e => .error (.flow e)
  | .ok flow =>
    if f.stmts.all (Stmt.isNumbered vars) then
      let live := Liveness.analyze vars f flow
      let reachable := flow.reachable
      .ok { func := f, flow, live, reachable, graph := Graph.build live reachable }
    else .error .malformed

/-- The function without what its entry cannot reach. -/
def Analysis.prune (vars : VarTable) (a : Analysis) : Pruned := a.func.prune vars a.reachable

/-- Pruning never adds statements, and removes as many as it lists. -/
theorem Func.length_prune (vars : VarTable) (f : Func) (r : BitSet) :
    (f.prune vars r).func.stmts.length + (f.prune vars r).removed.length = f.stmts.length := by
  have h := List.length_eq_countP_add_countP
    (fun x : Stmt × Nat => f.keeps vars r x.2 x.1) (l := f.stmts.zipIdx)
  simp only [Func.prune, List.partition_eq_filter_filter, List.length_map]
  rw [← List.countP_eq_length_filter, ← List.countP_eq_length_filter]
  simp only [List.length_zipIdx] at h
  rw [h]
  congr 1
  exact List.countP_congr fun x _ => by simp [Function.comp]

/-- The analysed function is the one given. -/
theorem Func.analyze_func {vars : VarTable} {f : Func} {a : Analysis}
    (h : f.analyze vars = .ok a) : a.func = f := by
  unfold Func.analyze at h
  split at h
  · cases h
  · split at h <;> cases h
    rfl

/-- The rounds of analysis up to the first that prunes nothing, which comes last, or up to an
error. -/
def Func.settle (vars : VarTable) (f : Func) : List Analysis × Option AnalysisError :=
  match _h : f.analyze vars with
  | .error e => ([], some e)
  | .ok a =>
    if _hr : (a.prune vars).removed = [] then ([a], none)
    else
      let (rounds, e) := Func.settle vars (a.prune vars).func
      (a :: rounds, e)
termination_by f.stmts.length
decreasing_by
  have hl := Func.length_prune vars a.func a.reachable
  have hf := Func.analyze_func _h
  have : (a.prune vars).removed.length ≠ 0 := fun h0 => _hr (List.length_eq_zero_iff.1 h0)
  simp only [Analysis.prune] at this ⊢
  rw [hf] at hl this ⊢
  omega

/-- Why an allocation is wrong. -/
inductive VerifyError where
  | noLocation (func : String) (stmt : Nat) (node : VReg)
  | shared (func : String) (stmt : Nat) (first second : VReg) (loc : Loc)
deriving DecidableEq, Repr

/-- The wording of a verification error. -/
def VerifyError.text : VerifyError → String
  | noLocation f i u =>
    "func " ++ f ++ ": stmt " ++ Text.decimal i ++ ": no location for " ++ VReg.text u
  | shared f i v u l =>
    "func " ++ f ++ ": stmt " ++ Text.decimal i ++ ": " ++ VReg.text v ++ " and " ++
      VReg.text u ++ " share " ++ l.text

/-- The message of a verification error. -/
def VerifyError.message (e : VerifyError) : String := "internal error: " ++ e.text

/-- Whether two locations cannot be told apart: the same register, or the same first word. -/
def Loc.clashes : Loc → Loc → Bool
  | .reg a, .reg b => a == b
  | .stack s _, .stack t _ => s == t
  | _, _ => false

/-- Checks values that are live together; `seen` are those already found to have locations of their
own, the latest first. -/
def Locs.verifySet (locs : Locs) (func : String) (i : Nat) (seen : List (VReg × Loc)) :
    List VReg → Except VerifyError Unit
  | [] => .ok ()
  | u :: us =>
    match locs[u]? with
    | none => .error (.noLocation func i u)
    | some l =>
      match seen.find? fun (_, m) => m.clashes l with
      | some (v, _) => .error (.shared func i v u l)
      | none => locs.verifySet func i ((u, l) :: seen) us

/-- Checks the live sets of the statements from number `i` on. -/
def Locs.verifyFrom (locs : Locs) (func : String) : Nat → List BitSet → Except VerifyError Unit
  | _, [] => .ok ()
  | i, s :: ss =>
    match locs.verifySet func i [] s.toList with
    | .error e => .error e
    | .ok () => locs.verifyFrom func (i + 1) ss

/-- Values that are live together have locations of their own. -/
def Locs.verify (locs : Locs) (func : String) (live : List BitSet) : Except VerifyError Unit :=
  locs.verifyFrom func 0 live

/-- A function with the locations of its values, ready for lowering. -/
structure Placement where
  func : Func
  live : Array BitSet
  meet : Array BitSet
  locs : Locs
  arrays : Std.TreeMap Int Loc
  spillSize : Int

/-- What the annotated form of the function shows. -/
def Placement.annotation (p : Placement) : Annotation where
  locs := p.locs
  arrays := p.arrays
  live := p.live
  meet := p.meet

/-- The virtual registers live before a statement. -/
def Placement.liveAt (p : Placement) (i : Nat) : List VReg := (p.live.getD i BitSet.empty).toList

/-- Why allocation failed. -/
inductive AllocError where
  | flow (e : FlowError)
  | color (e : ColorError)
  | verify (e : VerifyError)
  /-- An operand or a local cannot be looked up. -/
  | malformed
deriving DecidableEq, Repr

/-- The stage that failed and the wording of the error. -/
def AllocError.text : AllocError → String
  | flow e => "cfg: internal error: " ++ e.text
  | color e => "allocate: " ++ e.message
  | verify e => "verify: " ++ e.message
  | malformed => ""

/-- The whole course of an allocation: the rounds of analysis, the colouring if it came so far, and
the placed function or the error. -/
structure Allocation where
  rounds : List Analysis
  coloring : Option Coloring
  outcome : Except AllocError Placement

/-- The placement that a colouring gives to an analysed function, once checked. -/
def Coloring.place (c : Coloring) (a : Analysis) : Except AllocError Placement :=
  match c.error with
  | some e => .error (.color e)
  | none =>
    match c.locs.verify a.func.name a.live.live.toList with
    | .error e => .error (.verify e)
    | .ok () =>
      .ok { func := a.func, live := a.live.live, meet := a.live.meet, locs := c.locs
            arrays := c.arrays, spillSize := c.spillSize }

/-- Allocates the registers of a function from the registers `regs`. -/
def Func.allocate (vars : VarTable) (regs : List Reg) (f : Func) : Allocation :=
  match f.settle vars with
  | (rounds, some (.flow e)) => { rounds, coloring := none, outcome := .error (.flow e) }
  | (rounds, some .malformed) => { rounds, coloring := none, outcome := .error .malformed }
  | (rounds, none) =>
    match rounds.getLast? with
    | none => { rounds, coloring := none, outcome := .error .malformed }
    | some a =>
      if f.locals.all fun id => (vars.get? id).isSome then
        let c := Coloring.run vars a.func a.graph (Affinity.ofFunc vars a.func) regs
        { rounds, coloring := some c, outcome := c.place a }
      else { rounds, coloring := none, outcome := .error .malformed }

end Tac
