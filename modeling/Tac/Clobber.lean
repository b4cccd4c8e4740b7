import Tac.Allocation

/-!
# Registers destroyed by calls

A call destroys the registers that its callee writes, directly or through further calls.  Functions
of the environment may write every register; functions with a hand-written body have a known set.
For all others the sets are the least ones closed under calls, found by sweeping over the functions
until nothing changes.

Around a call, live values in destroyed registers are saved in a part of the caller's frame that is
as large as its neediest call.
-/

namespace Tac

/-- The registers that calls of each function destroy. -/
abbrev ClobberSets := Std.TreeMap String RegSet

/-- The functions of the environment. -/
def runtimeNames : List String :=
  ["getint", "getch", "getarray", "putint", "putch", "putarray", "_sysy_starttime",
    "_sysy_stoptime"]

/-- A call of a function that nobody defines. -/
structure UndefinedCallee where
  func : String
  callee : String
deriving DecidableEq, Repr

/-- The wording of the error. -/
def UndefinedCallee.text (e : UndefinedCallee) : String :=
  "func " ++ e.func ++ ": call of undefined function " ++ e.callee

namespace Clobber

/-- The registers that a function's own statements write. -/
def direct (p : Placement) : RegSet :=
  let held := RegSet.ofList (p.locs.toList.filterMap fun (_, l) => l.reg?)
  let passed := RegSet.ofList (Reg.args.take p.func.params.length)
  let result := if p.func.void then RegSet.empty else RegSet.ofList [Reg.a 0]
  (held.union passed).union result

/-- The calls of a function: statement and callee. -/
def calls (f : Func) : List (Nat × String) :=
  f.stmts.zipIdx.filterMap fun (s, i) => s.callee?.map fun g => (i, g)

/-- The sets before propagation. -/
def start (fixed : ClobberSets) (ps : List Placement) : ClobberSets :=
  let runtime : ClobberSets := runtimeNames.foldl (fun m n => m.insert n RegSet.all) {}
  ps.foldl (fun m p => m.insert p.func.name (fixed.getD p.func.name (direct p))) runtime

/-- The first call of a function without a set. -/
def undefined? (sets : ClobberSets) (ps : List Placement) : Option UndefinedCallee :=
  ps.findSome? fun p =>
    ((calls p.func).find? fun (_, g) => !sets.contains g).map fun (_, g) =>
      { func := p.func.name, callee := g }

/-- What a function destroys, given what its callees destroy. -/
def absorb (sets : ClobberSets) (f : Func) : RegSet :=
  (calls f).foldl (fun s (_, g) => s.union (sets.getD g RegSet.empty))
    (sets.getD f.name RegSet.empty)

/-- One sweep over the functions; tells whether a set grew. -/
def sweep (fixed : ClobberSets) (ps : List Placement) (sets : ClobberSets) : ClobberSets × Bool :=
  ps.foldl
    (fun (sets, changed) p =>
      if fixed.contains p.func.name then (sets, changed)
      else
        let s := absorb sets p.func
        if s = sets.getD p.func.name RegSet.empty then (sets, changed)
        else (sets.insert p.func.name s, true))
    (sets, false)

/-- Sweeps until nothing changes, for at most `fuel` sweeps; counts them. -/
def close (fixed : ClobberSets) (ps : List Placement) : Nat → Nat → ClobberSets → ClobberSets × Nat
  | 0, n, sets => (sets, n)
  | fuel + 1, n, sets =>
    match sweep fixed ps sets with
    | (sets, true) => close fixed ps fuel (n + 1) sets
    | (sets, false) => (sets, n + 1)

/-- The registers that hold live values and are in the set `destroy`, ascending. -/
def held (locs : Locs) (live : List VReg) (destroy : RegSet) : List Reg :=
  (RegSet.ofList (live.filterMap fun u =>
    ((locs[u]?).bind Loc.reg?).filter destroy.contains)).toList

/-- The registers to preserve around a call at statement `i` that destroys `destroy`. -/
def saved (p : Placement) (i : Nat) (destroy : RegSet) : List Reg :=
  held p.locs (p.liveAt i) destroy

/-- The frame words that a function needs for saved registers. -/
def callerSave (sets : ClobberSets) (p : Placement) : Nat :=
  (calls p.func).foldl (fun n (i, g) => max n (saved p i (sets.getD g RegSet.empty)).length) 0

/-- The final sets and the number of sweeps. -/
structure Result where
  sets : ClobberSets
  sweeps : Nat

/-- The registers that each function destroys; `fixed` are the sets of hand-written bodies.  Each
sweep but the last makes a set grow, and a set grows at most 32 times. -/
def propagate (fixed : ClobberSets) (ps : List Placement) : Except UndefinedCallee Result :=
  let sets := start fixed ps
  match undefined? sets ps with
  | some e => .error e
  | none =>
    let (sets, sweeps) := close fixed ps (32 * ps.length + 1) 0 sets
    .ok { sets, sweeps }

end Clobber

end Tac
