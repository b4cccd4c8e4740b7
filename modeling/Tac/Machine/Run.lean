import Tac.Machine

/-!
# Running functions

A run goes instruction by instruction over a stack of frames, one for each active call.  Steps and
call depth are limited.  However a run ends, its frames are given back; only the frame that did not
fit the stack stays taken.

An error names the calls around it: for each active frame the place and the instruction that was
running, the outermost first.
-/

namespace Tac

/-- The bounds of a run. -/
structure Limits where
  /-- The highest number of instructions over the machine's life; zero means no bound. -/
  steps : Int := 10000000
  /-- The highest number of nested calls. -/
  depth : Int := 10000

/-- An error of a running program and the instructions around it, the outermost first. -/
structure Trap where
  cause : TrapCause
  trace : List (Nat × Instr)
deriving DecidableEq, Repr

/-- The message of an error. -/
def Trap.text (t : Trap) : String :=
  String.join (t.trace.map fun (pc, x) => "pc " ++ Text.decimal pc ++ ": " ++ x.debug ++ ": ") ++
    t.cause.text

/-- The message of an error in a call of `name` from outside.  An empty name is not shown. -/
def Trap.message (t : Trap) (name : String) : String :=
  if name = "" then t.text else name ++ ": " ++ t.text

/-- How a run ended. -/
inductive Outcome where
  | done
  | trap (t : Trap)
  | fault

namespace Machine

/-- An active call and its next instruction. -/
structure Frame where
  func : LoadedFunc
  pc : Nat

/-- What a call comes to before its first instruction. -/
inductive Entry where
  /-- A function of the environment, which is done. -/
  | returned (m : Machine)
  | entered (m : Machine) (f : LoadedFunc)
  | refused (m : Machine) (cause : TrapCause)

/-- Calls a function: takes its frame, or lets the environment run it. -/
def enter (im : Image) (lim : Limits) (m : Machine) (name : String) : Entry :=
  match im.funcs[name]? with
  | none =>
    match m.runtime name with
    | (m, none) => .returned m
    | (m, some c) => .refused m c
  | some f =>
    if lim.depth ≤ m.depth then .refused m .depthLimit
    else
      let sp := m.sp - f.frame
      if sp < im.stackBase then .refused { m with sp } .stackOverflow
      else .entered { m with sp, depth := m.depth + 1 } f

/-- Gives back the frame of a function. -/
def leave (m : Machine) (f : LoadedFunc) : Machine :=
  { m with sp := m.sp + f.frame, depth := m.depth - 1 }

/-- Gives back all frames. -/
def unwind (m : Machine) (frames : List Frame) : Machine := frames.foldl (fun m f => m.leave f.func) m

/-- The instruction that a frame is at. -/
def Frame.at (f : Frame) : List (Nat × Instr) := (f.func.body[f.pc]?).toList.map fun x => (f.pc, x)

/-- The places of the given frames, of which the innermost comes first. -/
def traceOf (frames : List Frame) : List (Nat × Instr) := frames.reverse.flatMap Frame.at

/-- One step of a run: a new state with its frames, the innermost first, or the end. -/
inductive Step where
  | continue (m : Machine) (top : Frame) (rest : List Frame)
  | stop (m : Machine) (o : Outcome)

/-- Ends a run with an error; `around` are the frames that the message names. -/
def trapped (m : Machine) (frames around : List Frame) (cause : TrapCause) : Step :=
  .stop (m.unwind frames) (.trap { cause, trace := traceOf around })

/-- Runs the instruction `x` at the innermost frame. -/
def stepInstr (im : Image) (lim : Limits) (m : Machine) (top : Frame) (rest : List Frame)
    (x : Instr) : Step :=
  match exec im top.func m x with
  | .fault m => .stop (m.unwind (top :: rest)) .fault
  | .trap m c => trapped m (top :: rest) (top :: rest) c
  | .ok m .next => .continue m.resetZero { top with pc := top.pc + 1 } rest
  | .ok m (.goto pc) => .continue m.resetZero { top with pc := pc + 1 } rest
  | .ok m (.call g) =>
    match m.enter im lim g with
    | .refused m c => trapped m (top :: rest) (top :: rest) c
    | .returned m => .continue m.resetZero { top with pc := top.pc + 1 } rest
    | .entered m f => .continue m { func := f, pc := 0 } (top :: rest)
  | .ok m .ret =>
    let m := m.resetZero.leave top.func
    match rest with
    | [] => .stop m .done
    | caller :: rest => .continue m.resetZero { caller with pc := caller.pc + 1 } rest

/-- One step at the innermost frame: counts, checks the step bound and runs the instruction. -/
def step (im : Image) (lim : Limits) (m : Machine) (top : Frame) (rest : List Frame) : Step :=
  match top.func.body[top.pc]? with
  | none => trapped m (top :: rest) rest (.noReturn top.func.name)
  | some x =>
    let m := { m with steps := m.steps + 1 }
    if lim.steps ≠ 0 ∧ lim.steps < m.steps then trapped m (top :: rest) rest .stepLimit
    else stepInstr im lim m top rest x

/-- Steps until the end, at most `fuel` times. -/
def runSteps (im : Image) (lim : Limits) : Nat → Machine → Frame → List Frame → Machine × Outcome
  | 0, m, top, rest => (m.unwind (top :: rest), .trap { cause := .stepLimit, trace := traceOf rest })
  | fuel + 1, m, top, rest =>
    match step im lim m top rest with
    | .continue m top rest => runSteps im lim fuel m top rest
    | .stop m o => (m, o)

/-- Enough steps for a run: one more than the bound leaves, or as good as no bound. -/
def fuel (lim : Limits) (m : Machine) : Nat :=
  if lim.steps = 0 then Nat.pow 2 60 else (lim.steps - m.steps).toNat + 2

/-- Runs a function whose arguments are already in registers. -/
def run (im : Image) (lim : Limits) (m : Machine) (name : String) : Machine × Outcome :=
  match m.enter im lim name with
  | .returned m => (m, .done)
  | .refused m cause => (m, .trap { cause, trace := [] })
  | .entered m f => runSteps im lim (fuel lim m) m { func := f, pc := 0 } []

/-- Writes arguments to the registers that pass them; false if there are too many, after those that
fit were written. -/
def passArgs (m : Machine) (args : List Word) : Machine × Bool :=
  ((args.zip Reg.args).foldl
    (fun m (x, r) => match r.index? with | some i => m.setReg i x | none => m) m,
    args.length ≤ Reg.argCount)

/-- How a call from outside ended. -/
inductive CallResult where
  | returned (x : Word)
  /-- An error, with its message. -/
  | failed (cause : TrapCause) (message : String)
  | fault

/-- Calls a function from outside. -/
def call (im : Image) (lim : Limits) (m : Machine) (name : String) (args : List Word) :
    Machine × CallResult :=
  match m.passArgs args with
  | (m, false) => (m, .fault)
  | (m, true) =>
    match m.run im lim name with
    | (m, .done) => (m, .returned (m.reg resultReg))
    | (m, .trap t) => (m, .failed t.cause (t.message name))
    | (m, .fault) => (m, .fault)

end Machine

end Tac
