import Tac.Machine.Run

/-!
# Working with a machine

Requests on one machine.  Memory, registers, input and the step count stay between requests.
-/

namespace Tac.Session

/-- A machine with its program and its bounds. -/
structure Running where
  image : Image
  limits : Limits
  machine : Machine

/-- The machine of a program before any request; none if the program does not fit. -/
def Running.start? (c : Code) (limits : Limits) (input : List Word) : Option Running :=
  (Machine.ofCode? c input).map fun machine => { image := Image.ofCode c, limits, machine }

/-- A request on a machine. -/
inductive MachineRequest where
  | call (name : String) (args : List Word)
  | load (addr : Word)
  | store (addr x : Word)
  | global (index : Int)
  | regs
  | setReg (r : Reg) (x : Word)
  | input (xs : List Word)

/-- The answer to a request. -/
inductive MachineReply where
  /-- A finished call: its result or error, what it wrote, all steps so far and the numbers left. -/
  | call (result : Machine.CallResult) (output : List UInt8) (steps left : Nat)
  | word (x : Word)
  | trap (c : TrapCause)
  | global (addr : Option Word)
  | regs (xs : List Word)
  | done
  | fault

/-- Carries out a request. -/
def Running.handle (r : Running) : MachineRequest → Running × MachineReply
  | .call name args =>
    let (m, result) := { r.machine with output := #[] }.call r.image r.limits name args
    ({ r with machine := m }, .call result m.output.toList m.steps m.input.length)
  | .load addr =>
    match r.machine.load addr with
    | .ok x => (r, .word x)
    | .error c => (r, .trap c)
  | .store addr x =>
    match r.machine.store addr x with
    | .ok m => ({ r with machine := m }, .done)
    | .error c => (r, .trap c)
  | .global i => (r, .global r.image.globals[i]?)
  | .regs => (r, .regs r.machine.regs.toList)
  | .setReg x v =>
    match x.index? with
    | some i => ({ r with machine := r.machine.setReg i v }, .done)
    | none => (r, .fault)
  | .input xs => ({ r with machine := { r.machine with input := xs } }, .done)

end Tac.Session
