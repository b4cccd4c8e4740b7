import Tac.Folder
import Tac.Lowering
import Tac.Peephole
import Tac.Program.Reader
import Tac.Riscv
import Tac.Tree.Generate

/-!
# The compiler

A program is read from text or made from a tree.  Then its functions are optimised, placed in
registers, given the sets of registers that calls destroy, and lowered; the result is printed in the
form that was asked for.  The first error stops; its message names the stage.
-/

namespace Tac

/-- Whose fault an error is. -/
inductive ErrorClass where
  /-- The compiled program's. -/
  | user
  /-- The compiler's: something that it relies on does not hold. -/
  | internal
  /-- The file system's. -/
  | path
  /-- Anything else. -/
  | other
  /-- Nobody can say: the input breaks what its producer promises, and there is no message. -/
  | fault
deriving DecidableEq, Repr

/-- An error of a stage between a program and its code. -/
inductive StageError where
  | allocate (func : String) (e : AllocError)
  | clobber (e : UndefinedCallee)
  | lower (e : LowerFailure)
deriving DecidableEq, Repr

/-- Whose fault an analysis error is. -/
def AnalysisError.cls : AnalysisError → ErrorClass
  | .flow _ => .internal
  | .malformed => .fault

/-- The message of an analysis error. -/
def AnalysisError.message : AnalysisError → String
  | .flow e => "internal error: " ++ e.text
  | .malformed => ""

/-- Whose fault an allocation error is. -/
def AllocError.cls : AllocError → ErrorClass
  | .malformed => .fault
  | _ => .internal

/-- Whose fault a refused tree is. -/
def Tree.GenError.cls : Tree.GenError → ErrorClass
  | .malformed => .fault
  | .refused .. => .user

namespace StageError

/-- Whose fault the error is. -/
def cls : StageError → ErrorClass
  | allocate _ e => e.cls
  | clobber _ => .user
  | lower (.stmt _ _ .malformed) => .fault
  | lower (.stmt _ _ e) => if e.isUser then .user else .internal
  | lower (.unknownBuiltin ..) => .other
  | lower .needsMain => .user
  | lower .malformed => .fault

/-- The message of the error. -/
def message : StageError → String
  | allocate f e => "func " ++ f ++ ": " ++ e.text
  | clobber e => "clobber: " ++ e.text
  | lower e => "lower: " ++ e.message

end StageError

/-- Settings of the compiler. -/
structure Options where
  peephole : Bool := true
  builtins : Bool := true
  /-- The registers to use, in priority order; none means all that are allocatable. -/
  regs : List Reg := []

namespace Program

/-- Fuses statements in every function; gives the number of fusions in each. -/
def optimize (p : Program) : Program × List Nat :=
  let rs := p.funcs.map Peephole.optimize
  ({ p with funcs := rs.map Prod.fst }, rs.map Prod.snd)

/-- The program as the stages after optimisation see it. -/
def prepare (o : Options) (p : Program) : Program := if o.peephole then p.optimize.1 else p

/-- Places functions in registers until one fails. -/
def placeFuncs (vars : VarTable) (regs : List Reg) :
    List Func → Except StageError (List Placement)
  | [] => .ok []
  | f :: fs =>
    match (f.allocate vars regs).outcome with
    | .error e => .error (.allocate f.name e)
    | .ok p =>
      match placeFuncs vars regs fs with
      | .error e => .error e
      | .ok ps => .ok (p :: ps)

/-- Places every function in registers. -/
def place (o : Options) (p : Program) : Except StageError (List Placement) :=
  placeFuncs p.vars o.regs p.funcs

/-- The registers that calls destroy, for placed functions. -/
def clobber (ps : List Placement) : Except UndefinedCallee Clobber.Result :=
  Clobber.propagate (Builtin.clobbers (ps.map Placement.func)) ps

/-- The code of a program whose functions are placed. -/
def lowerPlaced (p : Program) (ps : List Placement) : Except StageError Code :=
  match clobber ps with
  | .error e => .error (.clobber e)
  | .ok r =>
    match Lowering.program p r.sets ps with
    | .error e => .error (.lower e)
    | .ok c => .ok c

/-- Functions placed at given locations, without arrays and with a given frame size. -/
def placeAt (p : Program) (locs : Locs) (spillSize : Int) :
    Except AnalysisError (List Placement) :=
  p.funcs.mapM fun f => (f.analyze p.vars).map fun a =>
    { func := f, live := a.live.live, meet := a.live.meet, locs, arrays := {}, spillSize }

/-- Allocates every function, whether or not others fail. -/
def allocateAll (o : Options) (p : Program) : List Allocation :=
  p.funcs.map (Func.allocate p.vars o.regs)

/-- The placements of allocations that all succeeded. -/
def placements? (as : List Allocation) : Option (List Placement) :=
  as.mapM fun a => a.outcome.toOption

/-- The code of a program. -/
def toCode (o : Options) (p : Program) : Except StageError Code :=
  let p := p.prepare o
  match p.place o with
  | .error e => .error e
  | .ok ps => p.lowerPlaced ps

end Program

/-- What the compiler puts out. -/
inductive Mode where
  /-- RISC-V assembly. -/
  | assembly
  /-- Program text. -/
  | ir
  /-- Program text with locations and live values. -/
  | annotated
  /-- Abstract machine text. -/
  | abstract
  /-- A number that is no mode; it is refused last. -/
  | unknown
deriving DecidableEq, Repr

namespace Mode

/-- The mode of a number. -/
def ofCode (n : Int) : Mode :=
  if n = 0 then assembly else if n = 1 then ir else if n = 2 then annotated
  else if n = 3 then abstract else unknown

/-- The mode of a name. -/
def ofName? (s : String) : Option Mode :=
  if s = "asm" then some assembly
  else if s = "ir" then some ir
  else if s = "annotated" then some annotated
  else if s = "tigger" then some abstract
  else none

end Mode

/-- Why there is no output. -/
inductive CompileError where
  | file (e : FileError)
  | read (e : ReadError)
  | generate (e : Tree.GenError)
  | stage (e : StageError)
  | emit (func : String) (e : EmitError)
  | unsupportedMode
  /-- A name cannot be looked up while text is written. -/
  | malformed
deriving DecidableEq, Repr

namespace CompileError

/-- Whose fault the error is. -/
def cls : CompileError → ErrorClass
  | file _ => .path
  | read _ => .user
  | generate e => e.cls
  | stage e => e.cls
  | emit _ .badShift => .fault
  | emit .. => .other
  | unsupportedMode => .other
  | malformed => .fault

/-- The message of the error. -/
def message : CompileError → String
  | file e => "read file: " ++ e.text
  | read e => "parse: " ++ e.message
  | generate e => "generate ir: " ++ e.message
  | stage e => e.message
  | emit f e => emitMessage f e
  | unsupportedMode => "unsupported mode: unknown"
  | malformed => ""

end CompileError

namespace Program

/-- Text that was made without an error. -/
def emitted (e : Emission) : Except CompileError String :=
  match e.error with
  | none => .ok e.text
  | some (f, c) => .error (.emit f c)

/-- The annotated form of an optimised program. -/
def annotatedText (p : Program) (ps : List Placement) : Except CompileError String :=
  let p := { p with funcs := ps.map Placement.func }
  if p.isNamed then .ok (p.text (ps.map fun q => some q.annotation)) else .error .malformed

/-- Compiles a program to the output that the mode asks for. -/
def compile (o : Options) (mode : Mode) (p : Program) : Except CompileError String :=
  let p := p.prepare o
  match mode with
  | .ir =>
    match p.plainText? with
    | some s => .ok s
    | none => .error .malformed
  | mode =>
    match p.place o with
    | .error e => .error (.stage e)
    | .ok ps =>
      if mode = .annotated then p.annotatedText ps
      else match p.lowerPlaced ps with
        | .error e => .error (.stage e)
        | .ok c =>
          match mode with
          | .abstract => emitted c.text
          | .assembly => emitted (Riscv.text c)
          | _ => .error .unsupportedMode

/-- Compiles program text; `file` is the name that messages use. -/
def compileText (o : Options) (mode : Mode) (file text : String) : Except CompileError String :=
  match Program.parse file text with
  | .error e => .error (.read e)
  | .ok p => p.compile o mode

end Program

/-- Compiles a tree. -/
def Tree.CompUnit.compile (o : Options) (mode : Mode) (u : Tree.CompUnit) :
    Except CompileError String :=
  match u.generate o.builtins with
  | .error e => .error (.generate e)
  | .ok p => p.compile o mode

/-- Compiles what was read from a file; `file` is the name that messages use. -/
def compileFile (o : Options) (mode : Mode) (file : String) (contents : Except FileError String) :
    Except CompileError String :=
  match contents with
  | .error e => .error (.file e)
  | .ok text => Program.compileText o mode file text

end Tac
