import Tac.Code

/-!
# Text of abstract machine code

The abstract machine has its own text form.  It has no logical operators and no logical right
shift, so code that uses them has no text; what was written before such an instruction is kept.
-/

namespace Tac

/-- Why an instruction has no text. -/
inductive EmitError where
  | unsupportedOperator (op : BinOp)
  | logicalShift (out x : Reg) (n : Int)
  | immediateOutOfRange (n : Int)
  | storeOffset (n : Int)
  | loadOffset (n : Int)
  /-- A shift that is none, or by a negative amount. -/
  | badShift
deriving DecidableEq, Repr

/-- The wording of an error. -/
def EmitError.text : EmitError → String
  | unsupportedOperator op => "unsupported operator: " ++ op.text
  | logicalShift o x n =>
    "logical shift in abstract machine text: " ++ o.name ++ " = " ++ x.name ++ " >>> " ++
      Text.decimal n
  | immediateOutOfRange n => "addi immediate out of range: " ++ Text.decimal n
  | storeOffset n => "store offset out of range: " ++ Text.decimal n
  | loadOffset n => "load offset out of range: " ++ Text.decimal n
  | badShift => ""

/-- Code as text.  An error comes with its function and leaves the text before it. -/
structure Emission where
  text : String
  error : Option (String × EmitError) := none

/-- The message of a failed emission. -/
def emitMessage (func : String) (e : EmitError) : String := "func " ++ func ++ ": " ++ e.text

/-- The text of pieces up to the first that has none. -/
def emitAll {α : Type} (piece : α → Except EmitError String) (func : String) :
    String → List α → Emission
  | out, [] => { text := out }
  | out, x :: xs =>
    match piece x with
    | .ok s => emitAll piece func (out ++ s) xs
    | .error e => { text := out, error := some (func, e) }

/-- Puts one function after another until one fails. -/
def emitFuncs (func : String → CodeFunc → Emission) : String → List CodeFunc → Emission
  | out, [] => { text := out }
  | out, f :: fs =>
    match func out f with
    | { text, error := none } => emitFuncs func text fs
    | failed => failed

namespace Code.Printer

/-- One indented line. -/
def line (s : String) : String := "    " ++ s ++ "\n"

/-- A power of two in 64 bits. -/
def pow64 (n : Int) : Int := wrap64 (Nat.pow 2 n.toNat)

/-- A power of two in 32 bits. -/
def pow32 (n : Int) : Int := Int.bmod (Nat.pow 2 n.toNat) 4294967296

/-- A move; a move to itself is a comment. -/
def move (o x : Reg) : String :=
  if o = x then line ("// " ++ o.name ++ " = " ++ x.name) else line (o.name ++ " = " ++ x.name)

/-- A shift, written as a multiplication or a division. -/
def shift (o x : Reg) (kind : ShiftKind) (n : Int) : Except EmitError String :=
  if n = 0 then .ok (move o x)
  else match kind with
    | .left =>
      if n < 0 then .error .badShift
      else .ok (line (o.name ++ " = " ++ x.name ++ " * " ++ Text.decimal (if n < 64 then pow32 n else 0)))
    | .arithRight =>
      if n < 0 then .error .badShift
      else .ok (line (o.name ++ " = " ++ x.name ++ " / " ++ Text.decimal (if n < 64 then pow64 n else 0)))
    | .logicRight => .error (.logicalShift o x n)
    | .other _ => .error .badShift

/-- The text of an instruction. -/
def instr : Instr → Except EmitError String
  | .binary o op l r =>
    if op.isLogical then .error (.unsupportedOperator op)
    else .ok (line (o.name ++ " = " ++ l.name ++ " " ++ op.text ++ " " ++ r.name))
  | .unary o .plus x => .ok (move o x)
  | .unary o op x => .ok (line (o.name ++ " = " ++ op.text ++ " " ++ x.name))
  | .move o x => .ok (move o x)
  | .imm o v => .ok (line (o.name ++ " = " ++ Text.decimal v))
  | .addImm o x v =>
    if v = 0 ∧ o = x then .ok (line ("// " ++ o.name ++ " = " ++ x.name ++ " + 0"))
    else .ok (line (o.name ++ " = " ++ x.name ++ " + " ++ Text.decimal v))
  | .shift o x k n => shift o x k n
  | .divPow2 o x n =>
    if n < 0 then .error .badShift
    else .ok (line (o.name ++ " = " ++ x.name ++ " / " ++ Text.decimal (if n < 64 then pow64 n else 0)))
  | .store b off x => .ok (line (b.name ++ " [" ++ Text.decimal off ++ "] = " ++ x.name))
  | .load o b off => .ok (line (o.name ++ " = " ++ b.name ++ " [" ++ Text.decimal off ++ "]"))
  | .branch l r rel lab =>
    .ok (line ("if " ++ l.name ++ " " ++ rel.text ++ " " ++ r.name ++ " goto l" ++ Text.decimal lab))
  | .jump l => .ok (line ("goto l" ++ Text.decimal l))
  | .label l => .ok ("l" ++ Text.decimal l ++ ":\n")
  | .call f => .ok (line ("call f_" ++ f))
  | .ret => .ok (line "return")
  | .storeStack x s => .ok (line ("store " ++ x.name ++ " " ++ Text.decimal s))
  | .loadStack o s => .ok (line ("load " ++ Text.decimal s ++ " " ++ o.name))
  | .loadGlobal o g => .ok (line ("load v" ++ Text.decimal g ++ " " ++ o.name))
  | .addrStack o s => .ok (line ("loadaddr " ++ Text.decimal s ++ " " ++ o.name))
  | .addrGlobal o g => .ok (line ("loadaddr v" ++ Text.decimal g ++ " " ++ o.name))
  | .comment t => .ok (line ("// " ++ t))

/-- The declaration of a global. -/
def global (g : GlobalVar) : String :=
  if g.array then
    "v" ++ Text.decimal g.index ++ " = malloc " ++ Text.decimal (wrap64 (4 * g.words)) ++ "\n"
  else "v" ++ Text.decimal g.index ++ " = " ++ Text.decimal g.init ++ "\n"

/-- A function after what is already written. -/
def func (out : String) (f : CodeFunc) : Emission :=
  let head := "f_" ++ f.name ++ " [" ++ Text.decimal f.params ++ "] [" ++ Text.decimal f.stack ++
    "]\n"
  match emitAll instr f.name (out ++ (if out.isEmpty then "" else "\n") ++ head) f.body with
  | { text, error := none } => { text := text ++ "end f_" ++ f.name ++ "\n" }
  | failed => failed

end Code.Printer

/-- The text of abstract machine code. -/
def Code.text (c : Code) : Emission :=
  emitFuncs Code.Printer.func (String.join (c.globals.map Code.Printer.global)) c.funcs

end Tac
