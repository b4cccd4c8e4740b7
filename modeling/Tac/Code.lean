import Tac.Operator
import Tac.Reg
import Tac.Text.Quoted
import Tac.Word

/-!
# Abstract machine code

Code for a register machine with a stack frame for each function, numbered global variables and
numbered labels.  Small immediates and offsets are bounded; frames are a multiple of sixteen bytes
and keep a word for the return address.
-/

namespace Tac

/-- A shift; a number that names no shift can be written down and is refused later. -/
inductive ShiftKind where
  | left | arithRight | logicRight
  | other (code : Int)
deriving DecidableEq, Inhabited, Repr

namespace ShiftKind

/-- The number of a shift. -/
def code : ShiftKind → Int
  | left => 0
  | arithRight => 1
  | logicRight => 2
  | other n => n

/-- The shift with a number. -/
def ofCode (n : Int) : ShiftKind :=
  if n = 0 then left else if n = 1 then arithRight else if n = 2 then logicRight else other n

/-- The spelling of a shift. -/
def parse? (s : String) : Option ShiftKind :=
  if s = "<<" then some left
  else if s = ">>" then some arithRight
  else if s = ">>>" then some logicRight
  else none

/-- The spelling of a shift that has one. -/
def spelling? : ShiftKind → Option String
  | left => some "<<"
  | arithRight => some ">>"
  | logicRight => some ">>>"
  | other _ => none

end ShiftKind

/-- An instruction.  Stack slots are words of the frame, offsets are bytes. -/
inductive Instr where
  | binary (out : Reg) (op : BinOp) (l r : Reg)
  | unary (out : Reg) (op : UnOp) (x : Reg)
  | move (out x : Reg)
  | imm (out : Reg) (val : Int)
  | addImm (out x : Reg) (val : Int)
  | shift (out x : Reg) (kind : ShiftKind) (n : Int)
  /-- `out = x / 2^n`, rounding toward zero. -/
  | divPow2 (out x : Reg) (n : Int)
  /-- `base[off] = x` -/
  | store (base : Reg) (off : Int) (x : Reg)
  /-- `out = base[off]` -/
  | load (out base : Reg) (off : Int)
  | branch (l r : Reg) (rel : Rel) (label : Int)
  | jump (label : Int)
  | label (id : Int)
  | call (func : String)
  | ret
  | storeStack (x : Reg) (slot : Int)
  | loadStack (out : Reg) (slot : Int)
  | loadGlobal (out : Reg) (global : Int)
  | addrStack (out : Reg) (slot : Int)
  | addrGlobal (out : Reg) (global : Int)
  | comment (text : String)
deriving DecidableEq, Inhabited, Repr

/-- A global variable.  Arrays start as zeros; their initial values are stored by code. -/
structure GlobalVar where
  index : Int
  array : Bool := false
  words : Int := 0
  init : Int := 0
deriving DecidableEq, Inhabited, Repr

/-- The code of a function. -/
structure CodeFunc where
  name : String
  params : Int
  /-- The frame size in words. -/
  stack : Int
  body : List Instr
deriving DecidableEq, Inhabited, Repr

/-- The code of a program. -/
structure Code where
  globals : List GlobalVar := []
  funcs : List CodeFunc := []
deriving DecidableEq, Inhabited, Repr

/-- Immediates and offsets lie strictly between the negative and the positive of this bound. -/
def immBound : Int := 2047

/-- Whether a number does not fit an instruction. -/
def immOverflows (x : Int) : Bool := x ≤ -immBound || immBound ≤ x

/-- The bytes of a frame of the given number of words: a multiple of sixteen, with room for the
return address. -/
def frameBytes (words : Int) : Int := wrap64 ((Int.tdiv words 4 + 1) * 16)

/-! ## Instructions as records -/

/-- A field of an instruction. -/
inductive Field where
  | reg (r : Reg)
  | regs (l r : Reg)
  | binOp (op : BinOp)
  | unOp (op : UnOp)
  | rel (r : Rel)
  | int (n : Int)
  | text (s : String)

/-- An instruction as a named record, the form in which messages and logs show it. -/
structure Record where
  name : String
  fields : List (String × Field)

/-- The record of an instruction. -/
def Instr.record : Instr → Record
  | binary o op l r => ⟨"Binary", [("Out", .reg o), ("Op", .binOp op), ("In", .regs l r)]⟩
  | unary o op x => ⟨"Unary", [("Out", .reg o), ("Op", .unOp op), ("In", .reg x)]⟩
  | move o x => ⟨"Mov", [("Out", .reg o), ("In", .reg x)]⟩
  | imm o v => ⟨"Imm", [("Out", .reg o), ("Val", .int v)]⟩
  | addImm o x v => ⟨"AddI", [("Out", .reg o), ("In", .reg x), ("Val", .int v)]⟩
  | shift o x k n =>
    ⟨"Shift", [("Out", .reg o), ("In", .reg x), ("Kind", .int k.code), ("N", .int n)]⟩
  | divPow2 o x n => ⟨"DivPow2", [("Out", .reg o), ("In", .reg x), ("N", .int n)]⟩
  | store b off x => ⟨"Store", [("Base", .reg b), ("Off", .int off), ("In", .reg x)]⟩
  | load o b off => ⟨"Load", [("Out", .reg o), ("Base", .reg b), ("Off", .int off)]⟩
  | branch l r rel lab => ⟨"BCond", [("In", .regs l r), ("Rel", .rel rel), ("Label", .int lab)]⟩
  | jump l => ⟨"B", [("Label", .int l)]⟩
  | label l => ⟨"Label", [("ID", .int l)]⟩
  | call f => ⟨"Call", [("Func", .text f)]⟩
  | ret => ⟨"Ret", []⟩
  | storeStack x s => ⟨"StoreStack", [("In", .reg x), ("Slot", .int s)]⟩
  | loadStack o s => ⟨"LoadStack", [("Out", .reg o), ("Slot", .int s)]⟩
  | loadGlobal o g => ⟨"LoadGlobal", [("Out", .reg o), ("Global", .int g)]⟩
  | addrStack o s => ⟨"AddrStack", [("Out", .reg o), ("Slot", .int s)]⟩
  | addrGlobal o g => ⟨"AddrGlobal", [("Out", .reg o), ("Global", .int g)]⟩
  | comment t => ⟨"Comment", [("Text", .text t)]⟩

/-- A field inside a message: everything but texts by number. -/
def Field.debug : Field → String
  | reg r => Text.decimal r.num
  | regs l r => "[2]reg.Reg\x7b" ++ Text.decimal l.num ++ ", " ++ Text.decimal r.num ++ "\x7d"
  | binOp op => Text.decimal op.code
  | unOp op => Text.decimal op.code
  | rel r => Text.decimal r.code
  | int n => Text.decimal n
  | text s => Text.quote s

/-- An instruction inside a message. -/
def Instr.debug (x : Instr) : String :=
  "asm." ++ x.record.name ++ "\x7b" ++
    ", ".intercalate (x.record.fields.map fun (k, f) => k ++ ":" ++ f.debug) ++ "\x7d"

end Tac
