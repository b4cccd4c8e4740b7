import Tac.Code.Printer

/-!
# RISC-V assembly

Each abstract instruction becomes a few instructions of 32-bit RISC-V, pseudo-instructions included.
Slots too far for an immediate offset are addressed through a register; division by a power of two
adds a bias to negative dividends so that the shift rounds toward zero.

Instructions are data here, and the text is made from them line by line.
-/

namespace Tac.Riscv

/-- A register of the assembly: one of the machine's, the stack pointer or the return address. -/
inductive Operand where
  | reg (r : Reg)
  | sp
  | ra
deriving DecidableEq, Repr

/-- A register's name. -/
def Operand.text : Operand → String
  | reg r => r.name
  | sp => "sp"
  | ra => "ra"

instance : Coe Reg Operand := ⟨Operand.reg⟩

/-- Operations on two registers. -/
inductive Op3 where
  | add | sub | mul | div | rem | slt | sgt | xor
deriving DecidableEq, Repr

/-- The mnemonic of an operation on two registers. -/
def Op3.text : Op3 → String
  | add => "add"
  | sub => "sub"
  | mul => "mul"
  | div => "div"
  | rem => "rem"
  | slt => "slt"
  | sgt => "sgt"
  | xor => "xor"

/-- Operations on one register. -/
inductive Op2 where
  | mv | neg | seqz | snez
deriving DecidableEq, Repr

/-- The mnemonic of an operation on one register. -/
def Op2.text : Op2 → String
  | mv => "mv"
  | neg => "neg"
  | seqz => "seqz"
  | snez => "snez"

/-- Operations on a register and an immediate. -/
inductive OpImm where
  | addi | slli | srai | srli
deriving DecidableEq, Repr

/-- The mnemonic of an operation with an immediate. -/
def OpImm.text : OpImm → String
  | addi => "addi"
  | slli => "slli"
  | srai => "srai"
  | srli => "srli"

/-- The mnemonic of a conditional branch. -/
def branchText : Rel → String
  | .lt => "blt"
  | .gt => "bgt"
  | .le => "ble"
  | .ge => "bge"
  | .eq => "beq"
  | .ne => "bne"

/-- An assembly instruction or a line without effect. -/
inductive Inst where
  | op3 (op : Op3) (d l r : Operand)
  | op2 (op : Op2) (d x : Operand)
  | opImm (op : OpImm) (d x : Operand) (n : Int)
  | li (d : Operand) (n : Int)
  /-- Loads the address of a global. -/
  | la (d : Operand) (global : Int)
  /-- Loads the upper part of the address of a global. -/
  | luiHi (d : Operand) (global : Int)
  /-- Loads a word at the lower part of the address of a global above a base. -/
  | lwLo (d : Operand) (global : Int) (base : Operand)
  | lw (d : Operand) (off : Int) (base : Operand)
  | sw (x : Operand) (off : Int) (base : Operand)
  | branch (rel : Rel) (l r : Operand) (label : Int)
  | j (label : Int)
  | label (id : Int)
  | call (func : String)
  | ret
  | comment (text : String)
deriving DecidableEq, Repr

/-! ## Emission -/

/-- A move; a move to itself is a comment. -/
def move (o x : Reg) : List Inst :=
  if o = x then [.comment ("mv " ++ o.name ++ " to self")] else [.op2 .mv o x]

/-- Moves the stack pointer. -/
def moveSp (n : Int) : List Inst :=
  if immOverflows n then [.li Reg.scratch0 n, .op3 .add .sp .sp Reg.scratch0]
  else [.opImm .addi .sp .sp n]

/-- A binary operator. -/
def binary (d : Reg) (op : BinOp) (l r : Reg) : Except EmitError (List Inst) :=
  match op with
  | .add => .ok [.op3 .add d l r]
  | .sub => .ok [.op3 .sub d l r]
  | .mul => .ok [.op3 .mul d l r]
  | .div => .ok [.op3 .div d l r]
  | .mod => .ok [.op3 .rem d l r]
  | .cmp .lt => .ok [.op3 .slt d l r]
  | .cmp .gt => .ok [.op3 .sgt d l r]
  | .cmp .le => .ok [.op3 .sgt d l r, .op2 .seqz d d]
  | .cmp .ge => .ok [.op3 .slt d l r, .op2 .seqz d d]
  | .cmp .eq => .ok [.op3 .xor d l r, .op2 .seqz d d]
  | .cmp .ne => .ok [.op3 .xor d l r, .op2 .snez d d]
  | .and | .or => .error (.unsupportedOperator op)

/-- A shift. -/
def shift (o x : Reg) (kind : ShiftKind) (n : Int) : Except EmitError (List Inst) :=
  if n = 0 then
    .ok (if o = x then [.comment ("shift " ++ o.name ++ " by 0")] else move o x)
  else match kind with
    | .left => .ok [.opImm .slli o x n]
    | .arithRight => .ok [.opImm .srai o x n]
    | .logicRight => .ok [.opImm .srli o x n]
    | .other _ => .error .badShift

/-- Division by a power of two: negative dividends get a bias of one less than the divisor. -/
def divPow2 (o x : Reg) (n : Int) : List Inst :=
  let t := Reg.scratch1
  [.opImm .srai t x 31, .opImm .srli t t (wrap64 (32 - n)), .op3 .add t x t, .opImm .srai o t n]

/-- The register through which a store reaches a far slot. -/
def storeHelper (x : Reg) : Reg := if x = Reg.scratch0 then Reg.scratch1 else Reg.scratch0

/-- The assembly of an instruction, in a function whose frame has `stack` words. -/
def instr (stack : Int) : Instr → Except EmitError (List Inst)
  | .binary o op l r => binary o op l r
  | .unary o .plus x => .ok (move o x)
  | .unary o .neg x => .ok [.op2 .neg o x]
  | .unary o .not x => .ok [.op2 .seqz o x]
  | .move o x => .ok (move o x)
  | .imm o v => .ok [.li o v]
  | .addImm o x v =>
    if v = 0 then .ok (move o x)
    else if immOverflows v then .error (.immediateOutOfRange v)
    else .ok [.opImm .addi o x v]
  | .shift o x k n => shift o x k n
  | .divPow2 o x n => .ok (divPow2 o x n)
  | .store b off x => if immOverflows off then .error (.storeOffset off) else .ok [.sw x off b]
  | .load o b off => if immOverflows off then .error (.loadOffset off) else .ok [.lw o off b]
  | .branch l r rel lab => .ok [.branch rel l r lab]
  | .jump l => .ok [.j l]
  | .label l => .ok [.label l]
  | .call f => .ok [.call f]
  | .ret => .ok (moveSp (frameBytes stack) ++ [.lw .ra (-4) .sp, .ret])
  | .storeStack x s =>
    let off := wrap64 (4 * s)
    let t := storeHelper x
    if immOverflows off then .ok [.li t off, .op3 .add t t .sp, .sw x 0 t] else .ok [.sw x off .sp]
  | .loadStack o s =>
    let off := wrap64 (4 * s)
    if immOverflows off then .ok [.li o off, .op3 .add o o .sp, .lw o 0 o] else .ok [.lw o off .sp]
  | .loadGlobal o g => .ok [.luiHi o g, .lwLo o g o]
  | .addrStack o s =>
    let off := wrap64 (4 * s)
    if immOverflows off then .ok [.li o off, .op3 .add o .sp o] else .ok [.opImm .addi o .sp off]
  | .addrGlobal o g => .ok [.la o g]
  | .comment t => .ok [.comment t]

/-! ## Text -/

/-- A line with a mnemonic or directive, which takes at least eight columns before operands. -/
def line (op : String) (operands : String) : String :=
  "  " ++ op ++ String.ofList (List.replicate (8 - op.length) ' ') ++ operands ++ "\n"

/-- A line with a mnemonic or directive that has no operands. -/
def bareLine (op : String) : String := "  " ++ op ++ "\n"

/-- Operands separated by commas. -/
def commas (xs : List String) : String := ", ".intercalate xs

/-- A memory operand. -/
def atOffset (off : String) (base : Operand) : String := off ++ "(" ++ base.text ++ ")"

/-- The name of a global. -/
def globalName (g : Int) : String := "v" ++ Text.decimal g

/-- The name of a label. -/
def labelName (l : Int) : String := ".l" ++ Text.decimal l

/-- The line of an instruction. -/
def Inst.text : Inst → String
  | op3 op d l r => line op.text (commas [d.text, l.text, r.text])
  | op2 op d x => line op.text (commas [d.text, x.text])
  | opImm op d x n => line op.text (commas [d.text, x.text, Text.decimal n])
  | li d n => line "li" (commas [d.text, Text.decimal n])
  | la d g => line "la" (commas [d.text, globalName g])
  | luiHi d g => line "lui" (commas [d.text, "%hi(" ++ globalName g ++ ")"])
  | lwLo d g b => line "lw" (commas [d.text, atOffset ("%lo(" ++ globalName g ++ ")") b])
  | lw d off b => line "lw" (commas [d.text, atOffset (Text.decimal off) b])
  | sw x off b => line "sw" (commas [x.text, atOffset (Text.decimal off) b])
  | branch rel l r lab => line (branchText rel) (commas [l.text, r.text, labelName lab])
  | j l => line "j" (labelName l)
  | label l => labelName l ++ ":\n"
  | call f => line "call" f
  | ret => bareLine "ret"
  | comment t => "  # " ++ t ++ "\n"

/-- The text of instructions. -/
def instsText (is : List Inst) : String := String.join (is.map Inst.text)

/-- The lines of an abstract instruction. -/
def instrText (stack : Int) (x : Instr) : Except EmitError String := (instr stack x).map instsText

/-- The declaration of a global. -/
def global (g : GlobalVar) : String :=
  let v := globalName g.index
  if g.array then line ".comm" (commas [v, Text.decimal (wrap64 (4 * g.words)), "4"])
  else
    line ".global" v ++ line ".section" ".sdata" ++ line ".align" "2" ++
      line ".type" (commas [v, "@object"]) ++ line ".size" (commas [v, "4"]) ++
      v ++ ":\n" ++ line ".word" (Text.decimal g.init)

/-- The directives and the entry code of a function. -/
def header (f : CodeFunc) : String :=
  bareLine ".text" ++ line ".align" "2" ++ line ".global" f.name ++
    line ".type" (commas [f.name, "@function"]) ++ f.name ++ ":\n" ++
    instsText (.sw .ra (-4) .sp :: moveSp (wrap64 (-(frameBytes f.stack))))

/-- A function after what is already written. -/
def func (out : String) (f : CodeFunc) : Emission :=
  match emitAll (instrText f.stack) f.name (out ++ header f) f.body with
  | { text, error := none } =>
    { text := text ++ line ".size" (commas [f.name, ".-" ++ f.name]) }
  | failed => failed

/-- The assembly of a program. -/
def text (c : Code) : Emission := emitFuncs func (String.join (c.globals.map global)) c.funcs

end Tac.Riscv
