import Std.Data.TreeMap
import Tac.Arithmetic
import Tac.Code

/-!
# The abstract machine

The machine has 28 registers, a memory of words addressed in bytes and a stack pointer.  Address
zero is unused; the globals follow, and the rest is stack, which grows downward.  Functions that the
program does not define are those of the environment: input, output and timing.

This module gives the machine and the effect of one instruction that is not a call.  An instruction
can *trap*, which is an error of the running program, or meet a *fault*: code that no compiler makes,
such as an unknown register or a negative shift.
-/

namespace Tac

/-- Why a program stopped with an error. -/
inductive TrapCause where
  | stepLimit
  | depthLimit
  | stackOverflow
  | noReturn (func : String)
  | undefinedFunction (name : String)
  | inputExhausted
  | badAddress (addr : Word)
  | divisionByZero
  | unsupportedOperator (op : BinOp)
  | immediateOutOfRange (n : Int)
  | offsetOutOfRange (n : Int)
  | noLabel (label : Int)
  | noGlobal (global : Int)
  /-- A cause inside a function of the environment. -/
  | within (name : String) (cause : TrapCause)
deriving DecidableEq, Repr

/-- The wording of a cause. -/
def TrapCause.text : TrapCause → String
  | stepLimit => "step limit exceeded"
  | depthLimit => "call depth limit exceeded"
  | stackOverflow => "stack overflow"
  | noReturn f => "function " ++ f ++ " has no return"
  | undefinedFunction f => "undefined function: " ++ f
  | inputExhausted => "input exhausted"
  | badAddress a => "bad address: " ++ Text.signedHex a.toInt
  | divisionByZero => "division by zero"
  | unsupportedOperator op => "unsupported operator: " ++ op.text
  | immediateOutOfRange n => "immediate out of range: " ++ Text.decimal n
  | offsetOutOfRange n => "offset out of range: " ++ Text.decimal n
  | noLabel l => "no label l" ++ Text.decimal l
  | noGlobal g => "no global v" ++ Text.decimal g
  | within f c => f ++ ": " ++ c.text

/-- The values of the registers. -/
abbrev RegFile := Vector Word Reg.count

/-- Memory by word.  Words that were never written are zero. -/
structure Memory where
  /-- The number of words. -/
  size : Nat
  written : Std.TreeMap Nat Word := {}

namespace Memory

/-- The word at a position. -/
def get (m : Memory) (i : Nat) : Word := m.written.getD i 0

/-- Writes the word at a position. -/
def set (m : Memory) (i : Nat) (x : Word) : Memory := { m with written := m.written.insert i x }

/-- A written word reads back, and all others stay. -/
theorem get_set (m : Memory) (i j : Nat) (x : Word) :
    (m.set i x).get j = if i = j then x else m.get j := by
  simp [get, set, Std.TreeMap.getD_insert, Std.LawfulEqCmp.compare_eq_iff_eq]

/-- Writing keeps the size. -/
@[simp]
theorem size_set (m : Memory) (i : Nat) (x : Word) : (m.set i x).size = m.size := rfl

end Memory

/-- The state of the machine. -/
structure Machine where
  regs : RegFile
  mem : Memory
  /-- The stack pointer, a byte address. -/
  sp : Word
  /-- Active calls. -/
  depth : Nat := 0
  /-- Instructions run so far. -/
  steps : Nat := 0
  /-- Numbers waiting to be read. -/
  input : List Word := []
  /-- Bytes written so far. -/
  output : Array UInt8 := #[]

/-- A function ready to run. -/
structure LoadedFunc where
  name : String
  body : Array Instr
  /-- The place of each label; of several definitions the last counts. -/
  labels : Std.TreeMap Int Nat
  /-- The frame size in bytes. -/
  frame : Word

/-- A program ready to run. -/
structure Image where
  funcs : Std.TreeMap String LoadedFunc
  /-- The byte address of each global. -/
  globals : Std.TreeMap Int Word
  /-- The lowest address of the stack. -/
  stackBase : Word

namespace Image

/-- The words of the stack. -/
def stackWords : Nat := 262144

/-- The places of labels in code. -/
def labelTable (body : List Instr) : Std.TreeMap Int Nat :=
  body.zipIdx.foldl (fun m (x, i) => match x with | .label l => m.insert l i | _ => m) {}

/-- A function ready to run. -/
def loadFunc (f : CodeFunc) : LoadedFunc where
  name := f.name
  body := f.body.toArray
  labels := labelTable f.body
  frame := word (frameBytes f.stack)

/-- The words that a global takes; at least one. -/
def globalWords (g : GlobalVar) : Nat := max g.words.toNat 1

/-- Addresses of globals laid out from word `next` on, and the first word after them. -/
def layout (next : Nat) (addrs : Std.TreeMap Int Word) : List GlobalVar → Std.TreeMap Int Word × Nat
  | [] => (addrs, next)
  | g :: gs => layout (next + globalWords g) (addrs.insert g.index (word (4 * next))) gs

/-- The addresses of the globals and the number of words below the stack. -/
def globalLayout (c : Code) : Std.TreeMap Int Word × Nat := layout 1 {} c.globals

/-- A program ready to run. -/
def ofCode (c : Code) : Image where
  funcs := c.funcs.foldl (fun m f => m.insert f.name (loadFunc f)) {}
  globals := (globalLayout c).1
  stackBase := word (4 * (globalLayout c).2)

end Image

namespace Machine

/-- The value that destroyed registers hold after a call of the environment. -/
def poison : Word := -559038737

/-- The most words that a memory can have: the bytes of the address space, four to a word. -/
def maxWords : Int := 70368744177664

/-- The memory of a program before its initial values are written; none if it cannot be so
large. -/
def blankMemory? (c : Code) : Option Memory :=
  let size := wrap64 ((Image.globalLayout c).2 + Image.stackWords : Nat)
  if 0 ≤ size ∧ size ≤ maxWords then some { size := size.toNat } else none

/-- Writes the initial value of a scalar global.  Addresses have 32 bits, so behind a very large
array there is no word for it. -/
def initGlobal? (addrs : Std.TreeMap Int Word) (mem : Memory) (g : GlobalVar) : Option Memory :=
  let i := Int.tdiv (addrs.getD g.index 0).toInt 4
  if g.array then some mem
  else if 0 ≤ i ∧ i < mem.size then some (mem.set i.toNat (word g.init))
  else none

/-- Memory with the initial values of scalar globals. -/
def initialMemory? (c : Code) : Option Memory := do
  c.globals.foldlM (initGlobal? (Image.globalLayout c).1) (← blankMemory? c)

/-- The machine before the first call; none if the program does not fit its memory. -/
def ofCode? (c : Code) (input : List Word) : Option Machine := do
  let mem ← initialMemory? c
  pure { regs := Vector.replicate Reg.count 0, mem, sp := word (4 * mem.size), input }

/-- The register of the first argument and of the result. -/
def resultReg : Fin Reg.count := ⟨8, by decide⟩

/-- The value of a register. -/
def reg (m : Machine) (r : Fin Reg.count) : Word := m.regs.get r

/-- Writes a register. -/
def setReg (m : Machine) (r : Fin Reg.count) (x : Word) : Machine :=
  { m with regs := m.regs.set r x r.isLt }

/-- Makes `x0` read zero again. -/
def resetZero (m : Machine) : Machine := m.setReg ⟨0, by decide⟩ 0

/-- The memory word behind a byte address. -/
def wordIndex? (m : Machine) (addr : Word) : Option Nat :=
  let a := addr.toInt
  if a < 4 ∨ a % 4 ≠ 0 ∨ (m.mem.size : Int) ≤ a / 4 then none else some (a / 4).toNat

/-- Reads memory. -/
def load (m : Machine) (addr : Word) : Except TrapCause Word :=
  match m.wordIndex? addr with
  | some i => .ok (m.mem.get i)
  | none => .error (.badAddress addr)

/-- Writes memory. -/
def store (m : Machine) (addr x : Word) : Except TrapCause Machine :=
  match m.wordIndex? addr with
  | some i => .ok { m with mem := m.mem.set i x }
  | none => .error (.badAddress addr)

/-! ## Operators -/

/-- A binary operator on words. -/
def binary (op : BinOp) (x y : Word) : Except TrapCause Word :=
  match op with
  | .add => .ok (x + y)
  | .sub => .ok (x - y)
  | .mul => .ok (x * y)
  | .div => if y = 0 then .error .divisionByZero else .ok (x / y)
  | .mod => if y = 0 then .error .divisionByZero else .ok (x % y)
  | .cmp rel => .ok (Word.ofBool (rel.holds x y))
  | .and | .or => .error (.unsupportedOperator op)

/-- A unary operator on a word. -/
def unary (op : UnOp) (x : Word) : Word :=
  match op with
  | .plus => x
  | .neg => -x
  | .not => Word.ofBool (x == 0)

/-- A shift by any amount that is not negative; none for unknown shifts. -/
def shift? (kind : ShiftKind) (x : Word) (n : Int) : Option Word :=
  if n < 0 then none
  else match kind with
    | .left => some (if n < 32 then x <<< word n else 0)
    | .arithRight => some (if n < 32 then x >>> word n else if x < 0 then -1 else 0)
    | .logicRight =>
      some (if n < 32 then (x.toUInt32 >>> UInt32.ofNat n.toNat).toInt32 else 0)
    | .other _ => none

/-- Division by a power of two, rounding toward zero; none if the power is no nonzero word. -/
def divPow2? (x : Word) (n : Int) : Option Word :=
  if 0 ≤ n ∧ n < 32 then some (x / word (Nat.pow 2 n.toNat)) else none

/-! ## One instruction -/

/-- Where control goes after an instruction. -/
inductive Control where
  | next
  | goto (pc : Nat)
  | call (func : String)
  | ret

/-- The outcome of an instruction. -/
inductive Exec where
  | ok (m : Machine) (go : Control)
  | trap (m : Machine) (cause : TrapCause)
  | fault (m : Machine)

/-- Writes the outcome of a computation; a failed one writes zero and traps. -/
def finish (m : Machine) (out : Fin Reg.count) : Except TrapCause Word → Exec
  | .ok x => .ok (m.setReg out x) .next
  | .error c => .trap (m.setReg out 0) c

/-- Jumps to a label. -/
def jump (m : Machine) (f : LoadedFunc) (label : Int) : Exec :=
  match f.labels[label]? with
  | some pc => .ok m (.goto pc)
  | none => .trap m (.noLabel label)

/-- The address of a stack slot. -/
def slotAddr (m : Machine) (slot : Int) : Word := m.sp + word (4 * slot)

/-- Writes a value that needs one source register. -/
def map1 (m : Machine) (out x : Reg) (f : Word → Option Word) : Exec :=
  match out.index?, x.index? with
  | some o, some i =>
    match f (m.reg i) with
    | some v => .ok (m.setReg o v) .next
    | none => .fault m
  | _, _ => .fault m

/-- Writes a value to a register. -/
def put (m : Machine) (out : Reg) (x : Word) : Exec :=
  match out.index? with
  | some o => .ok (m.setReg o x) .next
  | none => .fault m

/-- Reads memory into a register. -/
def fetch (m : Machine) (out : Reg) (addr : Word) : Exec :=
  match out.index? with
  | some o => finish m o (m.load addr)
  | none => .fault m

/-- Writes a register to memory. -/
def save (m : Machine) (addr : Word) (x : Reg) : Exec :=
  match x.index? with
  | some i =>
    match m.wordIndex? addr with
    | some k =>
      let v := m.reg i
      .ok { m with mem := m.mem.set k v } .next
    | none => .trap m (.badAddress addr)
  | none => .fault m

/-- The effect of an instruction; calls and returns are left to the caller. -/
def exec (im : Image) (f : LoadedFunc) (m : Machine) : Instr → Exec
  | .binary o op l r =>
    match o.index?, l.index?, r.index? with
    | some o, some l, some r => finish m o (binary op (m.reg l) (m.reg r))
    | _, _, _ => .fault m
  | .unary o op x => map1 m o x fun v => some (unary op v)
  | .move o x => map1 m o x some
  | .imm o v => put m o (word v)
  | .addImm o x v =>
    if immOverflows v then .trap m (.immediateOutOfRange v)
    else map1 m o x fun y => some (y + word v)
  | .shift o x k n => map1 m o x fun v => shift? k v n
  | .divPow2 o x n => map1 m o x fun v => divPow2? v n
  | .store b off x =>
    if immOverflows off then .trap m (.offsetOutOfRange off)
    else match b.index? with
      | some b => save m (m.reg b + word off) x
      | none => .fault m
  | .load o b off =>
    if immOverflows off then .trap m (.offsetOutOfRange off)
    else match b.index? with
      | some b => fetch m o (m.reg b + word off)
      | none => .fault m
  | .branch l r rel label =>
    match l.index?, r.index? with
    | some l, some r => if rel.holds (m.reg l) (m.reg r) then jump m f label else .ok m .next
    | _, _ => .fault m
  | .jump label => jump m f label
  | .label _ | .comment _ => .ok m .next
  | .call g => .ok m (.call g)
  | .ret => .ok m .ret
  | .storeStack x s => save m (m.slotAddr s) x
  | .loadStack o s => fetch m o (m.slotAddr s)
  | .addrStack o s => put m o (m.slotAddr s)
  | .loadGlobal o g =>
    match im.globals[g]? with
    | some a => fetch m o a
    | none => .trap m (.noGlobal g)
  | .addrGlobal o g =>
    match im.globals[g]? with
    | some a => put m o a
    | none => .trap m (.noGlobal g)

/-! ## Functions of the environment -/

/-- The machine with one number read. -/
def read (m : Machine) : Except TrapCause (Word × Machine) :=
  match m.input with
  | [] => .error .inputExhausted
  | x :: rest => .ok (x, { m with input := rest })

/-- The machine with a text written. -/
def write (m : Machine) (s : String) : Machine :=
  { m with output := m.output ++ s.toUTF8.data }

/-- Reads `count` numbers into memory, element `i` next; `xs` are the numbers left to read. -/
def readArray (base : Word) (count : Int) (m : Machine) (i : Int) :
    List Word → Machine × Option TrapCause
  | [] => if i < count then (m, some .inputExhausted) else (m, none)
  | x :: xs =>
    if i < count then
      let m := { m with input := xs }
      match m.wordIndex? (base + 4 * word i) with
      | some k => readArray base count { m with mem := m.mem.set k x } (i + 1) xs
      | none => (m, some (.badAddress (base + 4 * word i)))
    else (m, none)

/-- Writes `left` words of memory from element `i` on.  A word that cannot be read is written as
zero and ends the list. -/
def writeArray (base : Word) (m : Machine) (i : Int) : Nat → Machine × Option TrapCause
  | 0 => (m, none)
  | left + 1 =>
    match m.load (base + 4 * word i) with
    | .ok x => writeArray base (m.write (" " ++ Text.decimal x.toInt)) (i + 1) left
    | .error c => (m.write " 0", some c)

/-- The registers after a call of the environment: all destroyed but for the result. -/
def afterRuntime (m : Machine) (result : Word) : Machine :=
  let regs := Vector.ofFn fun (i : Fin Reg.count) =>
    if i.val = 0 then m.reg i else if i.val = 8 then result else poison
  { m with regs }

/-- The first two arguments of a call. -/
def runtimeArgs (m : Machine) : Word × Word := (m.reg resultReg, m.reg ⟨9, by decide⟩)

/-- A call of the environment. -/
def runtime (m : Machine) (name : String) : Machine × Option TrapCause :=
  let (a0, a1) := m.runtimeArgs
  let finish (m : Machine) (result : Word) (e : Option TrapCause) : Machine × Option TrapCause :=
    match e with
    | none => (m.afterRuntime result, none)
    | some c => (m, some (.within name c))
  if name = "getint" ∨ name = "getch" then
    match m.read with
    | .ok (x, m) => finish m x none
    | .error c => finish m 0 (some c)
  else if name = "getarray" then
    match m.read with
    | .error c => (m, some c)
    | .ok (n, m) =>
      let (m, e) := readArray a0 n.toInt m 0 m.input
      finish m n e
  else if name = "putint" then finish (m.write (Text.decimal a0.toInt)) 0 none
  else if name = "putch" then finish { m with output := m.output.push a0.toUInt32.toUInt8 } 0 none
  else if name = "putarray" then
    let (m, e) := writeArray a1 (m.write (Text.decimal a0.toInt ++ ":")) 0 a0.toInt.toNat
    finish (m.write "\n") 0 e
  else if name = "_sysy_starttime" ∨ name = "_sysy_stoptime" then finish m 0 none
  else (m, some (.undefinedFunction name))

end Machine

end Tac
