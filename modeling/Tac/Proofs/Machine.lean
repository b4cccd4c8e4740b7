import Mathlib
import Tac.Machine.Run
import Tac.Proofs.RegSet

/-!
# Running code

Proofs about code see the machine through the values of its registers by name (`val`), its memory
and its stack pointer.  Most code is a straight line: each instruction writes one register or one
word of memory and goes on.

* **`line?`** — a straight line run on its own, without places and without the bound on steps.
* **`Writes`, `Stores`** — the two effects of straight lines, with one lemma for each instruction;
  what they leave alone is in **`Keeps`**.
* **`Does`** — the outcomes an instruction can have; `does_exec` is the only place that goes through
  all instructions for what they leave alone and how they fail.
* **`Reaches`** — the machine gets from one place of a function to another, whatever the bounds, the
  calls around it and the steps still to come, as long as the bound on steps allows, and without
  reaching out of the function (`Stays`).
  `reaches_line` is how straight lines enter.
-/

namespace Tac

/-- The register that an instruction writes. -/
def Instr.out? : Instr → Option Reg
  | .binary o _ _ _ | .unary o _ _ | .move o _ | .imm o _ | .addImm o _ _ | .shift o _ _ _
  | .divPow2 o _ _ | .load o _ _ | .loadStack o _ | .loadGlobal o _ | .addrStack o _
  | .addrGlobal o _ => some o
  | .store .. | .branch .. | .jump _ | .label _ | .call _ | .ret | .storeStack .. | .comment _ =>
    none

/-- The errors that end an instruction by itself.  None is about the stack, and one about a range
needs a value that is out of it. -/
inductive Instr.Raises : Instr → TrapCause → Prop
  | division (o : Reg) (op : BinOp) (l r : Reg) : Raises (.binary o op l r) .divisionByZero
  | operator (o : Reg) (op : BinOp) (l r : Reg) : Raises (.binary o op l r) (.unsupportedOperator op)
  | immediate (o x : Reg) {v : Int} (h : immOverflows v = true) :
    Raises (.addImm o x v) (.immediateOutOfRange v)
  | storeOffset (b x : Reg) {off : Int} (h : immOverflows off = true) :
    Raises (.store b off x) (.offsetOutOfRange off)
  | loadOffset (o b : Reg) {off : Int} (h : immOverflows off = true) :
    Raises (.load o b off) (.offsetOutOfRange off)
  | address (x : Instr) (a : Word) : Raises x (.badAddress a)
  | label (x : Instr) (l : Int) : Raises x (.noLabel l)
  | global (x : Instr) (g : Int) : Raises x (.noGlobal g)

end Tac

namespace Tac.Machine

/-! ## The view of a machine -/

/-- The value of a register by name. -/
def val (m : Machine) (r : Reg) : Word :=
  match r.index? with
  | some i => m.reg i
  | none => 0

/-- The machine with one more step counted. -/
def tick (m : Machine) : Machine := { m with steps := m.steps + 1 }

@[simp] theorem val_tick (m : Machine) (r : Reg) : m.tick.val r = m.val r := rfl

@[simp] theorem mem_tick (m : Machine) : m.tick.mem = m.mem := rfl

/-- By its name a register is what is at its index. -/
theorem val_of_index {m : Machine} {r : Reg} {i : Fin Reg.count} (h : r.index? = some i) :
    m.val r = m.reg i := by
  rw [val, h]

/-- Registers by index: only the one that is set changes. -/
theorem reg_setReg (m : Machine) (i j : Fin Reg.count) (x : Word) :
    (m.setReg i x).reg j = if i = j then x else m.reg j := by
  simp only [reg, setReg, Vector.get_eq_getElem, Vector.getElem_set, Fin.ext_iff]

/-- Registers with one index are the same register. -/
theorem index?_injective {r q : Reg} {i : Fin Reg.count} (hr : r.index? = some i)
    (hq : q.index? = some i) : r = q := by
  have hnum : ∀ {p : Reg}, p.index? = some i → p.num = (i.val : Int) := by
    intro p hp
    unfold Reg.index? at hp
    split at hp
    · next hrange =>
      cases hp
      simp only
      omega
    · cases hp
  exact Reg.ext_num ((hnum hr).trans (hnum hq).symm)

/-- Registers by name: only the one that is set changes. -/
theorem val_setReg {m : Machine} {r q : Reg} {i : Fin Reg.count} (hr : r.index? = some i)
    (hq : q.Valid) (x : Word) : (m.setReg i x).val q = if q = r then x else m.val q := by
  obtain ⟨j, hj, _⟩ := Reg.index?_of_valid hq
  rw [val_of_index hj, val_of_index hj, reg_setReg]
  by_cases h : q = r
  · subst h
    rw [hj] at hr
    rw [if_pos rfl, if_pos (Option.some.inj hr).symm]
  · rw [if_neg h, if_neg]
    -- two registers with one index are the same
    rintro rfl
    exact h (index?_injective hj hr)

theorem index?_x0 : Reg.x0.index? = some ⟨0, by decide⟩ := by decide

/-- Resetting the zero register changes no other register. -/
theorem val_resetZero (m : Machine) {q : Reg} (hq : q.Valid) :
    m.resetZero.val q = if q = Reg.x0 then 0 else m.val q :=
  val_setReg index?_x0 hq 0

/-! ## Effects -/

/-- Everything but memory words and the registers `touched` is as before. -/
structure Keeps (touched : Reg → Prop) (m m' : Machine) : Prop where
  val : ∀ q, q.Valid → ¬ touched q → m'.val q = m.val q
  sp : m'.sp = m.sp
  size : m'.mem.size = m.mem.size
  depth : m'.depth = m.depth
  input : m'.input = m.input
  output : m'.output = m.output

theorem Keeps.refl (touched : Reg → Prop) (m : Machine) : Keeps touched m m :=
  ⟨fun _ _ _ => rfl, rfl, rfl, rfl, rfl, rfl⟩

/-- What two steps keep is kept by both together. -/
theorem Keeps.trans {touched : Reg → Prop} {m m₁ m₂ : Machine} (h₁ : Keeps touched m m₁)
    (h₂ : Keeps touched m₁ m₂) : Keeps touched m m₂ :=
  ⟨fun q hq hn => (h₂.val q hq hn).trans (h₁.val q hq hn), h₂.sp.trans h₁.sp,
    h₂.size.trans h₁.size, h₂.depth.trans h₁.depth, h₂.input.trans h₁.input,
    h₂.output.trans h₁.output⟩

theorem Keeps.mono {touched touched' : Reg → Prop} {m m' : Machine} (h : Keeps touched m m')
    (hsub : ∀ q, touched q → touched' q) : Keeps touched' m m' :=
  ⟨fun q hq hn => h.val q hq fun ht => hn (hsub q ht), h.sp, h.size, h.depth, h.input, h.output⟩

/-- A straight line of instructions; none if one of them traps or goes elsewhere. -/
def line? (im : Image) (f : LoadedFunc) : Machine → List Instr → Option Machine
  | m, [] => some m
  | m, x :: xs =>
    match exec im f m.tick x with
    | .ok m .next => line? im f m.resetZero xs
    | _ => none

/-- A line of code behind another one runs behind it. -/
theorem line?_append (im : Image) (f : LoadedFunc) (xs ys : List Instr) (m : Machine) :
    line? im f m (xs ++ ys) = (line? im f m xs).bind fun m => line? im f m ys := by
  -- On the first line, for any machine that it starts from.
  induction xs generalizing m with
  | nil => rfl
  | cons x xs ih =>
    rw [List.cons_append, line?, line?]
    cases exec im f m.tick x with
    | ok m go =>
      -- only the first kind of control stays on the line
      cases go with
      | next => exact ih _
      | goto | call | ret => rfl
    | trap m c => rfl
    | fault m => rfl

/-- Two lines that run to their ends, one behind the other. -/
theorem line?_append_of {im : Image} {f : LoadedFunc} {xs ys : List Instr} {m m₁ m₂ : Machine}
    (h₁ : line? im f m xs = some m₁) (h₂ : line? im f m₁ ys = some m₂) :
    line? im f m (xs ++ ys) = some m₂ := by
  rw [line?_append, h₁]
  exact h₂

/-- The code leaves `x` in register `r` and changes nothing else. -/
def Writes (im : Image) (f : LoadedFunc) (m : Machine) (code : List Instr) (r : Reg) (x : Word) :
    Prop :=
  ∃ m', line? im f m code = some m' ∧ m'.val r = x ∧ m'.mem = m.mem ∧ Keeps (· = r) m m'

/-- The code leaves `x` in word `k` of memory and changes nothing else. -/
def Stores (im : Image) (f : LoadedFunc) (m : Machine) (code : List Instr) (k : Nat) (x : Word) :
    Prop :=
  ∃ m', line? im f m code = some m' ∧ m'.mem = m.mem.set k x ∧ Keeps (fun _ => False) m m'

section Instructions

variable {im : Image} {f : LoadedFunc} {m : Machine}

/-- An instruction that writes one register. -/
theorem writes_of_exec {x : Instr} {r : Reg} {i : Fin Reg.count} {w : Word}
    (hz : m.val Reg.x0 = 0) (hi : r.index? = some i) (hne : r ≠ Reg.x0)
    (h : exec im f m.tick x = .ok (m.tick.setReg i w) .next) : Writes im f m [x] r w := by
  have hr : r.Valid := by
    unfold Reg.index? at hi
    split at hi
    · next hv => exact hv
    · cases hi
  refine ⟨(m.tick.setReg i w).resetZero, ?_, ?_, rfl, ⟨fun q hq hn => ?_, rfl, rfl, rfl, rfl, rfl⟩⟩
  · rw [line?, h]
    rfl
  · rw [val_resetZero _ hr, if_neg hne, val_setReg hi hr, if_pos rfl]
  · -- `x0` is reset after every instruction, to what it was
    rw [val_resetZero _ hq, val_setReg hi hq, if_neg hn]
    split
    · next h0 => rw [h0, hz]
    · rfl

/-- An instruction that writes one word of memory. -/
theorem stores_of_exec {x : Instr} {k : Nat} {w : Word} (hz : m.val Reg.x0 = 0)
    (h : exec im f m.tick x = .ok { m.tick with mem := m.mem.set k w } .next) :
    Stores im f m [x] k w := by
  refine ⟨({ m.tick with mem := m.mem.set k w } : Machine).resetZero, ?_, rfl,
    ⟨fun q hq _ => ?_, rfl, rfl, rfl, rfl, rfl⟩⟩
  · rw [line?, h]
    rfl
  · rw [val_resetZero _ hq]
    split
    · next h0 => rw [h0, hz]
    · rfl

variable {d x y : Reg} (hz : m.val Reg.x0 = 0) (hd : d.Valid) (hd0 : d ≠ Reg.x0)

include hz hd hd0

/-- Loading a constant writes its word. -/
theorem writes_imm (n : Int) : Writes im f m [.imm d n] d (word n) := by
  obtain ⟨i, hi, _⟩ := Reg.index?_of_valid hd
  exact writes_of_exec hz hi hd0 (by simp only [exec, put, hi])

/-- An instruction that applies a function to one register writes the result, if there is
one. -/
theorem writes_map1 {instr : Instr} {g : Word → Option Word} {w : Word} (hx : x.Valid)
    (hexec : exec im f m.tick instr = map1 m.tick d x g) (hg : g (m.val x) = some w) :
    Writes im f m [instr] d w := by
  obtain ⟨i, hi, _⟩ := Reg.index?_of_valid hd
  obtain ⟨j, hj, _⟩ := Reg.index?_of_valid hx
  refine writes_of_exec hz hi hd0 ?_
  rw [val_of_index hj] at hg
  rw [hexec, map1, hi, hj]
  simp only
  rw [show m.tick.reg j = m.reg j from rfl, hg]

theorem writes_move (hx : x.Valid) : Writes im f m [.move d x] d (m.val x) :=
  writes_map1 hz hd hd0 hx rfl rfl

theorem writes_unary (op : UnOp) (hx : x.Valid) :
    Writes im f m [.unary d op x] d (unary op (m.val x)) :=
  writes_map1 hz hd hd0 (g := fun v => some (unary op v)) hx rfl rfl

theorem writes_addImm {n : Int} (hn : immOverflows n = false) (hx : x.Valid) :
    Writes im f m [.addImm d x n] d (m.val x + word n) :=
  writes_map1 hz hd hd0 (g := fun y => some (y + word n)) hx (by simp [exec, hn]) rfl

/-- A shift by an amount that there is writes the shifted value. -/
theorem writes_shift {k : ShiftKind} {n : Int} {w : Word} (hx : x.Valid)
    (hw : shift? k (m.val x) n = some w) : Writes im f m [.shift d x k n] d w :=
  writes_map1 hz hd hd0 (g := fun v => shift? k v n) hx rfl hw

/-- A division by a power of two writes the quotient. -/
theorem writes_divPow2 {n : Int} {w : Word} (hx : x.Valid)
    (hw : divPow2? (m.val x) n = some w) : Writes im f m [.divPow2 d x n] d w :=
  writes_map1 hz hd hd0 (g := fun v => divPow2? v n) hx rfl hw

/-- An operation that has a result writes it. -/
theorem writes_binary {op : BinOp} {w : Word} (hx : x.Valid) (hy : y.Valid)
    (hw : binary op (m.val x) (m.val y) = .ok w) : Writes im f m [.binary d op x y] d w := by
  obtain ⟨i, hi, _⟩ := Reg.index?_of_valid hd
  obtain ⟨j, hj, _⟩ := Reg.index?_of_valid hx
  obtain ⟨k, hk, _⟩ := Reg.index?_of_valid hy
  refine writes_of_exec hz hi hd0 ?_
  rw [val_of_index hj, val_of_index hk] at hw
  simp only [exec, hi, hj, hk]
  rw [show m.tick.reg j = m.reg j from rfl, show m.tick.reg k = m.reg k from rfl, hw]
  rfl

/-- An instruction that fetches a word of memory writes that word. -/
theorem writes_fetch {instr : Instr} {a : Word} {k : Nat}
    (hexec : exec im f m.tick instr = fetch m.tick d a) (hk : m.wordIndex? a = some k) :
    Writes im f m [instr] d (m.mem.get k) := by
  obtain ⟨i, hi, _⟩ := Reg.index?_of_valid hd
  refine writes_of_exec hz hi hd0 ?_
  have hk' : m.tick.wordIndex? a = some k := hk
  rw [hexec, fetch, hi]
  simp only [load, hk']
  rfl

/-- A load reads the word at its base and an offset that fits into an immediate. -/
theorem writes_load {off : Int} {k : Nat} (hoff : immOverflows off = false) (hx : x.Valid)
    (hk : m.wordIndex? (m.val x + word off) = some k) :
    Writes im f m [.load d x off] d (m.mem.get k) := by
  obtain ⟨j, hj, _⟩ := Reg.index?_of_valid hx
  rw [val_of_index hj] at hk
  refine writes_fetch hz hd hd0 ?_ hk
  simp only [exec, hoff, hj]
  rfl

/-- A load from a slot of the frame reads the word at its address. -/
theorem writes_loadStack {s : Int} {k : Nat} (hk : m.wordIndex? (m.slotAddr s) = some k) :
    Writes im f m [.loadStack d s] d (m.mem.get k) :=
  writes_fetch hz hd hd0 rfl hk

theorem writes_addrStack (s : Int) : Writes im f m [.addrStack d s] d (m.slotAddr s) := by
  obtain ⟨i, hi, _⟩ := Reg.index?_of_valid hd
  exact writes_of_exec hz hi hd0 (by simp only [exec, put, hi]; rfl)

/-- A load of a global reads the word at its address. -/
theorem writes_loadGlobal {g : Int} {a : Word} {k : Nat} (hg : im.globals[g]? = some a)
    (hk : m.wordIndex? a = some k) : Writes im f m [.loadGlobal d g] d (m.mem.get k) :=
  writes_fetch hz hd hd0 (by simp only [exec, hg]) hk

/-- The address of a global is written to the register. -/
theorem writes_addrGlobal {g : Int} {a : Word} (hg : im.globals[g]? = some a) :
    Writes im f m [.addrGlobal d g] d a := by
  obtain ⟨i, hi, _⟩ := Reg.index?_of_valid hd
  exact writes_of_exec hz hi hd0 (by simp only [exec, hg, put, hi])

omit hd hd0

/-- An instruction that saves a register writes its value to one word of memory. -/
theorem stores_save {instr : Instr} {a : Word} {k : Nat}
    (hexec : exec im f m.tick instr = save m.tick a x) (hx : x.Valid)
    (hk : m.wordIndex? a = some k) : Stores im f m [instr] k (m.val x) := by
  obtain ⟨j, hj, _⟩ := Reg.index?_of_valid hx
  refine stores_of_exec hz ?_
  have hk' : m.tick.wordIndex? a = some k := hk
  rw [hexec, save, hj, val_of_index hj]
  simp only [hk']
  rfl

/-- A store writes the word at its base and an offset that fits into an immediate. -/
theorem stores_store {off : Int} {k : Nat} (hoff : immOverflows off = false) (hx : x.Valid)
    (hy : y.Valid) (hk : m.wordIndex? (m.val x + word off) = some k) :
    Stores im f m [.store x off y] k (m.val y) := by
  obtain ⟨j, hj, _⟩ := Reg.index?_of_valid hx
  rw [val_of_index hj] at hk
  refine stores_save hz ?_ hy hk
  simp only [exec, hoff, hj]
  rfl

/-- A store to a slot of the frame writes the word at its address. -/
theorem stores_storeStack {s : Int} {k : Nat} (hx : x.Valid)
    (hk : m.wordIndex? (m.slotAddr s) = some k) : Stores im f m [.storeStack x s] k (m.val x) :=
  stores_save hz rfl hx hk

end Instructions

/-! ## Places -/

/-- The code stands in the function from place `pc` on. -/
def CodeAt (f : LoadedFunc) (pc : Nat) (code : List Instr) : Prop :=
  ∀ k, k < code.length → f.body[pc + k]? = code[k]?

/-- The beginning of code stands where the code stands. -/
theorem CodeAt.left {f : LoadedFunc} {pc : Nat} {xs ys : List Instr}
    (h : CodeAt f pc (xs ++ ys)) : CodeAt f pc xs := by
  intro k hk
  rw [h k (by rw [List.length_append]; omega), List.getElem?_append_left hk]

/-- The end of code stands behind its beginning. -/
theorem CodeAt.right {f : LoadedFunc} {pc : Nat} {xs ys : List Instr}
    (h : CodeAt f pc (xs ++ ys)) : CodeAt f (pc + xs.length) ys := by
  intro k hk
  have := h (xs.length + k) (by rw [List.length_append]; omega)
  rw [List.getElem?_append_right (by omega), Nat.add_sub_cancel_left] at this
  rw [add_assoc, this]

/-- The first instruction stands at the place itself. -/
theorem CodeAt.head {f : LoadedFunc} {pc : Nat} {x : Instr} {xs : List Instr}
    (h : CodeAt f pc (x :: xs)) : f.body[pc]? = some x := by
  have := h 0 (Nat.succ_pos _)
  simpa using this

/-- The other instructions stand one place later. -/
theorem CodeAt.tail {f : LoadedFunc} {pc : Nat} {x : Instr} {xs : List Instr}
    (h : CodeAt f pc (x :: xs)) : CodeAt f (pc + 1) xs :=
  CodeAt.right (show CodeAt f pc ([x] ++ xs) from h)

/-! ## What an instruction can do -/

/-- The outcomes of an instruction: it writes one register or one word of memory, moves control, or
ends with an error of its own and at most one register changed. -/
inductive Does (f : LoadedFunc) (m : Machine) : Instr → Exec → Prop
  | wrote {x : Instr} {d : Reg} {i : Fin Reg.count} (hd : x.out? = some d)
    (hi : d.index? = some i) (w : Word) : Does f m x (.ok (m.setReg i w) .next)
  | stored (x : Instr) {a : Word} {k : Nat} (hk : m.wordIndex? a = some k) (w : Word) :
    Does f m x (.ok { m with mem := m.mem.set k w } .next)
  | passed (x : Instr) : Does f m x (.ok m .next)
  | jumped (x : Instr) {l : Int} {pc : Nat} (hpc : f.labels[l]? = some pc) :
    Does f m x (.ok m (.goto pc))
  | called (g : String) : Does f m (.call g) (.ok m (.call g))
  | returned : Does f m .ret (.ok m .ret)
  | failed {x : Instr} (i : Fin Reg.count) {c : TrapCause} (hc : x.Raises c) :
    Does f m x (.trap (m.setReg i 0) c)
  | refused {x : Instr} {c : TrapCause} (hc : x.Raises c) : Does f m x (.trap m c)
  | faulted (x : Instr) : Does f m x (.fault m)

section Outcomes

variable {f : LoadedFunc} {m : Machine} {x : Instr} {d : Reg}

/-- Finishing with a result or an error of the instruction. -/
theorem does_finish (hd : x.out? = some d) {i : Fin Reg.count} (hi : d.index? = some i)
    {e : Except TrapCause Word} (he : ∀ c, e = .error c → x.Raises c) :
    Does f m x (finish m i e) := by
  cases e with
  | ok w => exact .wrote hd hi w
  | error c => exact .failed i (he c rfl)

/-- Writing a word that is at hand. -/
theorem does_put (hd : x.out? = some d) (w : Word) : Does f m x (put m d w) := by
  unfold put
  split
  · next i hi => exact .wrote hd hi w
  · exact .faulted x

/-- Applying a function to one register. -/
theorem does_map1 (hd : x.out? = some d) (y : Reg) (g : Word → Option Word) :
    Does f m x (map1 m d y g) := by
  unfold map1
  split
  · next i j hi hj =>
    split
    · exact .wrote hd hi _
    · exact .faulted x
  · exact .faulted x

/-- Fetching a word from memory, which there may be or not. -/
theorem does_fetch (hd : x.out? = some d) (a : Word) : Does f m x (fetch m d a) := by
  unfold fetch
  split
  · next i hi =>
    refine does_finish hd hi fun c hc => ?_
    unfold load at hc
    split at hc
    · cases hc
    · cases hc
      exact .address x a
  · exact .faulted x

/-- Saving a register to memory, at an address that may be wrong. -/
theorem does_save (x : Instr) (a : Word) (y : Reg) : Does f m x (save m a y) := by
  unfold save
  split
  · split
    · next hk => exact .stored x hk _
    · exact .refused (.address x a)
  · exact .faulted x

/-- Jumping to a label, which there may be or not. -/
theorem does_jump (x : Instr) (l : Int) : Does f m x (jump m f l) := by
  unfold jump
  split
  · next hpc => exact .jumped x hpc
  · exact .refused (.label x l)

/-- The only errors of an operation are a division by zero and an operator that the
machine does not have. -/
theorem raises_of_binary {o l r : Reg} {op : BinOp} {y z : Word} {c : TrapCause}
    (h : binary op y z = .error c) : (Instr.binary o op l r).Raises c := by
  unfold binary at h
  split at h
  -- Only a division and a remainder look at the second operand, and only two operators are
  -- missing.
  case h_4 | h_5 =>
    split at h
    · cases h
      exact .division o _ l r
    · cases h
  case h_7 | h_8 =>
    cases h
    exact .operator o _ l r
  all_goals cases h

/-- **An instruction does one of these.** -/
theorem does_exec (im : Image) (f : LoadedFunc) (m : Machine) (x : Instr) :
    Does f m x (exec im f m x) := by
  -- On the instruction; each form ends in one of the helpers above, with its checks in front.
  cases x with
  | binary o op l r =>
    simp only [exec]
    split
    · next hi _ _ => exact does_finish rfl hi fun c => raises_of_binary
    · exact .faulted _
  | unary o op y | move o y | shift o y k n | divPow2 o y n =>
    rw [exec]
    exact does_map1 rfl ..
  | imm o v | addrStack o s => exact does_put rfl _
  | addImm o y v =>
    simp only [exec]
    split
    · next hover => exact .refused (.immediate o y hover)
    · exact does_map1 rfl ..
  | store b off y =>
    simp only [exec]
    split
    · next hover => exact .refused (.storeOffset b y hover)
    · split
      · exact does_save ..
      · exact .faulted _
  | load o b off =>
    simp only [exec]
    split
    · next hover => exact .refused (.loadOffset o b hover)
    · split
      · exact does_fetch rfl _
      · exact .faulted _
  | branch l r rel t =>
    simp only [exec]
    split
    · split
      · exact does_jump ..
      · exact .passed _
    · exact .faulted _
  | jump l => exact does_jump ..
  | label | comment => exact .passed _
  | call g => exact .called g
  | ret => exact .returned
  | storeStack y s => exact does_save ..
  | loadStack o s => exact does_fetch rfl _
  | loadGlobal o g =>
    simp only [exec]
    split
    · exact does_fetch rfl _
    · exact .refused (.global _ g)
  | addrGlobal o g =>
    simp only [exec]
    split
    · exact does_put rfl _
    · exact .refused (.global _ g)

end Outcomes

/-! ## From place to place -/

/-- The bound on steps allows this many. -/
def Allows (lim : Limits) (steps : Nat) : Prop := lim.steps = 0 ∨ (steps : Int) ≤ lim.steps

/-- A bound that allows steps allows fewer of them. -/
theorem Allows.mono {lim : Limits} {k n : Nat} (h : Allows lim n) (hle : k ≤ n) :
    Allows lim k := by
  rcases h with h | h
  · exact Or.inl h
  · exact Or.inr (by omega)

/-- What is around a function is as before: the number of calls, and what was read and written. -/
structure Stays (m m' : Machine) : Prop where
  depth : m'.depth = m.depth
  input : m'.input = m.input
  output : m'.output = m.output

theorem Stays.refl (m : Machine) : Stays m m := ⟨rfl, rfl, rfl⟩

theorem Stays.trans {m m₁ m₂ : Machine} (h₁ : Stays m m₁) (h₂ : Stays m₁ m₂) : Stays m m₂ :=
  ⟨h₂.depth.trans h₁.depth, h₂.input.trans h₁.input, h₂.output.trans h₁.output⟩

/-- The machine gets from place `pc` of the function to place `pc'`, by itself: what is around the
function stays. -/
def Reaches (im : Image) (f : LoadedFunc) (m : Machine) (pc : Nat) (m' : Machine) (pc' : Nat) :
    Prop :=
  ∃ n, m'.steps = m.steps + n ∧ Stays m m' ∧
    ∀ (lim : Limits) (rest : List Frame) (fuel : Nat), Allows lim m'.steps →
      runSteps im lim (fuel + n) m ⟨f, pc⟩ rest = runSteps im lim fuel m' ⟨f, pc'⟩ rest

/-- Where a run goes on after a return to the frames `rest`. -/
def resume (im : Image) (lim : Limits) (fuel : Nat) (m : Machine) :
    List Frame → Machine × Outcome
  | [] => (m, .done)
  | caller :: rest => runSteps im lim fuel m { caller with pc := caller.pc + 1 } rest

/-- The machine gets from place `pc` of the function to a return, by itself: one call less is active,
and the rest of what is around the function stays. -/
def Returns (im : Image) (f : LoadedFunc) (m : Machine) (pc : Nat) (m' : Machine) : Prop :=
  ∃ n, m'.steps = m.steps + n ∧ Stays { m with depth := m.depth - 1 } m' ∧
    ∀ (lim : Limits) (rest : List Frame) (fuel : Nat), Allows lim m'.steps →
      runSteps im lim (fuel + n) m ⟨f, pc⟩ rest = resume im lim fuel m' rest

section Reaching

variable {im : Image} {f : LoadedFunc} {m m₁ m₂ : Machine} {pc pc₁ pc₂ : Nat}

/-- On the way from place to place what is around the function stays. -/
theorem Reaches.stays (h : Reaches im f m pc m₁ pc₁) : Stays m m₁ := by
  obtain ⟨-, -, hstays, -⟩ := h
  exact hstays

/-- On the way to a return what is around the function stays, but for the call that ends. -/
theorem Returns.stays (h : Returns im f m pc m₁) : Stays { m with depth := m.depth - 1 } m₁ := by
  obtain ⟨-, -, hstays, -⟩ := h
  exact hstays

theorem Reaches.refl : Reaches im f m pc m pc := ⟨0, rfl, .refl m, fun _ _ _ _ => rfl⟩

/-- Places are reached one behind the other; the steps add up. -/
theorem Reaches.trans (h₁ : Reaches im f m pc m₁ pc₁) (h₂ : Reaches im f m₁ pc₁ m₂ pc₂) :
    Reaches im f m pc m₂ pc₂ := by
  obtain ⟨n₁, hs₁, hstays₁, hr₁⟩ := h₁
  obtain ⟨n₂, hs₂, hstays₂, hr₂⟩ := h₂
  -- fuel is used from the outside, so the second part is peeled off first
  refine ⟨n₁ + n₂, by omega, hstays₁.trans hstays₂, fun lim rest fuel hlim => ?_⟩
  rw [show fuel + (n₁ + n₂) = fuel + n₂ + n₁ by omega, hr₁ lim rest _ (hlim.mono (by omega)),
    hr₂ lim rest fuel hlim]

/-- A return that is reached from a place is reached from all places before it. -/
theorem Reaches.returns (h₁ : Reaches im f m pc m₁ pc₁) (h₂ : Returns im f m₁ pc₁ m₂) :
    Returns im f m pc m₂ := by
  obtain ⟨n₁, hs₁, hstays₁, hr₁⟩ := h₁
  obtain ⟨n₂, hs₂, hstays₂, hr₂⟩ := h₂
  -- The call that ends is counted off once, at the end of the way.
  have hstays : Stays { m with depth := m.depth - 1 } { m₁ with depth := m₁.depth - 1 } :=
    ⟨congrArg (· - 1) hstays₁.depth, hstays₁.input, hstays₁.output⟩
  refine ⟨n₁ + n₂, by omega, hstays.trans hstays₂, fun lim rest fuel hlim => ?_⟩
  rw [show fuel + (n₁ + n₂) = fuel + n₂ + n₁ by omega, hr₁ lim rest _ (hlim.mono (by omega)),
    hr₂ lim rest fuel hlim]

/-- Below the bound a step counts and runs its instruction. -/
theorem step_of_allows {lim : Limits} {rest : List Frame} {x : Instr}
    (hx : f.body[pc]? = some x) (hlim : Allows lim (m.steps + 1)) :
    step im lim m ⟨f, pc⟩ rest = stepInstr im lim m.tick ⟨f, pc⟩ rest x := by
  have hbound : ¬ (lim.steps ≠ 0 ∧ lim.steps < m.tick.steps) := by
    rintro ⟨hne, hlt⟩
    rcases hlim with h | h
    · exact hne h
    · exact absurd hlt (not_lt.2 h)
  simp only [step, hx]
  exact if_neg hbound

/-- The effect of an instruction does not count steps. -/
theorem steps_exec {x : Instr} {go : Control} (h : exec im f m x = .ok m₁ go) :
    m₁.steps = m.steps := by
  have hdoes := does_exec im f m x
  rw [h] at hdoes
  cases hdoes <;> rfl

/-- Only a call reaches out of the function. -/
theorem stays_exec {x : Instr} {go : Control} (h : exec im f m x = .ok m₁ go) : Stays m m₁ := by
  have hdoes := does_exec im f m x
  rw [h] at hdoes
  cases hdoes <;> exact ⟨rfl, rfl, rfl⟩

/-- A step of an instruction that goes on, with its count and the reset of the zero
register. -/
theorem stays_step {x : Instr} {go : Control} (h : exec im f m.tick x = .ok m₁ go) :
    Stays m m₁.resetZero := by
  have htick : Stays m m.tick := ⟨rfl, rfl, rfl⟩
  exact htick.trans ((stays_exec h).trans ⟨rfl, rfl, rfl⟩)

/-- An instruction that goes on reaches the next place. -/
theorem reaches_next {x : Instr} (hx : f.body[pc]? = some x)
    (h : exec im f m.tick x = .ok m₁ .next) : Reaches im f m pc m₁.resetZero (pc + 1) := by
  have hs : m₁.steps = m.steps + 1 := steps_exec h
  refine ⟨1, hs, stays_step h, fun lim rest fuel hlim => ?_⟩
  rw [runSteps, step_of_allows hx (hs ▸ hlim)]
  simp only [stepInstr, h]

/-- An instruction that goes elsewhere reaches the place behind its label. -/
theorem reaches_goto {x : Instr} (hx : f.body[pc]? = some x)
    (h : exec im f m.tick x = .ok m₁ (.goto pc₁)) :
    Reaches im f m pc m₁.resetZero (pc₁ + 1) := by
  have hs : m₁.steps = m.steps + 1 := steps_exec h
  refine ⟨1, hs, stays_step h, fun lim rest fuel hlim => ?_⟩
  rw [runSteps, step_of_allows hx (hs ▸ hlim)]
  simp only [stepInstr, h]

/-- An instruction that only moves control keeps all registers. -/
theorem keeps_idle (hz : m.val Reg.x0 = 0) : Keeps (fun _ => False) m m.tick.resetZero := by
  refine ⟨fun q hq _ => ?_, rfl, rfl, rfl, rfl, rfl⟩
  rw [val_resetZero _ hq]
  split
  · next h0 => rw [h0, hz]
  · rfl

/-- A jump reaches the place behind its label and changes no register. -/
theorem reaches_jump {l : Int} (hx : f.body[pc]? = some (.jump l))
    (hl : f.labels[l]? = some pc₁) : Reaches im f m pc m.tick.resetZero (pc₁ + 1) :=
  reaches_goto hx (by simp only [exec, jump, hl])

section Branch

variable {x y : Reg} {rel : Rel} {l : Int} (hbody : f.body[pc]? = some (.branch x y rel l))
  (hx : x.Valid) (hy : y.Valid)

include hbody hx hy

/-- A branch whose relation holds is taken. -/
theorem reaches_taken (hrel : rel.holds (m.val x) (m.val y) = true)
    (hl : f.labels[l]? = some pc₁) : Reaches im f m pc m.tick.resetZero (pc₁ + 1) := by
  obtain ⟨i, hi, _⟩ := Reg.index?_of_valid hx
  obtain ⟨j, hj, _⟩ := Reg.index?_of_valid hy
  rw [val_of_index hi, val_of_index hj] at hrel
  refine reaches_goto hbody ?_
  simp only [exec, hi, hj, jump, hl]
  exact if_pos hrel

/-- A branch whose relation does not hold is not taken. -/
theorem reaches_untaken (hrel : rel.holds (m.val x) (m.val y) = false) :
    Reaches im f m pc m.tick.resetZero (pc + 1) := by
  obtain ⟨i, hi, _⟩ := Reg.index?_of_valid hx
  obtain ⟨j, hj, _⟩ := Reg.index?_of_valid hy
  rw [val_of_index hi, val_of_index hj] at hrel
  refine reaches_next hbody ?_
  simp only [exec, hi, hj]
  refine if_neg ?_
  rw [show m.tick.reg i = m.reg i from rfl, show m.tick.reg j = m.reg j from rfl, hrel]
  decide

end Branch

/-- Straight lines run to their end. -/
theorem reaches_line : ∀ {code : List Instr} {m m' : Machine} {pc : Nat}, CodeAt f pc code →
    line? im f m code = some m' → Reaches im f m pc m' (pc + code.length) := by
  intro code
  -- On the code; its first instruction goes on, since the line runs to its end.
  induction code with
  | nil =>
    intro m m' pc _ h
    cases h
    exact Reaches.refl
  | cons x xs ih =>
    intro m m' pc hat h
    rw [line?] at h
    split at h
    · next m₁ hexec =>
      have htail := ih hat.tail h
      rw [show pc + (x :: xs).length = pc + 1 + xs.length by simp only [List.length_cons]; omega]
      exact (reaches_next hat.head hexec).trans htail
    · cases h

/-- Resetting `x0` twice is resetting it once, also when a frame is given back in between. -/
theorem resetZero_leave (m : Machine) (f : LoadedFunc) :
    (m.resetZero.leave f).resetZero = m.resetZero.leave f := by
  simp [resetZero, leave, setReg]

/-- A return gives the frame back and goes on behind the call. -/
theorem returns_ret (hx : f.body[pc]? = some .ret) :
    Returns im f m pc (m.tick.resetZero.leave f) := by
  refine ⟨1, rfl, ⟨rfl, rfl, rfl⟩, fun lim rest fuel hlim => ?_⟩
  rw [runSteps, step_of_allows hx hlim]
  simp only [stepInstr, exec]
  -- with no caller left the run is done; otherwise the caller goes on
  cases rest with
  | nil => rfl
  | cons caller rest =>
    simp only [resetZero_leave]
    rfl

end Reaching

end Tac.Machine
