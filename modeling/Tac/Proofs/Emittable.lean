import Mathlib
import Tac.Proofs.Initialization
import Tac.Riscv

/-!
# Code that can be written down

Immediates and offsets of instructions are bounded, and neither form of text has logical operators or
logical right shifts.  Lowering checks every constant where it puts it into an instruction: constants
of additions, negated constants of subtractions, offsets of arrays, the size of an array to be zeroed
and the distances between initial values.  So lowered code is within all bounds, unless the program
itself has logical operators.

* **`Instr.Emittable`** — what is asked of an instruction.
* **`emittable_stmts`, `emittable_lower`, `emittable_entry`** — statements, hand-written functions and
  initial values become no other instructions.
* **`emittable_program`** — neither do programs, whatever functions share the storage of the entry code.
* **`error_text`** — emittable code has a text in both forms.
-/

namespace Tac

theorem immOverflows_eq_false_iff {n : Int} : immOverflows n = false ↔ -2047 < n ∧ n < 2047 := by
  rw [← Bool.not_eq_true, immOverflows, Bool.or_eq_true, decide_eq_true_eq, decide_eq_true_eq, immBound]
  omega

/-- What is asked of an instruction: immediates and offsets are small, binary operators are no logical
ones, and shifts are to the left or arithmetic and by no negative amount. -/
def Instr.Emittable : Instr → Prop
  | .binary _ op _ _ => op ≠ .and ∧ op ≠ .or
  | .addImm _ _ n | .store _ n _ | .load _ _ n => -2047 < n ∧ n < 2047
  | .shift _ _ kind n => (kind = .left ∨ kind = .arithRight) ∧ 0 ≤ n
  | .divPow2 _ _ n => 0 ≤ n
  | _ => True

/-- All instructions of the code are emittable. -/
def Emittable (code : List Instr) : Prop := ∀ x ∈ code, x.Emittable

/-- The statement applies no logical operator. -/
def Stmt.NonLogical : Stmt → Prop
  | .binary _ _ op _ => op ≠ .and ∧ op ≠ .or
  | _ => True

namespace Lowering

variable {cx : Context} {code : List Instr}

/-! ## Statements -/

/-- An instruction off the frame can be emitted. -/
theorem emittable_offFrame {x : Instr} (h : x.OffFrame) : x.Emittable := by
  cases h with
  | imm | loadGlobal | addrGlobal => trivial
  | add => exact ⟨nofun, nofun⟩
  | addImm hr x hn => exact immOverflows_eq_false_iff.1 hn
  | store b x ho => exact immOverflows_eq_false_iff.1 ho

/-- Moving operands can be emitted. -/
theorem emittable_transfer {x : Instr} (h : Transfer cx x) : x.Emittable := by
  cases h with
  | offFrame h => exact emittable_offFrame h
  | loadStack | storeStack | addrStack => trivial

/-- Straight code can be emitted, unless it computes a logical operator. -/
theorem emittable_straight {i : Nat} {st : Stmt} (hst : st.NonLogical) {x : Instr}
    (h : Straight cx i st x) : x.Emittable := by
  cases h with
  | transfer h => exact emittable_transfer h
  | imm | move | unary | save | restore | savedArg | zeroWord | ret => trivial
  | binary => exact hst
  | addImm hd x hn => exact immOverflows_eq_false_iff.1 hn
  | shift hd x hn => exact ⟨Or.inl rfl, hn⟩
  | divPow2 hd x hn => exact hn
  | load hd b ho => exact immOverflows_eq_false_iff.1 ho

/-- The code of a statement can be emitted, unless it computes a logical operator. -/
theorem emittable_made {i : Nat} {st : Stmt} (hst : st.NonLogical) {x : Instr} (h : Made cx i st x) :
    x.Emittable := by
  cases h with
  | straight h => exact emittable_straight hst h
  | branch | jump | label | call | loopLabel | loopEnd => trivial

/-- The code of statements can be emitted, unless one of them computes a logical operator. -/
theorem emittable_stmts {c c' : Counters} {i : Nat} {ss : List Stmt}
    (hss : ∀ st ∈ ss, st.NonLogical) (h : stmts cx c i ss = .ok (code, c')) : Emittable code := by
  intro x hx
  obtain ⟨k, st, hst, hmade⟩ := exists_made_of_mem h hx
  exact emittable_made (hss st (List.mem_of_getElem? hst)) hmade

/-! ## Functions -/

/-- Hand-written code is emittable, whatever its labels. -/
theorem emittable_lower {name : String} {b : Builtin} (h : Builtin.find? name = some b) (c : Counters) :
    Emittable (b.lower c).1.body := by
  rcases Builtin.mem_catalog_of_find? h with rfl | rfl
  · show Emittable (Builtin.memmoveCode _ _)
    simp [Emittable, Builtin.memmoveCode, Instr.Emittable]
  · show Emittable (Builtin.multiplyCode _ _ _)
    simp [Emittable, Builtin.multiplyCode, Instr.Emittable]

/-- The code of a function can be emitted, be it lowered or written by hand. -/
theorem emittable_funcOrBuiltin {c c' : Counters} {f : CodeFunc}
    (hss : ∀ st ∈ cx.placed.func.stmts, st.NonLogical) (h : funcOrBuiltin cx c = .ok (f, c')) :
    Emittable f.body := by
  rcases funcOrBuiltin_cases h with ⟨name, b, -, hfind, hlower⟩ | ⟨-, hfunc⟩
  · cases hlower
    exact emittable_lower hfind c
  · exact emittable_stmts hss (func_parts hfunc).1

/-! ## Programs -/

theorem emittable_entry (p : Program) (gs : List (VarId × Var)) : Emittable (entry p gs).code :=
  fun _ hx => emittable_offFrame (offFrame_of_mem_entry hx)

/-- What is left of code that was written over comes from one of the codes. -/
theorem mem_foldl_overlay {bodies : List (List Instr)} {old : List Instr} {x : Instr}
    (hx : x ∈ bodies.foldl Entry.overlay old) : x ∈ old ∨ ∃ b ∈ bodies, x ∈ b := by
  induction bodies generalizing old with
  | nil => exact Or.inl hx
  | cons b bodies ih =>
    rcases ih hx with hmem | ⟨b', hb', hmem⟩
    · rcases List.mem_append.1 hmem with hnew | hold
      · exact Or.inr ⟨b, List.mem_cons_self, hnew⟩
      · exact Or.inl (List.mem_of_mem_drop hold)
    · exact Or.inr ⟨b', List.mem_cons_of_mem _ hb', hmem⟩

/-- What stands behind the entry code comes from the bodies that were written there. -/
theorem mem_tail {e : Entry} {bodies : List (List Instr)} {x : Instr} (hx : x ∈ e.tail bodies) :
    ∃ b ∈ bodies, x ∈ b := by
  rcases mem_foldl_overlay hx with hnil | ⟨b, hb, hmem⟩
  · cases hnil
  · exact ⟨b, (List.mem_filter.1 hb).1, hmem⟩

/-- Whatever `main` functions share storage, all instructions come from the entry code or from the
functions. -/
theorem mem_body_install {e : Entry} {zs : List (CodeFunc × Bool)} {f : CodeFunc}
    (hf : f ∈ e.install zs) {x : Instr} (hx : x ∈ f.body) :
    x ∈ e.code ∨ ∃ z ∈ zs, x ∈ z.1.body := by
  unfold Entry.install at hf
  obtain ⟨⟨g, main⟩, hz, rfl⟩ := List.mem_map.1 hf
  -- Only functions called `main` have code in front, and maybe parts of another one behind.
  cases main with
  | false => exact Or.inr ⟨_, hz, hx⟩
  | true =>
    rcases List.mem_append.1 hx with hentry | hbehind
    · exact Or.inl hentry
    · split at hbehind
      · obtain ⟨b, hb, hmem⟩ := mem_tail (List.mem_of_mem_take hbehind)
        obtain ⟨z, hz', rfl⟩ := List.mem_map.1 hb
        exact Or.inr ⟨z, (List.mem_filter.1 hz').1, hmem⟩
      · exact Or.inr ⟨_, hz, hbehind⟩

/-- **Lowering makes emittable code** of functions without logical operators. -/
theorem emittable_program {p : Program} {sets : ClobberSets} {ps : List Placement} {code : Code}
    (hps : ∀ q ∈ ps, ∀ st ∈ q.func.stmts, st.NonLogical) (hcode : program p sets ps = .ok code) :
    ∀ f ∈ code.funcs, Emittable f.body := by
  obtain ⟨gs, fs, -, hfs, -, hfuncs⟩ := program_parts hcode
  intro f hf x hx
  rw [hfuncs] at hf
  rcases mem_body_install hf hx with hentry | ⟨⟨g, main⟩, hz, hmem⟩
  · exact emittable_entry p gs x hentry
  · obtain ⟨q, hq, c, c', hlower⟩ := exists_right_of_forall₂ (forall₂_of_funcs hfs) (List.of_mem_zip hz).1
    exact emittable_funcOrBuiltin (hps q hq) hlower x hmem

end Lowering

/-! ## Texts -/

/-- If every piece can be printed, all of them can. -/
theorem error_emitAll {α : Type} {piece : α → Except EmitError String} {xs : List α}
    (h : ∀ x ∈ xs, ∃ s, piece x = .ok s) (func out : String) :
    (emitAll piece func out xs).error = none := by
  induction xs generalizing out with
  | nil => rfl
  | cons x xs ih =>
    obtain ⟨s, hs⟩ := h x List.mem_cons_self
    unfold emitAll
    rw [hs]
    exact ih (fun y hy => h y (List.mem_cons_of_mem _ hy)) _

/-- If every function can be printed, all of them can. -/
theorem error_emitFuncs {func : String → CodeFunc → Emission} {fs : List CodeFunc}
    (h : ∀ f ∈ fs, ∀ out, (func out f).error = none) (out : String) :
    (emitFuncs func out fs).error = none := by
  induction fs generalizing out with
  | nil => rfl
  | cons f fs ih =>
    have hf := h f List.mem_cons_self out
    unfold emitFuncs
    split
    · exact ih (fun g hg => h g (List.mem_cons_of_mem _ hg)) _
    · exact hf

/-- The readable printer knows every shift that can be emitted. -/
theorem Code.Printer.shift_of_emittable {o x : Reg} {kind : ShiftKind} {n : Int}
    (h : (Instr.shift o x kind n).Emittable) : ∃ s, Code.Printer.shift o x kind n = .ok s := by
  obtain ⟨hkind, hn⟩ := h
  have hnot : ¬ n < 0 := by omega
  unfold Code.Printer.shift
  simp only [hnot, if_false]
  split
  · exact ⟨_, rfl⟩
  · rcases hkind with rfl | rfl <;> exact ⟨_, rfl⟩

/-- The readable printer knows every instruction that can be emitted. -/
theorem Code.Printer.instr_of_emittable {x : Instr} (h : x.Emittable) :
    ∃ s, Code.Printer.instr x = .ok s := by
  -- Only shifts and divisions have bounds of their own.
  cases x with
  | binary o op l r =>
    obtain ⟨hand, hor⟩ := h
    cases op with
    | and => contradiction
    | or => contradiction
    | add | sub | mul | div | mod | cmp => exact ⟨_, rfl⟩
  | unary o op x => cases op <;> exact ⟨_, rfl⟩
  | addImm o x v =>
    rw [Code.Printer.instr]
    split <;> exact ⟨_, rfl⟩
  | shift o x k n =>
    rw [Code.Printer.instr]
    exact Code.Printer.shift_of_emittable h
  | divPow2 o x n =>
    have hnot : ¬ n < 0 := Int.not_lt.2 h
    rw [Code.Printer.instr, if_neg hnot]
    exact ⟨_, rfl⟩
  | move | imm | store | load | branch | jump | label | call | ret | storeStack | loadStack |
    loadGlobal | addrStack | addrGlobal | comment => exact ⟨_, rfl⟩

/-- The assembly printer knows every instruction that can be emitted. -/
theorem Riscv.instr_of_emittable {x : Instr} (h : x.Emittable) (stack : Int) :
    ∃ is, Riscv.instr stack x = .ok is := by
  -- Immediates must fit where the instruction has a field for them; stack offsets are split.
  cases x with
  | binary o op l r =>
    obtain ⟨hand, hor⟩ := h
    cases op with
    | and => contradiction
    | or => contradiction
    | cmp rel => cases rel <;> exact ⟨_, rfl⟩
    | add | sub | mul | div | mod => exact ⟨_, rfl⟩
  | unary o op x => cases op <;> exact ⟨_, rfl⟩
  | addImm o x v =>
    have hfits : immOverflows v = false := immOverflows_eq_false_iff.2 h
    rw [Riscv.instr, hfits]
    split <;> exact ⟨_, rfl⟩
  | store b off x =>
    have hfits : immOverflows off = false := immOverflows_eq_false_iff.2 h
    exact ⟨_, by rw [Riscv.instr, hfits]; rfl⟩
  | load o b off =>
    have hfits : immOverflows off = false := immOverflows_eq_false_iff.2 h
    exact ⟨_, by rw [Riscv.instr, hfits]; rfl⟩
  | shift o x k n =>
    obtain ⟨hkind, -⟩ := h
    simp only [Riscv.instr, Riscv.shift]
    split
    · exact ⟨_, rfl⟩
    · rcases hkind with rfl | rfl <;> exact ⟨_, rfl⟩
  | storeStack x s =>
    simp only [Riscv.instr]
    split <;> exact ⟨_, rfl⟩
  | loadStack o s =>
    simp only [Riscv.instr]
    split <;> exact ⟨_, rfl⟩
  | addrStack o s =>
    simp only [Riscv.instr]
    split <;> exact ⟨_, rfl⟩
  | move | imm | divPow2 | branch | jump | label | call | ret | loadGlobal | addrGlobal | comment =>
    exact ⟨_, rfl⟩

/-- Emittable code has a text in both forms. -/
theorem error_text {c : Code} (h : ∀ f ∈ c.funcs, Emittable f.body) :
    c.text.error = none ∧ (Riscv.text c).error = none := by
  constructor
  -- Both printers put pieces together; an error can only come from a piece.
  · refine error_emitFuncs (fun f hf out => ?_) _
    have hbody := error_emitAll (fun x hx => Code.Printer.instr_of_emittable (h f hf x hx)) f.name
      (out ++ (if out.isEmpty then "" else "\n") ++ ("f_" ++ f.name ++ " [" ++ Text.decimal f.params ++
        "] [" ++ Text.decimal f.stack ++ "]\n"))
    unfold Code.Printer.func
    simp only
    split
    · rfl
    · exact hbody
  · refine error_emitFuncs (fun f hf out => ?_) _
    have hpiece : ∀ x ∈ f.body, ∃ s, Riscv.instrText f.stack x = .ok s := by
      intro x hx
      obtain ⟨is, his⟩ := Riscv.instr_of_emittable (h f hf x hx) f.stack
      exact ⟨_, by rw [Riscv.instrText, his]; rfl⟩
    have hbody := error_emitAll hpiece f.name (out ++ Riscv.header f)
    unfold Riscv.func
    split
    · rfl
    · exact hbody

end Tac
