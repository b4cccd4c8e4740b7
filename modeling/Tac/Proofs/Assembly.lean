import Mathlib
import Tac.Proofs.Compiled
import Tac.Proofs.Reading

/-!
# Labels of assembly

Assembly is one text with all functions in it, and labels are looked up in all of it.  Programs that
are read may define a label in several functions, each of which jumps to its own; then the label stands
several times in the assembly.  It does not when no two functions define the same label.

* **`Lays`** — text is made of lines, of which given labels have one each.
* **`lays_text`** — assembly has one label line for each label in the code.
* **`labels_of_assembly`** — a program with distinct labels and one `main` has each label line once, and
  jumps stay in their functions.
-/

namespace Tac

open Tree.Generate (labelsOf)

namespace Riscv

open Text (rows rows_append rows_cons)

/-! ## Text on one line -/

/-- Text without newlines. -/
def Flat (s : String) : Prop := '\n' ∉ s.toList

instance (s : String) : Decidable (Flat s) := inferInstanceAs (Decidable (¬_))

@[simp] theorem flat_append {a b : String} : Flat (a ++ b) ↔ Flat a ∧ Flat b := by
  simp [Flat]

@[simp] theorem flat_decimal (n : Int) : Flat (Text.decimal n) := fun h => by
  rcases Text.isDigit_of_mem_decimal h with h | h
  · exact absurd h (by decide)
  · exact absurd h (by decide)

@[simp] theorem flat_replicate (n : Nat) : Flat (String.ofList (List.replicate n ' ')) := by
  simp [Flat, List.mem_replicate]

@[simp] theorem flat_name (r : Reg) : Flat r.name := by
  unfold Reg.name
  repeat' split
  all_goals simp +decide

@[simp] theorem flat_operand (x : Operand) : Flat x.text := by
  cases x with
  | reg r => exact flat_name r
  | sp | ra => decide

@[simp] theorem flat_op3 (op : Op3) : Flat op.text := by cases op <;> decide

@[simp] theorem flat_op2 (op : Op2) : Flat op.text := by cases op <;> decide

@[simp] theorem flat_opImm (op : OpImm) : Flat op.text := by cases op <;> decide

@[simp] theorem flat_branch (rel : Rel) : Flat (branchText rel) := by cases rel <;> decide

@[simp] theorem flat_globalName (g : Int) : Flat (globalName g) := by
  simp +decide [globalName]

@[simp] theorem flat_labelName (l : Int) : Flat (labelName l) := by
  simp +decide [labelName]

/-- Flat texts with commas between them are flat. -/
theorem flat_commas {xs : List String} (h : ∀ x ∈ xs, Flat x) : Flat (commas xs) := by
  rw [Flat, commas, String.toList_intercalate]
  -- On the texts; the last one has no comma behind it.
  induction xs with
  | nil => simp
  | cons x xs ih =>
    rw [List.forall_mem_cons] at h
    cases xs with
    | nil => simpa [Flat] using h.1
    | cons y ys =>
      rw [List.map_cons, List.map_cons, List.intercalate_cons_cons, ← List.map_cons]
      simp only [List.mem_append, not_or]
      exact ⟨⟨h.1, by decide⟩, ih h.2⟩

/-! ## Lines -/

/-- The line that defines a label. -/
def labelLine (l : Int) : List Char := (labelName l ++ ":").toList

/-- Different labels have different lines. -/
theorem labelLine_injective : Function.Injective labelLine := fun l l' h => by
  rw [labelLine, labelLine, labelName, labelName] at h
  have h' : (Text.decimal l).toList = (Text.decimal l').toList := by
    simpa [String.toList_append] using h
  exact Text.decimal_injective (String.toList_injective h')

/-- Text is made of lines, and each label has as many lines in it as it has places in the list. -/
def Lays (s : String) (ls : List Int) : Prop :=
  ∃ ks : List (List Char), s.toList = rows ks ∧ (∀ k ∈ ks, '\n' ∉ k) ∧
    ∀ l, ks.count (labelLine l) = ls.count l

theorem lays_empty : Lays "" [] := ⟨[], rfl, List.forall_mem_nil _, fun _ => rfl⟩

/-- Lines behind lines. -/
theorem Lays.append {s t : String} {ls ms : List Int} (h : Lays s ls) (h' : Lays t ms) :
    Lays (s ++ t) (ls ++ ms) := by
  obtain ⟨ks, hs, hks, hcount⟩ := h
  obtain ⟨ks', ht, hks', hcount'⟩ := h'
  refine ⟨ks ++ ks', ?_, List.forall_mem_append.2 ⟨hks, hks'⟩, fun l => ?_⟩
  · rw [String.toList_append, hs, ht, rows_append]
  · rw [List.count_append, List.count_append, hcount, hcount']

/-- Texts that are joined have all their lines. -/
theorem lays_join {α : Type} {xs : List α} {s : α → String} {ls : α → List Int}
    (h : ∀ x ∈ xs, Lays (s x) (ls x)) : Lays (String.join (xs.map s)) (xs.flatMap ls) := by
  induction xs with
  | nil => exact lays_empty
  | cons x xs ih =>
    rw [List.forall_mem_cons] at h
    have := h.1.append (ih h.2)
    rw [List.map_cons, List.flatMap_cons, String.join_cons]
    exact this

/-- A line that defines no label. -/
theorem lays_line {s : String} (h : Flat s) (hne : ∀ l, s ≠ labelName l ++ ":") :
    Lays (s ++ "\n") [] := by
  refine ⟨[s.toList], ?_, ?_, fun l => ?_⟩
  · rw [String.toList_append, rows_cons]
    rfl
  · rw [List.forall_mem_singleton]
    exact h
  · refine List.count_eq_zero.2 fun hmem => hne l ?_
    exact (String.toList_injective (List.mem_singleton.1 hmem)).symm

/-- The line of a label. -/
theorem lays_label (l : Int) : Lays (labelName l ++ ":\n") [l] := by
  refine ⟨[labelLine l], ?_, ?_, fun l' => ?_⟩
  · rw [String.toList_append, rows_cons, labelLine, String.toList_append, List.append_assoc]
    rfl
  · rw [List.forall_mem_singleton]
    have : Flat (labelName l ++ ":") := by simp +decide
    exact this
  · simp [List.count_cons, labelLine_injective.eq_iff]

/-- An indented line defines no label. -/
theorem lays_indented {s : String} (h : Flat s) : Lays ("  " ++ s ++ "\n") [] := by
  refine lays_line (by simp +decide [h]) fun l heq => ?_
  have := congrArg (fun s => s.toList.head?) heq
  simp [labelName] at this

/-- The line of an operation defines no label. -/
theorem lays_op {op x : String} (hop : Flat op) (hx : Flat x) : Lays (line op x) [] := by
  have := lays_indented (s := op ++ String.ofList (List.replicate (8 - op.length) ' ') ++ x)
    (by simp [hop, hx])
  rw [line]
  simpa only [String.append_assoc] using this

/-- The line of an operation without operands defines no label. -/
theorem lays_bare {op : String} (hop : Flat op) : Lays (bareLine op) [] := lays_indented hop

/-- A line that names a place which is no label. -/
theorem lays_named {n : String} (hn : Flat n) (hne : ∀ l, n ≠ labelName l) : Lays (n ++ ":\n") [] := by
  have := lays_line (s := n ++ ":") (by simp +decide [hn]) fun l heq => hne l ?_
  · rw [String.append_assoc] at this
    exact this
  · have := congrArg String.toList heq
    rw [String.toList_append, String.toList_append] at this
    exact String.toList_injective (List.append_cancel_right this)

/-! ## Instructions -/

/-- The label that an assembly instruction defines. -/
def Inst.label? : Inst → Option Int
  | .label l => some l
  | _ => none

/-- The name or remark that an assembly instruction carries. -/
def Inst.name? : Inst → Option String
  | .call f => some f
  | .comment t => some t
  | _ => none

/-- The line of an instruction. -/
theorem lays_inst {i : Inst} (h : ∀ n, i.name? = some n → Flat n) : Lays i.text i.label?.toList := by
  -- Most instructions have operands with commas between them.
  have hcommas : ∀ {xs : List String}, (∀ x ∈ xs, Flat x) → ∀ {op : String}, Flat op →
      Lays (line op (commas xs)) [] := fun hxs _ hop => lays_op hop (flat_commas hxs)
  cases i with
  | op3 op d l r => exact hcommas (by simp) (flat_op3 op)
  | op2 op d x => exact hcommas (by simp) (flat_op2 op)
  | opImm op d x n => exact hcommas (by simp) (flat_opImm op)
  | li d n => exact hcommas (by simp) (by decide)
  | la d g => exact hcommas (by simp) (by decide)
  | luiHi d g => exact hcommas (by simp +decide) (by decide)
  | lwLo d g b => exact hcommas (by simp +decide [atOffset]) (by decide)
  | lw d off b => exact hcommas (by simp +decide [atOffset]) (by decide)
  | sw x off b => exact hcommas (by simp +decide [atOffset]) (by decide)
  | branch rel l r t => exact hcommas (by simp) (flat_branch rel)
  | j l => exact lays_op (by decide) (flat_labelName l)
  | label l => exact lays_label l
  | call f => exact lays_op (by decide) (h f rfl)
  | ret => exact lays_bare (by decide)
  | comment t =>
    have := lays_indented (s := "# " ++ t) (by simp +decide [h t rfl])
    rw [← String.append_assoc] at this
    exact this

/-- The lines of instructions, with the labels that they define. -/
theorem lays_insts {is : List Inst} (h : ∀ i ∈ is, ∀ n, i.name? = some n → Flat n) :
    Lays (instsText is) (is.filterMap Inst.label?) := by
  have := lays_join (fun i hi => lays_inst (h i hi))
  rwa [← List.filterMap_eq_flatMap_toList] at this

/-- Instructions that define no label and whose remarks stay on the line. -/
def Tame (is : List Inst) : Prop := ∀ i ∈ is, i.label? = none ∧ ∀ n, i.name? = some n → Flat n

@[simp] theorem tame_nil : Tame [] := List.forall_mem_nil _

@[simp] theorem tame_cons {i : Inst} {is : List Inst} :
    Tame (i :: is) ↔ (i.label? = none ∧ ∀ n, i.name? = some n → Flat n) ∧ Tame is :=
  List.forall_mem_cons

/-- The lines of a move define no label. -/
theorem tame_move (o x : Reg) : Tame (move o x) := by
  unfold move
  split <;> simp +decide [Inst.label?, Inst.name?]

/-- The lines that move the stack pointer define no label. -/
theorem tame_moveSp (n : Int) : Tame (moveSp n) := by
  unfold moveSp
  split <;> simp [Inst.label?, Inst.name?]

/-- The lines of an operation define no label. -/
theorem tame_binary {d l r : Reg} {op : BinOp} {is : List Inst} (h : binary d op l r = .ok is) :
    Tame is := by
  unfold binary at h
  split at h <;> cases h <;> simp [Inst.label?, Inst.name?]

/-- The lines of a shift define no label. -/
theorem tame_shift {o x : Reg} {k : ShiftKind} {n : Int} {is : List Inst}
    (h : shift o x k n = .ok is) : Tame is := by
  unfold shift at h
  split at h
  · cases h
    split
    · simp +decide [Inst.label?, Inst.name?]
    · exact tame_move o x
  · split at h <;> cases h <;> simp [Inst.label?, Inst.name?]

/-- The assembly of an instruction has its label and its name, and no others. -/
theorem insts_of_instr {stack : Int} {x : Instr} {is : List Inst} (h : instr stack x = .ok is)
    (hx : ∀ n, x.name? = some n → Flat n) :
    is.filterMap Inst.label? = x.label?.toList ∧ ∀ i ∈ is, ∀ n, i.name? = some n → Flat n := by
  -- An instruction that defines no label is printed as lines that define none.
  have htame : x.label? = none → Tame is → is.filterMap Inst.label? = x.label?.toList ∧
      ∀ i ∈ is, ∀ n, i.name? = some n → Flat n := fun hl ht => by
    rw [hl]
    exact ⟨List.filterMap_eq_nil_iff.2 fun i hi => (ht i hi).1, fun i hi => (ht i hi).2⟩
  cases x with
  | label l =>
    cases h
    exact ⟨rfl, by simp [Inst.name?]⟩
  | call f =>
    cases h
    exact htame rfl (by simpa [Inst.label?, Inst.name?] using hx f rfl)
  | comment t =>
    cases h
    exact htame rfl (by simpa [Inst.label?, Inst.name?] using hx t rfl)
  | binary o op l r => exact htame rfl (tame_binary h)
  | shift o y k n => exact htame rfl (tame_shift h)
  | move o y =>
    cases h
    exact htame rfl (tame_move o y)
  | unary o op y =>
    cases op <;> cases h
    · exact htame rfl (tame_move o y)
    all_goals exact htame rfl (by simp [Inst.label?, Inst.name?])
  | addImm o y v =>
    simp only [instr] at h
    split at h
    · cases h
      exact htame rfl (tame_move o y)
    · split at h <;> cases h
      exact htame rfl (by simp [Inst.label?, Inst.name?])
  | divPow2 o y n =>
    cases h
    exact htame rfl (by simp [divPow2, Inst.label?, Inst.name?])
  | ret =>
    cases h
    refine htame rfl (List.forall_mem_append.2 ⟨tame_moveSp _, ?_⟩)
    simp [Inst.label?, Inst.name?]
  | storeStack y s | loadStack y s | addrStack y s | store y s z | load y s z =>
    simp only [instr] at h
    split at h <;> cases h <;> exact htame rfl (by simp [Inst.label?, Inst.name?])
  | imm | branch | jump | loadGlobal | addrGlobal =>
    cases h
    exact htame rfl (by simp [Inst.label?, Inst.name?])

/-! ## Functions and programs -/

/-- The names in code stay on one line. -/
def Named (code : List Instr) : Prop := ∀ x ∈ code, ∀ n, x.name? = some n → Flat n

/-- A body that is printed without an error has one line for each of its labels, behind
what was printed before. -/
theorem lays_emitAll {stack : Int} {name out text : String} {ls : List Int} {body : List Instr}
    (hout : Lays out ls) (hbody : Named body)
    (h : emitAll (instrText stack) name out body = { text, error := none }) :
    Lays text (ls ++ labelsIn body) := by
  -- On the body, for any text so far; an error would end the printing.
  induction body generalizing out ls with
  | nil =>
    cases h
    rw [labelsIn_nil, List.append_nil]
    exact hout
  | cons x body ih =>
    rw [Named, List.forall_mem_cons] at hbody
    unfold emitAll at h
    split at h
    · next s hs =>
      have hmap : ∃ is, instr stack x = .ok is ∧ instsText is = s := by
        unfold instrText at hs
        cases his : instr stack x with
        | error e =>
          rw [his] at hs
          cases hs
        | ok is =>
          rw [his] at hs
          exact ⟨is, rfl, Except.ok.inj hs⟩
      obtain ⟨is, his, rfl⟩ := hmap
      obtain ⟨hlabels, hnames⟩ := insts_of_instr his hbody.1
      have := ih (hout.append (lays_insts hnames)) hbody.2 h
      rw [hlabels, List.append_assoc] at this
      rwa [← List.singleton_append, labelsIn_append, labelsIn_singleton]
    · cases h

/-- The first lines of a function define no label. -/
theorem lays_moveSp (n : Int) : Lays (instsText (.sw .ra (-4) .sp :: moveSp n)) [] := by
  have htame : Tame (.sw .ra (-4) .sp :: moveSp n) :=
    tame_cons.2 ⟨by simp [Inst.label?, Inst.name?], tame_moveSp n⟩
  have := lays_insts fun i hi => (htame i hi).2
  rwa [List.filterMap_eq_nil_iff.2 fun i hi => (htame i hi).1] at this

/-- The head of a function names the function and defines no label. -/
theorem lays_header {f : CodeFunc} (hf : Flat f.name) (hne : ∀ l, f.name ≠ labelName l) :
    Lays (header f) [] := by
  have hbare : Lays (bareLine ".text") [] := lays_bare (by decide)
  have halign : Lays (line ".align" "2") [] := lays_op (by decide) (by decide)
  have hglobal : Lays (line ".global" f.name) [] := lays_op (by decide) hf
  have htype : Lays (line ".type" (commas [f.name, "@function"])) [] :=
    lays_op (by decide) (flat_commas (by simp +decide [hf]))
  have := ((((hbare.append halign).append hglobal).append htype).append (lays_named hf hne)).append
    (lays_moveSp (wrap64 (-(frameBytes f.stack))))
  rw [← String.append_assoc] at this
  exact this

/-- A function that is printed without an error has one line for each label in its body. -/
theorem lays_func {out text : String} {ls : List Int} {f : CodeFunc} (hout : Lays out ls)
    (hf : Flat f.name) (hne : ∀ l, f.name ≠ labelName l) (hbody : Named f.body)
    (h : func out f = { text, error := none }) : Lays text (ls ++ labelsIn f.body) := by
  unfold func at h
  split at h
  · next text' hall =>
    cases h
    have := lays_emitAll (hout.append (lays_header hf hne)) hbody hall
    -- The line of the size closes the function; no label is laid by it.
    have hsize : Lays (line ".size" (commas [f.name, ".-" ++ f.name])) [] :=
      lays_op (by decide) (flat_commas (by simp +decide [hf]))
    have := this.append hsize
    rwa [List.append_nil, List.append_nil] at this
  · next hfail =>
    exact absurd h (hfail text)

/-- Functions that are printed without an error have one line for each label in their
bodies. -/
theorem lays_emitFuncs {out text : String} {ls : List Int} {fs : List CodeFunc} (hout : Lays out ls)
    (hfs : ∀ f ∈ fs, Flat f.name ∧ (∀ l, f.name ≠ labelName l) ∧ Named f.body)
    (h : emitFuncs func out fs = { text, error := none }) :
    Lays text (ls ++ labelsIn (fs.flatMap CodeFunc.body)) := by
  induction fs generalizing out ls with
  | nil =>
    cases h
    rw [List.flatMap_nil, labelsIn_nil, List.append_nil]
    exact hout
  | cons f fs ih =>
    rw [List.forall_mem_cons] at hfs
    -- The text of the first function is laid behind what was printed before.
    unfold emitFuncs at h
    split at h
    · next text' hf =>
      have := ih (lays_func hout hfs.1.1 hfs.1.2.1 hfs.1.2.2 hf) hfs.2 h
      rwa [List.flatMap_cons, labelsIn_append, ← List.append_assoc]
    · next hfail =>
      exact absurd h (hfail text)

/-- A global is printed in lines that define no label. -/
theorem lays_global (g : GlobalVar) : Lays (global g) [] := by
  -- Names of globals start with another character than labels.
  have hname : ∀ l, globalName g.index ≠ labelName l := fun l heq => by
    have := congrArg (fun s => s.toList.head?) heq
    simp [globalName, labelName] at this
  unfold global
  simp only
  split
  · exact lays_op (by decide) (flat_commas (by simp +decide))
  · have h1 : Lays (line ".global" (globalName g.index)) [] := lays_op (by decide) (by simp)
    have h2 : Lays (line ".section" ".sdata") [] := lays_op (by decide) (by decide)
    have h3 : Lays (line ".align" "2") [] := lays_op (by decide) (by decide)
    have h4 : Lays (line ".type" (commas [globalName g.index, "@object"])) [] :=
      lays_op (by decide) (flat_commas (by simp +decide))
    have h5 : Lays (line ".size" (commas [globalName g.index, "4"])) [] :=
      lays_op (by decide) (flat_commas (by simp +decide))
    have h6 : Lays (line ".word" (Text.decimal g.init)) [] := lays_op (by decide) (by simp)
    have := (((((h1.append h2).append h3).append h4).append h5).append
      (lays_named (flat_globalName _) hname)).append h6
    rw [← String.append_assoc] at this
    exact this

/-- Assembly has one label line for each label in the code. -/
theorem lays_text {c : Code} {out : String}
    (hfs : ∀ f ∈ c.funcs, Flat f.name ∧ (∀ l, f.name ≠ labelName l) ∧ Named f.body)
    (h : text c = { text := out, error := none }) :
    Lays out (labelsIn (c.funcs.flatMap CodeFunc.body)) := by
  have hglobals : Lays (String.join (c.globals.map global)) [] := by
    have := lays_join fun g (_ : g ∈ c.globals) => lays_global g
    rwa [List.flatMap_eq_nil_iff.2 fun _ _ => rfl] at this
  exact lays_emitFuncs hglobals hfs h

/-- The lines of such a text. -/
theorem Lays.count_lines {s : String} {ls : List Int} (h : Lays s ls) (l : Int) :
    (Text.lines s.toList).count (labelLine l) = ls.count l := by
  obtain ⟨ks, hs, hks, hcount⟩ := h
  have hempty : labelLine l ≠ [] := by simp [labelLine, labelName]
  rw [hs, Text.lines_rows hks, List.count_append, hcount,
    List.count_eq_zero.2 fun hmem => hempty (List.mem_singleton.1 hmem), Nat.add_zero]

end Riscv

/-! ## Labels of programs -/

namespace Program

variable {o : Options} {p : Program}

/-- The code of a program that is placed and lowered. -/
theorem toCode_of_placed {ps : List Placement} {c : Code} (hps : (p.prepare o).place o = .ok ps)
    (hc : (p.prepare o).lowerPlaced ps = .ok c) : p.toCode o = .ok c := by
  unfold toCode
  simp only [hps]
  exact hc

/-- Assembly is the text of the program's code. -/
theorem toCode_of_compile {out : String} (h : p.compile o .assembly = .ok out) :
    ∃ c, p.toCode o = .ok c ∧ Riscv.text c = { text := out, error := none } := by
  unfold compile at h
  simp only at h
  split at h
  · cases h
  · next ps hps =>
    rw [if_neg (by decide)] at h
    split at h
    · cases h
    · next c hc =>
      refine ⟨c, toCode_of_placed hps hc, ?_⟩
      -- A text comes back only if printing met no error.
      unfold emitted at h
      split at h
      · next hnone =>
        cases h
        rw [← hnone]
      · cases h

/-- A program whose code is printed without an error compiles to that text. -/
theorem compile_of_code {ps : List Placement} {c : Code} (hps : (p.prepare o).place o = .ok ps)
    (hc : (p.prepare o).lowerPlaced ps = .ok c) (he : (Riscv.text c).error = none) :
    p.compile o .assembly = .ok (Riscv.text c).text := by
  unfold compile
  simp only [hps, hc]
  rw [if_neg (by decide), emitted, he]

/-- Names that do not start with a dot are no labels. -/
theorem ne_labelName {n : String} (h : n.toList.head? ≠ some '.') (l : Int) :
    n ≠ Riscv.labelName l := by
  rintro rfl
  simp [Riscv.labelName] at h

open Riscv in
/-- Names in the code of a program that is read stay on their lines, and those of functions are not
read as labels. -/
theorem named_toCode {file text : String} {c : Code} (hp : parse file text = .ok p)
    (hmain : p.OneMain) (hnames : ∀ f ∈ p.funcs, ∀ l, f.name ≠ labelName l)
    (hc : p.toCode o = .ok c) :
    ∀ f ∈ c.funcs, Flat f.name ∧ (∀ l, f.name ≠ labelName l) ∧ Named f.body := by
  obtain ⟨-, -, hsane⟩ := sane_of_parse hp
  intro f hf
  obtain ⟨hname, hcalls⟩ := names_toCode hc hmain hf
  have hbody : Named f.body := fun x hx n hn => by
    obtain ⟨g, hg, hmem⟩ := hcalls x hx n hn
    obtain ⟨s, hs, hcallee⟩ := List.mem_filterMap.1 hmem
    exact (((hsane g hg).stmts s hs).callee n hcallee).not_mem_newline
  -- The functions of the code are those of the program, the prelude and the entry.
  rcases hname with ⟨g, hg, hgf⟩ | hgf | hgf
  · rw [hgf]
    exact ⟨(hsane g hg).name.not_mem_newline, hnames g hg, hbody⟩
  · rw [hgf]
    exact ⟨by decide, ne_labelName (by decide), hbody⟩
  · rw [hgf]
    exact ⟨by decide, ne_labelName (by decide), hbody⟩

open Riscv in
/-- In the assembly of a program that is read, every label has one line at most and jumps stay in
their functions, when no label is defined twice in the program, there is one `main` and no function is
named like a label.  The highest number cannot be a label, since the counter would not be above it. -/
theorem labels_of_assembly {file text out : String} (hp : parse file text = .ok p)
    (hlabels : p.labels.Nodup) (hhighest : 9223372036854775807 ∉ p.labels)
    (hlimit : p.labelLimit ≤ 9223372036854775808) (hmain : p.OneMain)
    (hnames : ∀ f ∈ p.funcs, ∀ l, f.name ≠ labelName l) (h : p.compile o .assembly = .ok out) :
    (∀ l, (Text.lines out.toList).count (labelName l ++ ":").toList ≤ 1) ∧
      ∃ c, p.toCode o = .ok c ∧ Riscv.text c = { text := out, error := none } ∧
        ∀ f ∈ c.funcs, ∀ x ∈ f.body, ∀ l, x.target? = some l → .label l ∈ f.body := by
  obtain ⟨c, hc, hout⟩ := toCode_of_compile h
  obtain ⟨⟨hlow, hfits⟩, -, hsane⟩ := sane_of_parse hp
  refine ⟨fun l => ?_, c, hc, hout, fun f hf x hx l hl => ?_⟩
  · have hfs := named_toCode hp hmain hnames hc
    obtain ⟨own, c', hsub, hemits⟩ := emits_toCode hc hmain
    -- the labels of the statements are below the counter
    have hbelow : ∀ l ∈ own, 0 ≤ l ∧ l < p.counters.labels := by
      intro l hl
      obtain ⟨f, hf, hlf⟩ := List.mem_flatMap.1 (hsub.subset hl)
      obtain ⟨s, hs, hsl⟩ := List.mem_filterMap.1 hlf
      obtain ⟨h0, hlt | rfl⟩ := ((hsane f hf).stmts s hs).label l hsl
      · exact ⟨h0, hlt⟩
      · exact absurd (hsub.subset hl) hhighest
    -- Labels that are drawn start at the counter, so they differ from those of the program.
    have hnodup := hemits.nodup (hlabels.sublist hsub) hbelow (wrap64_of_range (by omega) hfits) hlimit
    have := (lays_text hfs hout).count_lines l
    rw [labelLine] at this
    rw [this]
    exact List.nodup_iff_count_le_one.1 hnodup l
  · exact mem_labelsIn.1 (closed_toCode hc hmain hf x hx l hl)

/-- A loop that zeroes an array, a hand-written function and a loop of the program's own. -/
def labelledText : String :=
  "f_main [0]\n    var 80 T0\n    fillzero T0\n    goto l0\nl0:\n    return\nend f_main\n" ++
    "f_move [4]\n    // builtin memmove\n    return 0\nend f_move\n" ++
    "f_wait [1]\nl1:\n    if p0 > 0 goto l1\n    return\nend f_wait\n"

/-- The labels that are drawn for the first two functions are not those of the third. -/
theorem labels_of_assembly_drawn : ∃ p out, parse "in.e" labelledText = .ok p ∧ p.labels = [0, 1] ∧
    p.compile { peephole := false } .assembly = .ok out ∧
      (∀ l, (Text.lines out.toList).count (Riscv.labelName l ++ ":").toList ≤ 1) ∧
        ∃ c, p.toCode { peephole := false } = .ok c ∧
          Riscv.text c = { text := out, error := none } ∧
            ∀ f ∈ c.funcs, ∀ x ∈ f.body, ∀ l, x.target? = some l → .label l ∈ f.body := by
  have htext : labelledText = String.ofList _ :=
    Text.append_eq_ofList (Text.append_eq_ofList rfl rfl) rfl
  -- All that the theorem asks of the program is decided at once.
  have htest : (parse "in.e" labelledText).toOption.any (fun p =>
      decide (p.labels = [0, 1]) && decide (p.labelLimit ≤ 100) &&
      decide ((p.funcs.filter fun f => f.name == "main").length ≤ 1) &&
      (p.funcs.all fun f => f.name.toList.head? != some '.') &&
      (p.funcs.mapM (Func.placeOnce p.vars [])).toOption.any fun ps =>
        (p.lowerPlaced ps).toOption.any fun c => decide ((Riscv.text c).error = none)) = true := by
    rw [htext, parse, String.toList_ofList]
    decide +kernel
  obtain ⟨p, hp, htest⟩ := exists_ok_of_any htest
  rw [Bool.and_eq_true] at htest
  obtain ⟨hshape, htest⟩ := htest
  simp only [Bool.and_eq_true, decide_eq_true_eq, List.all_eq_true, bne_iff_ne] at hshape
  obtain ⟨⟨⟨hlabels, hlimit⟩, hmain⟩, hnames⟩ := hshape
  obtain ⟨ps, hps, htest⟩ := exists_ok_of_any htest
  obtain ⟨c, hc, herror⟩ := exists_ok_of_any htest
  have hcompile : p.compile { peephole := false } .assembly = .ok (Riscv.text c).text :=
    compile_of_code (placeFuncs_of_placeOnce hps) hc (of_decide_eq_true herror)
  refine ⟨p, _, hp, hlabels, hcompile, labels_of_assembly hp ?_ ?_ (by omega) hmain ?_ hcompile⟩
  · rw [hlabels]
    decide
  · rw [hlabels]
    decide
  · exact fun f hf => ne_labelName (hnames f hf)

/-- Two functions, each with a label of the same number. -/
def sharedText : String :=
  "f_main [0]\nl0:\n    return\nend f_main\n" ++ "f_f [0]\nl0:\n    return\nend f_f\n"

/-- The label of both functions stands twice in the assembly. -/
theorem label_twice_in_assembly : ∃ p out, parse "in.e" sharedText = .ok p ∧
    (∀ f ∈ p.funcs, (labelsOf f.stmts).Nodup) ∧
      p.compile { peephole := false } .assembly = .ok out ∧
        (Text.lines out.toList).count (Riscv.labelName 0 ++ ":").toList = 2 := by
  have htext : sharedText = String.ofList _ := Text.append_eq_ofList rfl rfl
  have htest : (parse "in.e" sharedText).toOption.any (fun p =>
      decide ((p.funcs.filter fun f => f.name == "main").length ≤ 1) &&
      (p.funcs.all fun f => decide (labelsOf f.stmts).Nodup && f.name.toList.head? != some '.') &&
      (p.funcs.mapM (Func.placeOnce p.vars [])).toOption.any fun ps =>
        (p.lowerPlaced ps).toOption.any fun c => decide ((Riscv.text c).error = none) &&
          decide ((labelsIn (c.funcs.flatMap CodeFunc.body)).count 0 = 2)) = true := by
    rw [htext, parse, String.toList_ofList]
    decide +kernel
  obtain ⟨p, hp, htest⟩ := exists_ok_of_any htest
  rw [Bool.and_eq_true] at htest
  obtain ⟨hshape, htest⟩ := htest
  simp only [Bool.and_eq_true, decide_eq_true_eq, List.all_eq_true, bne_iff_ne] at hshape
  obtain ⟨hmain, hfuncs⟩ := hshape
  obtain ⟨ps, hps, htest⟩ := exists_ok_of_any htest
  obtain ⟨c, hc, htest⟩ := exists_ok_of_any htest
  simp only [Bool.and_eq_true, decide_eq_true_eq] at htest
  have hcompile : p.compile { peephole := false } .assembly = .ok (Riscv.text c).text :=
    compile_of_code (placeFuncs_of_placeOnce hps) hc htest.1
  refine ⟨p, _, hp, fun f hf => (hfuncs f hf).1, hcompile, ?_⟩
  -- the lines are counted by the labels of the code
  have hnames := named_toCode (o := { peephole := false }) hp hmain
    (fun f hf => ne_labelName (hfuncs f hf).2) (toCode_of_placed (placeFuncs_of_placeOnce hps) hc)
  have hout : Riscv.text c = { text := (Riscv.text c).text, error := none } := by rw [← htest.1]
  rw [← htest.2]
  exact (Riscv.lays_text hnames hout).count_lines 0

end Program

end Tac
