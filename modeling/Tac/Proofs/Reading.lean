import Mathlib
import Tac.Program.Reader
import Tac.Proofs.Flow
import Tac.Proofs.Names
import Tac.Proofs.Statements
import Tac.Proofs.Text

/-!
# What the reader makes

Names that are read from program text have no blanks in them, the numbers of temporaries and variables
fit their names, and the label counter of a program that is read is above its labels.

* **`Extends`**, **`Opens`** — what one line inside a function, or outside, does to labels, names and
  numbers.
* **`Sane`** — what holds of them in all states of the reader.
* **`Program.sane_of_parse`** — it holds of every program that is read.
-/

namespace Tac

/-- A name without blanks. -/
def Solid (w : String) : Prop := ∀ c ∈ w.toList, Text.isBlank c = false

theorem solid_of_mem_words {cs : List Char} {w : String} (h : w ∈ Text.words cs) : Solid w :=
  Text.isBlank_of_mem_words h

theorem Solid.not_mem_newline {w : String} (h : Solid w) : '\n' ∉ w.toList := fun hmem =>
  absurd (h _ hmem) (by decide)

/-- A temporary has a number that fits its name. -/
def Val.Sane (v : Val) : Prop := ∀ n, v = .temp n → FitsName n

/-- A variable has a number that fits its name, and a parameter one below the highest count. -/
structure Var.Sane (x : Var) : Prop where
  index : FitsName x.index
  few : x.cls = .arg → x.index < 2147483648

/-- Labels are not negative and, but for the highest one, below the counter; callees are names. -/
structure Stmt.Sane (high : Int) (s : Stmt) : Prop where
  label : ∀ l, s.label? = some l → 0 ≤ l ∧ (l < high ∨ l = 9223372036854775807)
  callee : ∀ g, s.callee? = some g → Solid g
  operands : ∀ v ∈ s.operands, v.Sane

/-- The bound of the labels may be raised. -/
theorem Stmt.Sane.mono {high high' : Int} {s : Stmt} (h : s.Sane high) (hle : high ≤ high') :
    s.Sane high' :=
  ⟨fun l hl => ⟨(h.label l hl).1, (h.label l hl).2.imp_left fun hlt => by omega⟩, h.callee,
    h.operands⟩

/-- A function with such statements and a name. -/
structure Func.Sane (high : Int) (f : Func) : Prop where
  name : Solid f.name
  stmts : ∀ s ∈ f.stmts, s.Sane high

theorem Func.Sane.mono {high high' : Int} {f : Func} (h : f.Sane high) (hle : high ≤ high') :
    f.Sane high' :=
  ⟨h.name, fun s hs => (h.stmts s hs).mono hle⟩

namespace Program.Reader

variable {o o' : Outer} {d d' : Draft} {st st' : State} {ws : List String}

/-- The name behind the mark of a function is a word. -/
theorem solid_funcName {w : String} (h : Solid w) : Solid (funcName w) := by
  intro c hc
  rw [funcName, String.toList_ofList, Text.stripStart] at hc
  split at hc
  · exact h c (List.mem_of_mem_drop hc)
  · exact h c hc

/-- A number behind a marker is not negative and fits 64 bits. -/
theorem fitsName_numbered? {marker : Char} {w : String} {n : Int} (h : numbered? marker w = some n) :
    FitsName n := by
  unfold numbered? at h
  split at h
  · split at h
    · obtain ⟨hn, h0⟩ := Option.filter_eq_some_iff.1 h
      rw [Text.readInt?] at hn
      obtain ⟨-, hbound⟩ := Option.filter_eq_some_iff.1 hn
      simp only [Bool.and_eq_true, decide_eq_true_eq] at hbound
      exact ⟨of_decide_eq_true h0, hbound.2⟩
    · cases h
  · cases h

/-- A label that is read fits its name. -/
theorem fitsName_readLabel {w : String} {n : Int} (h : readLabel w = .ok n) : FitsName n := by
  unfold readLabel at h
  split at h
  · next hn =>
    cases h
    exact fitsName_numbered? hn
  · cases h

/-- A place that is read is one that can be printed. -/
theorem sane_readPlace {w : String} {v : Val} (h : readPlace o d w = .ok v) : v.Sane := by
  have hvar : ∀ id, Val.Sane (.var id) := fun id n hn => by cases hn
  unfold readPlace at h
  -- A temporary, a local or parameter, or a global, told by the first letter.
  split at h
  · next hn =>
    split at h
    · cases h
      rintro m ⟨⟩
      exact fitsName_numbered? hn
    · cases h
  · split at h
    · cases h
      exact hvar _
    · cases h
  · split at h
    · cases h
      exact hvar _
    · cases h
      exact hvar _
    · cases h
  · cases h

/-- An operand that is read is one that can be printed. -/
theorem sane_readVal {w : String} {v : Val} (h : readVal o d w = .ok v) : v.Sane := by
  unfold readVal at h
  split at h
  · cases h
    intro n hn
    cases hn
  · exact sane_readPlace h

/-- The number of parameters is a 32-bit constant. -/
theorem readIndex_lt {w : String} {n : Int} (h : readIndex w = .ok n) : n < 2147483648 := by
  unfold readIndex at h
  split at h
  · cases h
  · split at h
    · next hn =>
      cases h
      rw [Text.readInt?] at hn
      obtain ⟨-, hbound⟩ := Option.filter_eq_some_iff.1 hn
      simp only [Bool.and_eq_true, decide_eq_true_eq] at hbound
      exact hbound.2
    · cases h

/-- The number of a declared name fits it. -/
theorem fitsName_readDecl {name : String} {index : Int} {dims : Option (List Int)}
    (h : readDecl ws = .ok (name, index, dims)) : FitsName index := by
  unfold readDecl at h
  simp only at h
  -- A scalar has one word, an array two, of which the first is its size.
  split at h
  · obtain ⟨⟨size, word⟩, -, h⟩ := bind_eq_ok.1 h
    simp only at h
    split at h
    · next hn =>
      cases h
      exact fitsName_numbered? hn
    · cases h
  · obtain ⟨n, -, h⟩ := bind_eq_ok.1 h
    split at h
    · obtain ⟨x, hx, -⟩ := bind_eq_ok.1 h
      cases hx
    · obtain ⟨⟨size, word⟩, -, h⟩ := bind_eq_ok.1 h
      simp only at h
      split at h
      · next hn =>
        cases h
        exact fitsName_numbered? hn
      · cases h
  · obtain ⟨x, hx, -⟩ := bind_eq_ok.1 h
    cases hx

/-- What a line inside a function does to labels, names and numbers. -/
inductive Extends (o : Outer) (d : Draft) : State → Prop where
  | same {o' : Outer} {d' : Draft} (funcs : o'.funcs = o.funcs)
      (high : o'.high.labels = o.high.labels)
      (vars : ∀ x ∈ o'.vars.toList, x ∈ o.vars.toList ∨ x.Sane) (name : d'.name = d.name)
      (stmts : d'.stmts = d.stmts)
      (pending : ∀ v ∈ d'.pending.toList, v ∈ d.pending.toList ∨ v.Sane) :
      Extends o d { outer := o', draft := some d' }
  | push {d' : Draft} {s : Stmt} (label : s.label? = none)
      (callee : ∀ g, s.callee? = some g → Solid g)
      (operands : ∀ v ∈ s.operands, v ∈ d.pending.toList ∨ v.Sane) (name : d'.name = d.name)
      (stmts : d'.stmts = d.stmts.push s) (pending : ∀ v ∈ d'.pending.toList, v ∈ d.pending.toList) :
      Extends o d { outer := o, draft := some d' }
  | mention {s : Stmt} {l : Int} (bounds : FitsName l)
      (label : s.label? = none ∨ s.label? = some l) (callee : s.callee? = none)
      (operands : ∀ v ∈ s.operands, v.Sane) : Extends o d (within (o.sawLabel l) d s)
  | close : Extends o d { outer := { o with funcs := o.funcs.push d.finish } }

/-- A statement that neither mentions a label nor calls a function is pushed and changes
nothing else. -/
theorem extends_within {s : Stmt} (hl : s.label? = none) (hc : s.callee? = none)
    (hv : ∀ v ∈ s.operands, v.Sane) : Extends o d (within o d s) :=
  .push hl (fun g hg => by rw [hc] at hg; cases hg) (fun v hmem => Or.inr (hv v hmem)) rfl rfl
    fun _ hmem => hmem

/-- The arguments of a call are those that wait. -/
theorem extends_pushCall {ret : Option Val} {w : String} (h : Solid w) (hret : ∀ v ∈ ret, v.Sane) :
    Extends o d { outer := o, draft := some (d.pushCall ret w) } := by
  refine .push (s := .call ret (funcName w) d.pending.toList) rfl
    (fun g hg => by cases hg; exact solid_funcName h) (fun v hv => ?_) rfl rfl
    fun v hv => by simp [Draft.pushCall] at hv
  simp only [Stmt.operands, Stmt.dst?, Stmt.sources, List.append_nil, List.mem_append,
    Option.mem_toList] at hv
  exact hv.symm.imp_right fun hv => hret v hv

/-- The right-hand side of an operation mentions no label and calls no function. -/
theorem extends_readBinary {dst : Val} {l op r : String} {s : Stmt} (hdst : dst.Sane)
    (h : readBinary o d ws dst l op r = .ok s) :
    s.label? = none ∧ s.callee? = none ∧ ∀ v ∈ s.operands, v.Sane := by
  unfold readBinary at h
  split at h
  · cases h
  · split at h
    · cases h
    · obtain ⟨lv, hl, h⟩ := bind_eq_ok.1 h
      obtain ⟨rv, hr, h⟩ := bind_eq_ok.1 h
      split at h
      · cases h
      · cases h
        exact ⟨rfl, rfl, by
          simp [Stmt.operands, Stmt.dst?, Stmt.sources, hdst, sane_readVal hl, sane_readVal hr]⟩

/-- An assignment pushes one statement. -/
theorem extends_readAssign {place : String} {rhs : List String} (hsolid : ∀ w ∈ rhs, Solid w)
    (h : readAssign o d ws place rhs = .ok st) : Extends o d st := by
  unfold readAssign at h
  obtain ⟨dst, hdst, h⟩ := bind_eq_ok.1 h
  have hdst := sane_readPlace hdst
  -- The right-hand side is told by its words: an operand, a call, a load or a unary operation,
  -- or an operation.
  split at h
  · obtain ⟨s, hs, h⟩ := bind_eq_ok.1 h
    cases h
    exact extends_within rfl rfl
      (by simp [Stmt.operands, Stmt.dst?, Stmt.sources, hdst, sane_readVal hs])
  · next callee =>
    cases h
    exact extends_pushCall (hsolid _ (by simp)) (by simpa using hdst)
  · split at h
    · obtain ⟨base, hbase, h⟩ := bind_eq_ok.1 h
      obtain ⟨off, -, h⟩ := bind_eq_ok.1 h
      cases h
      exact extends_within rfl rfl
        (by simp [Stmt.operands, Stmt.dst?, Stmt.sources, hdst, sane_readVal hbase])
    · split at h
      · cases h
      · obtain ⟨v, hv, h⟩ := bind_eq_ok.1 h
        cases h
        exact extends_within rfl rfl
          (by simp [Stmt.operands, Stmt.dst?, Stmt.sources, hdst, sane_readVal hv])
      · obtain ⟨v, hv, h⟩ := bind_eq_ok.1 h
        cases h
        exact extends_within rfl rfl
          (by simp [Stmt.operands, Stmt.dst?, Stmt.sources, hdst, sane_readVal hv])
  · obtain ⟨s, hs, h⟩ := bind_eq_ok.1 h
    cases h
    obtain ⟨hlabel, hcallee, hoperands⟩ := extends_readBinary hdst hs
    exact extends_within hlabel hcallee hoperands
  · cases h

/-- A branch pushes one statement and mentions its label. -/
theorem extends_readBranch (h : readBranch o d ws = .ok st) : Extends o d st := by
  unfold readBranch at h
  split at h
  · split at h
    · cases h
    · obtain ⟨lv, hl, h⟩ := bind_eq_ok.1 h
      obtain ⟨rv, hr, h⟩ := bind_eq_ok.1 h
      obtain ⟨t, ht, h⟩ := bind_eq_ok.1 h
      cases h
      exact .mention (fitsName_readLabel ht) (Or.inl rfl) rfl
        (by simp [Stmt.operands, Stmt.dst?, Stmt.sources, sane_readVal hl, sane_readVal hr])
  · cases h

/-- A declaration in a body pushes no statement. -/
theorem extends_readInnerDecl (h : readInnerDecl o d ws = .ok st) : Extends o d st := by
  -- a local gets an entry of the table
  have hlocal : ∀ {ws : List String} {name : String} {index : Int} {dims : Option (List Int)},
      readDecl ws = .ok (name, index, dims) → ∀ x ∈ (o.declare ⟨name, .loc, index, dims⟩).vars.toList,
        x ∈ o.vars.toList ∨ x.Sane := by
    intro ws name index dims hdecl x hx
    rw [Outer.declare, Array.toList_push, List.mem_append, List.mem_singleton] at hx
    refine hx.imp_right ?_
    rintro rfl
    exact ⟨fitsName_readDecl hdecl, fun hcls => by cases hcls⟩
  unfold readInnerDecl at h
  simp only at h
  split at h
  · split at h
    · split at h
      · cases h
      · split at h
        · cases h
        · cases h
          exact .same rfl rfl (fun x hx => Or.inl hx) rfl rfl fun v hv => Or.inl hv
    · obtain ⟨⟨name, index, dims⟩, hdecl, h⟩ := bind_eq_ok.1 h
      cases h
      exact .same rfl rfl (hlocal hdecl) rfl rfl fun v hv => Or.inl hv
  · obtain ⟨⟨name, index, dims⟩, hdecl, h⟩ := bind_eq_ok.1 h
    cases h
    exact .same rfl rfl (hlocal hdecl) rfl rfl fun v hv => Or.inl hv

/-- A zero fill pushes one statement. -/
theorem extends_readZeroFill {w : String} (h : readZeroFill o d w = .ok st) : Extends o d st := by
  unfold readZeroFill at h
  obtain ⟨v, hv, h⟩ := bind_eq_ok.1 h
  have hfill : Extends o d (within o d (.zeroFill v)) := extends_within rfl rfl
    (by simp [Stmt.operands, Stmt.dst?, Stmt.sources, sane_readPlace hv])
  simp only at h
  repeat' split at h
  all_goals first | cases h; exact hfill | cases h

/-- A line that starts with no keyword is a store or an assignment. -/
theorem extends_readByShape (hsolid : ∀ w ∈ ws, Solid w) (h : readByShape o d ws = .ok st) :
    Extends o d st := by
  unfold readByShape at h
  -- The shape `base index = src` is a store, unless `index` is the sign of an assignment.
  split at h
  · next base index src =>
    split at h
    · obtain ⟨b, hb, h⟩ := bind_eq_ok.1 h
      obtain ⟨off, -, h⟩ := bind_eq_ok.1 h
      obtain ⟨s, hs, h⟩ := bind_eq_ok.1 h
      cases h
      exact extends_within rfl rfl
        (by simp [Stmt.operands, Stmt.dst?, Stmt.sources, sane_readPlace hb, sane_readVal hs])
    · split at h
      · exact extends_readAssign (fun w hw => hsolid w (by simp at hw ⊢; tauto)) h
      · cases h
  · next place r rhs =>
    exact extends_readAssign (fun w hw => hsolid w (by simp at hw ⊢; tauto)) h
  · cases h

/-- A line in a body extends the draft or closes it. -/
theorem extends_readInner (hsolid : ∀ w ∈ ws, Solid w) (h : readInner o d ws = .ok st) :
    Extends o d st := by
  unfold readInner at h
  split at h
  · cases h
  · split at h
    · split at h
      · cases h
        exact .close
      · cases h
    -- One case for each keyword.
    · exact extends_readInnerDecl h
    · exact extends_readBranch h
    · cases h
      exact extends_within rfl rfl (by simp [Stmt.operands, Stmt.dst?, Stmt.sources])
    · split at h
      · obtain ⟨l, hl, h⟩ := bind_eq_ok.1 h
        cases h
        exact .mention (fitsName_readLabel hl) (Or.inr rfl) rfl
          (by simp [Stmt.operands, Stmt.dst?, Stmt.sources])
      · cases h
    · obtain ⟨l, hl, h⟩ := bind_eq_ok.1 h
      cases h
      exact .mention (fitsName_readLabel hl) (Or.inl rfl) rfl
        (by simp [Stmt.operands, Stmt.dst?, Stmt.sources])
    · obtain ⟨v, hv, h⟩ := bind_eq_ok.1 h
      cases h
      refine .same rfl rfl (fun x hx => Or.inl hx) rfl rfl fun x hx => ?_
      rw [Array.toList_push, List.mem_append, List.mem_singleton] at hx
      refine hx.imp_right ?_
      rintro rfl
      exact sane_readVal hv
    · cases h
      exact extends_pushCall (hsolid _ (by simp)) (by simp)
    · obtain ⟨v, hv, h⟩ := bind_eq_ok.1 h
      cases h
      refine .push rfl (fun g hg => by cases hg) (fun x hx => ?_) rfl rfl fun _ hmem => hmem
      simp only [Stmt.operands, Stmt.dst?, Stmt.sources, Option.toList_none, Option.toList_some,
        List.nil_append, List.append_nil, List.mem_singleton] at hx
      rw [hx]
      exact Or.inr (sane_readVal hv)
    · exact extends_readZeroFill h
    · exact extends_readByShape hsolid h

/-- What a line outside functions does: it goes on outside, or opens a function. -/
inductive Opens (o : Outer) : State → Prop where
  | outside {o' : Outer} (funcs : o'.funcs = o.funcs) (high : o'.high.labels = o.high.labels)
      (vars : ∀ x ∈ o'.vars.toList, x ∈ o.vars.toList ∨ x.Sane) : Opens o { outer := o' }
  | header {o' : Outer} {d : Draft} (funcs : o'.funcs = o.funcs)
      (high : o'.high.labels = o.high.labels)
      (vars : ∀ x ∈ o'.vars.toList, x ∈ o.vars.toList ∨ x.Sane) (name : Solid d.name)
      (stmts : d.stmts = #[]) (pending : d.pending = #[]) :
      Opens o { outer := o', draft := some d }

/-- A header opens a draft with its parameters. -/
theorem opens_readHeader (hsolid : ∀ w ∈ ws, Solid w) (h : readHeader o ws = .ok st) :
    Opens o st := by
  unfold readHeader at h
  split at h
  · next name count =>
    obtain ⟨argc, hargc, h⟩ := bind_eq_ok.1 h
    split at h
    · cases h
    · cases h
      refine .header rfl rfl (fun x hx => ?_) (solid_funcName (hsolid _ (by simp))) rfl rfl
      simp only [Array.toList_append, List.mem_append, Array.mem_toList_iff,
        Array.mem_map, Array.mem_range] at hx ⊢
      refine hx.imp_right ?_
      rintro ⟨i, hi, rfl⟩
      -- there are fewer parameters than a 32-bit count can say
      have hlt := readIndex_lt hargc
      have hindex : (paramVar i).index = i := rfl
      exact ⟨⟨by omega, by omega⟩, fun _ => by omega⟩
  · cases h

/-- A line outside of bodies declares a global, gives it a value or opens a function. -/
theorem opens_readOuter (hsolid : ∀ w ∈ ws, Solid w) (h : readOuter o ws = .ok st) :
    Opens o st := by
  unfold readOuter at h
  split at h
  · obtain ⟨⟨name, index, dims⟩, hdecl, h⟩ := bind_eq_ok.1 h
    cases h
    refine .outside rfl rfl fun x hx => ?_
    rw [Outer.declare, Array.toList_push, List.mem_append, List.mem_singleton] at hx
    refine hx.imp_right ?_
    rintro rfl
    exact ⟨fitsName_readDecl hdecl, fun hcls => by cases hcls⟩
  -- A header is told by the first letters of its name, an initial value by the sign.
  · split at h
    · exact opens_readHeader hsolid h
    · split at h
      · obtain ⟨var, -, h⟩ := bind_eq_ok.1 h
        obtain ⟨val, -, h⟩ := bind_eq_ok.1 h
        cases h
        exact .outside rfl rfl fun x hx => Or.inl hx
      · obtain ⟨var, -, h⟩ := bind_eq_ok.1 h
        obtain ⟨off, -, h⟩ := bind_eq_ok.1 h
        obtain ⟨val, -, h⟩ := bind_eq_ok.1 h
        cases h
        exact .outside rfl rfl fun x hx => Or.inl hx
      · cases h
  · cases h

/-- What holds of labels, names and numbers while text is read. -/
structure Outer.Sane (o : Outer) : Prop where
  low : 0 ≤ o.high.labels
  fits : o.high.labels < 9223372036854775808
  vars : ∀ x ∈ o.vars.toList, x.Sane
  funcs : ∀ f ∈ o.funcs.toList, f.Sane o.high.labels

/-- An open function in which everything can be printed, the operands of a pending call
included. -/
structure Draft.Sane (high : Int) (d : Draft) : Prop where
  func : d.finish.Sane high
  pending : ∀ v ∈ d.pending.toList, v.Sane

/-- A state of the reader in which everything can be printed. -/
structure State.Sane (st : State) : Prop where
  outer : st.outer.Sane
  draft : ∀ d, st.draft = some d → d.Sane st.outer.high.labels

/-- The table and the counter after a line that finishes no function. -/
theorem Outer.Sane.same (h : o.Sane) (hfuncs : o'.funcs = o.funcs)
    (hhigh : o'.high.labels = o.high.labels)
    (hvars : ∀ x ∈ o'.vars.toList, x ∈ o.vars.toList ∨ x.Sane) : o'.Sane := by
  refine ⟨?_, ?_, fun x hx => (hvars x hx).elim (h.vars x) id, ?_⟩
  · rw [hhigh]
    exact h.low
  · rw [hhigh]
    exact h.fits
  · rw [hfuncs, hhigh]
    exact h.funcs

/-- The counter stays above the labels it was above, and gets above a new one. -/
theorem Outer.Sane.sawLabel (h : o.Sane) {l : Int} (hl : FitsName l) :
    (o.sawLabel l).Sane ∧ o.high.labels ≤ (o.sawLabel l).high.labels ∧
      (l < (o.sawLabel l).high.labels ∨ l = 9223372036854775807) := by
  obtain ⟨h0, hmax⟩ := hl
  have hhigh : (o.sawLabel l).high.labels = max o.high.labels (wrap64 (l + 1)) := rfl
  have hlow := h.low
  have hfits := h.fits
  have hmax : o.high.labels ≤ (o.sawLabel l).high.labels := by
    rw [hhigh]
    exact Int.le_max_left ..
  -- The counter wraps at the last label, and then it stays where it is.
  have hwrap : (wrap64 (l + 1) = l + 1 ∧ l < 9223372036854775807) ∨
      (l = 9223372036854775807 ∧ wrap64 (l + 1) < 0) := by
    rw [wrap64, Int.bmod_def]
    split <;> omega
  refine ⟨⟨by omega, ?_, h.vars, fun f hf => (h.funcs f hf).mono hmax⟩, hmax, ?_⟩
  · rw [hhigh]
    omega
  · rw [hhigh]
    omega

/-- What a line in a body does keeps everything printable. -/
theorem Extends.sane (h : Extends o d st) (ho : o.Sane) (hd : d.Sane o.high.labels) : st.Sane := by
  -- One case for each way to extend a draft; only a mention of a label raises the bound of the
  -- labels.
  cases h with
  | same funcs high vars name stmts pending =>
    refine ⟨ho.same funcs high vars, ?_⟩
    rintro d ⟨⟩
    refine ⟨⟨?_, ?_⟩, fun v hv => (pending v hv).elim (hd.pending v) id⟩
    · rw [Draft.finish, name]
      exact hd.func.name
    · simp only [Draft.finish, stmts, high]
      exact hd.func.stmts
  | push label callee operands name stmts pending =>
    refine ⟨ho, ?_⟩
    rintro d ⟨⟩
    refine ⟨⟨?_, fun s hs => ?_⟩, fun v hv => hd.pending v (pending v hv)⟩
    · rw [Draft.finish, name]
      exact hd.func.name
    · simp only [Draft.finish, stmts, Array.toList_push, List.mem_append, List.mem_singleton] at hs
      rcases hs with hs | rfl
      · exact hd.func.stmts s hs
      · exact ⟨fun l hl => (by rw [label] at hl; cases hl), callee,
          fun v hv => (operands v hv).elim (hd.pending v) id⟩
  | mention bounds label callee operands =>
    obtain ⟨hsane, hmax, hl⟩ := ho.sawLabel bounds
    refine ⟨hsane, ?_⟩
    rintro d ⟨⟩
    refine ⟨⟨hd.func.name, fun s hs => ?_⟩, hd.pending⟩
    simp only [Draft.finish, Draft.push, Array.toList_push, List.mem_append,
      List.mem_singleton] at hs
    rcases hs with hs | rfl
    · exact (hd.func.stmts s hs).mono hmax
    · refine ⟨fun l' hl' => ?_, fun g hg => (by rw [callee] at hg; cases hg), operands⟩
      rcases label with hnone | hsome
      · rw [hnone] at hl'
        cases hl'
      · rw [hsome] at hl'
        cases hl'
        exact ⟨bounds.1, hl⟩
  | close =>
    refine ⟨⟨ho.low, ho.fits, ho.vars, fun f hf => ?_⟩, fun d hd => by cases hd⟩
    rw [Array.toList_push, List.mem_append, List.mem_singleton] at hf
    rcases hf with hf | rfl
    · exact ho.funcs f hf
    · exact hd.func

/-- What a line outside of bodies does keeps everything printable. -/
theorem Opens.sane (h : Opens o st) (ho : o.Sane) : st.Sane := by
  cases h with
  | outside funcs high vars => exact ⟨ho.same funcs high vars, fun d hd => by cases hd⟩
  | header funcs high vars name stmts pending =>
    refine ⟨ho.same funcs high vars, ?_⟩
    rintro d ⟨⟩
    refine ⟨⟨name, ?_⟩, ?_⟩
    · rw [Draft.finish, stmts]
      exact List.forall_mem_nil _
    · rw [pending]
      exact List.forall_mem_nil _

/-- Reading one line keeps everything printable. -/
theorem sane_readLine {cs : List Char} (hst : st.Sane) (h : readLine st cs = .ok st') : st'.Sane := by
  have hsolid : ∀ w ∈ Text.words (Text.splitComment cs).1, Solid w := fun w => solid_of_mem_words
  unfold readLine at h
  simp only at h
  split at h
  · cases h
    exact hst
  · exact (opens_readOuter hsolid h).sane hst.outer
  · next d hd =>
    -- a mark for a hand-written function changes neither labels nor names
    have hdraft := hst.draft d hd
    split at h
    · cases h
      refine ⟨hst.outer, ?_⟩
      rintro d' ⟨⟩
      split
      · exact ⟨⟨hdraft.func.name, hdraft.func.stmts⟩, hdraft.pending⟩
      · exact hdraft
    · refine (extends_readInner hsolid h).sane hst.outer ?_
      split
      · exact ⟨⟨hdraft.func.name, hdraft.func.stmts⟩, hdraft.pending⟩
      · exact hdraft

/-- Reading any lines keeps everything printable. -/
theorem sane_readLines {file : String} {ls : List (List Char)} {n : Nat} (hst : st.Sane)
    (h : readLines file n st ls = .ok st') : st'.Sane := by
  induction ls generalizing n st with
  | nil =>
    cases h
    exact hst
  | cons l ls ih =>
    unfold readLines at h
    split at h
    · cases h
    · next hl => exact ih (sane_readLine hst hl) h

end Program.Reader

open Program.Reader in
/-- Labels, names and numbers of a program that is read. -/
theorem Program.sane_of_parse {file text : String} {p : Program} (h : Program.parse file text = .ok p) :
    (0 ≤ p.counters.labels ∧ p.counters.labels < 9223372036854775808) ∧
      (∀ x ∈ p.vars.toList, x.Sane) ∧ ∀ f ∈ p.funcs, f.Sane p.counters.labels := by
  obtain ⟨st, hst, h⟩ := bind_eq_ok.1 h
  have hsane : st.Sane := sane_readLines
    ⟨⟨Int.le_refl 0, by decide, List.forall_mem_nil _, List.forall_mem_nil _⟩,
      fun d hd => by cases hd⟩ hst
  split at h
  · cases h
  · cases h
    exact ⟨⟨hsane.outer.low, hsane.outer.fits⟩, hsane.outer.vars, hsane.outer.funcs⟩

end Tac
