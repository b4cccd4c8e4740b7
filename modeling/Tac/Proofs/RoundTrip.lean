import Mathlib
import Tac.Proofs.Rereading

/-!
# Program text is read back

Reading the text of a printable program gives the relaid program, which has the same text.

* **`reads_func`** — the lines of a function, between its header and its end, add the function.
* **`reads_head`** — the lines before the functions add the globals and their initial values.
* **`Program.parse_text`** — the text of a printable program is read as the relaid program.
-/

namespace Tac

namespace Program.Reader

open Text Printer InText

/-! ## Declarations -/

section Declarations

variable {v : Var}

/-- The words after `var` that declare a variable. -/
def declWords (v : Var) : List String :=
  if v.isArray then [decimal v.bytes, v.text] else [v.text]

/-- A declaration is a row of words on a line of its own. -/
theorem toList_decl (before : String) (v : Var) :
    (decl before v).toList = before.toList ++ row ("var" :: declWords v) ++ ['\n'] := by
  unfold decl declWords
  split <;> simp [row, String.toList_append]

/-- A variable is printed like an operand. -/
theorem isOperand_text (v : Var) : IsOperand v.text := by
  refine (name_spelled (toList_text v) ?_).1
  split
  · exact Or.inr (Or.inl rfl)
  · exact Or.inr (Or.inr rfl)

/-- A declaration is made of words. -/
theorem isWord_declWords (v : Var) : ∀ w ∈ "var" :: declWords v, IsWord w := by
  refine List.forall_mem_cons.2 ⟨isWord_keyword _ (by simp), ?_⟩
  unfold declWords
  split
  · exact List.forall_mem_cons.2
      ⟨(isOperand_decimal _).word, List.forall_mem_singleton.2 (isOperand_text v).word⟩
  · exact List.forall_mem_singleton.2 (isOperand_text v).word

/-- The name of a declared variable is a number behind its marker. -/
theorem numbered?_text (h : v.Declarable) : numbered? 'T' v.text = some v.index := by
  have hw := toList_text v
  rw [if_neg h.cls] at hw
  exact numbered?_of_toList hw h.index

/-- A declaration is read as the variable itself. -/
theorem readDecl_declWords (h : v.Declarable) (cls : VarClass) :
    readDecl (declWords v) = .ok (v.text, v.index, (v.reread cls).dims) := by
  unfold declWords Var.reread
  split
  · next harray =>
    obtain ⟨hpos, hsmall⟩ := h.bytes harray
    -- An array is written with its bytes, which are a multiple of four and not zero.
    have hsize : ¬ (v.bytes ≤ 0 ∨ v.bytes % 4 ≠ 0) := by
      have := v.four_dvd_bytes
      omega
    have hfits : Fits32 v.bytes := ⟨by omega, hsmall⟩
    simp only [readDecl, readConst_decimal hfits, bind, Except.bind, if_neg hsize,
      numbered?_text h, pure, Except.pure]
  · simp only [readDecl, bind, Except.bind, numbered?_text h, pure, Except.pure]

end Declarations

/-! ## Functions -/

/-- One more position is added at the end of a block. -/
theorem positions_succ (b n : Nat) :
    Relaid.positions b (n + 1) = Relaid.positions b n ++ [((b + n : Nat) : VarId)] := by
  rw [Relaid.positions, List.range_succ, List.map_append]
  rfl

/-- The size of the table with the block of one more function. -/
theorem size_more (p : Program) (f : Func) :
    (more p f).relaid.vars.size = base p + (f.params.length + f.locals.length) := by
  simp only [vars_more, Array.size_append, List.size_toArray, Relaid.length_block, base]

/-- What is declared inside a function under a name that no temporary has is a local. -/
theorem readInnerDecl_local {o : Outer} {d : Draft} {ws : List String} {name : String} {index : Int}
    {dims : Option (List Int)} (h : readDecl ws = .ok (name, index, dims))
    (hno : ∀ w, ws = [w] → ['t'].isPrefixOf w.toList = false) : readInnerDecl o d ws =
      .ok { outer := o.declare { name, cls := .loc, index, dims }
            draft := some { d with
              locals := d.locals.push (o.vars.size : Nat)
              scope := d.scope.insert index (o.vars.size : Nat) } } := by
  unfold readInnerDecl
  simp only [h, bind, Except.bind]
  split
  · next w =>
    exact if_neg (Bool.eq_false_iff.1 (hno w rfl))
  · rfl

/-- A line that begins like a function name is a header. -/
theorem readOuter_header {o : Outer} {w : String} {cs : List Char} {ws : List String}
    (hw : w.toList = 'f' :: '_' :: cs) : readOuter o (w :: ws) = readHeader o (w :: ws) := by
  have hvar : w ≠ "var" := by
    rintro rfl
    simp at hw
  have hmark : ['f', '_'].isPrefixOf w.toList = true := by
    rw [hw]
    rfl
  unfold readOuter
  -- A header is told by its first word, which is not the keyword of a declaration.
  split
  · next heq => exact absurd (List.cons.inj heq).1 hvar
  · next heq =>
    obtain ⟨rfl, rfl⟩ := List.cons.inj heq
    rw [if_pos hmark]
  · next heq => cases heq

section Function

variable (p : Program) (f : Func)

/-- One more local is one more entry of the table. -/
theorem outer_local (id : VarId) : outer p (more p { f with locals := f.locals ++ [id] }) =
    (outer p (more p f)).declare ((p.vars.at id).reread .loc) := by
  rw [outer_more, outer_more]
  simp only [Relaid.block, Relaid.indexes, List.map_append, List.map_singleton, ← List.append_assoc,
    Relaid.above_concat, Outer.declare, ← List.append_toArray, Array.push_eq_append,
    Array.append_assoc]
  rfl

/-- One more local of the open function. -/
theorem draft_local (hf : f.stmts = []) (id : VarId) :
    draft p { f with locals := f.locals ++ [id] } [] =
      { draft p f [] with
        locals := (draft p f []).locals.push ((base p + f.params.length + f.locals.length : Nat) : VarId)
        scope := (draft p f []).scope.insert (p.vars.at id).index
          ((base p + f.params.length + f.locals.length : Nat) : VarId) } := by
  simp only [draft, hf, List.length_append, List.length_singleton, positions_succ, scope_concat,
    List.push_toArray]
  rfl

/-- One more temporary raises the bound of the temporaries. -/
theorem outer_temp (t : Int) : outer p (more p { f with temps := f.temps ++ [t] }) =
    (outer p (more p f)).sawTemp t := by
  rw [outer_more, outer_more]
  simp only [Relaid.block, ← List.append_assoc, Relaid.above_concat, Outer.sawTemp]

/-- One more temporary of the open function. -/
theorem draft_temp (t : Int) : draft p { f with temps := f.temps ++ [t] } [] =
    { draft p f [] with
      temps := (draft p f []).temps.push t
      declared := (draft p f []).declared.insert t () } := by
  simp only [draft, List.push_toArray, declared, List.foldl_append]
  rfl

/-- The declaration of a local inside a function without statements adds the local. -/
theorem reads_local (hf : f.stmts = []) {id : VarId} {v : Var} (hv : p.vars.get? id = some v)
    (h : v.Declarable) :
    Reads (decl indent v) (opened p f []) (opened p { f with locals := f.locals ++ [id] } []) := by
  refine .words indent_blank (isWord_declWords v) (List.cons_ne_nil _ _) (toList_decl indent v) ?_
  show readInner (outer p (more p f)) (draft p f []) ("var" :: declWords v) = _
  -- A scalar is declared by one word, which does not begin like that of a temporary.
  have hno : ∀ w, declWords v = [w] → ['t'].isPrefixOf w.toList = false := by
    intro w hw
    unfold declWords at hw
    split at hw
    · simp at hw
    · rw [← (List.cons.inj hw).1, toList_text v, if_neg h.cls]
      rfl
  have hlocal : (p.vars.at id).reread .loc = v.reread .loc := by rw [VarTable.at_eq hv]
  simp only [readInner, not_waiting (Or.inl (show (draft p f []).pending = #[] from rfl)),
    Bool.false_eq_true, if_false, readInnerDecl_local (readDecl_declWords h .loc) hno]
  have hsize : (outer p (more p f)).vars.size = base p + f.params.length + f.locals.length :=
    (size_more p f).trans (Nat.add_assoc ..).symm
  rw [opened, outer_local, draft_local p f hf, VarTable.at_eq hv, hsize]
  rfl

/-- The declaration of a temporary adds it. -/
theorem reads_temp {t : Int} (ht : FitsName t) (hnew : t ∉ f.temps) :
    Reads (line ("var t" ++ decimal t)) (opened p f []) (opened p { f with temps := f.temps ++ [t] } []) := by
  have hname : ("t" ++ decimal t).toList = 't' :: (decimal t).toList := by
    simp [String.toList_append]
  refine .indented ["var", "t" ++ decimal t] (by simp) ?_ (by simp [row, String.toList_append]) ?_
  · simp only [List.forall_mem_cons]
    exact ⟨isWord_keyword _ (by simp), (isOperand_name hname (by decide)).word, List.forall_mem_nil _⟩
  -- The first letter tells a temporary from a local.
  · have hmark : ['t'].isPrefixOf ("t" ++ decimal t).toList = true := by rw [hname]; rfl
    have hdecl : (draft p f []).declared.contains t = false :=
      (contains_declared f.temps t).trans (decide_eq_false hnew)
    simp only [readInner, not_waiting (Or.inl (show (draft p f []).pending = #[] from rfl)),
      Bool.false_eq_true, if_false, readInnerDecl, hmark, if_true, numbered?_of_toList hname ht, hdecl]
    rw [opened, outer_temp, draft_temp]
    rfl

/-- A mark names the hand-written implementation. -/
theorem reads_builtin {b : String} (hb : IsWord b) :
    Reads (line ("// builtin " ++ b)) (opened p f []) (opened p { f with builtin := some b } []) := by
  have hblank : ∀ c ∈ [' '], isBlank c = true := List.forall_mem_singleton.2 (by decide)
  have hwords : ∀ w ∈ ["builtin", b], IsWord w := by
    simp only [List.forall_mem_cons]
    exact ⟨isWord_keyword _ (by simp), hb, List.forall_mem_nil _⟩
  have hcomment : ("// builtin " ++ b).toList = '/' :: '/' :: ([' '] ++ row ["builtin", b]) := by
    simp [row, String.toList_append]
  have hindent : indent.toList = [' ', ' ', ' ', ' '] := rfl
  -- The mark is a comment, so it has to be found behind the two slashes.
  have hsplit : splitComment (indent.toList ++ ("// builtin " ++ b).toList) =
      (indent.toList, some ([' '] ++ row ["builtin", b])) := by
    rw [hcomment, hindent]
    rfl
  have hno : words indent.toList = [] := by
    have h := words_row (fun c hc => (indent_blank c hc).1) (List.forall_mem_nil IsWord)
    rwa [row, List.append_nil] at h
  have hmark : builtinMark? (some ([' '] ++ row ["builtin", b])) = some b := by
    rw [builtinMark?, Option.map_some, words_row hblank hwords]
    rfl
  refine .line (toList_line _) ?_ ?_
  · rw [hcomment, List.mem_append]
    refine fun h => h.elim (fun h => (indent_blank _ h).2 rfl) fun h => ?_
    simp only [List.mem_cons, List.singleton_append] at h
    exact h.elim (by decide) fun h => h.elim (by decide) fun h => h.elim (by decide)
      (not_mem_row hwords)
  · rw [readLine, hsplit]
    simp only [hno, opened, hmark]
    rw [outer_more, outer_more]
    rfl

/-- The parameters are the first variables of a function. -/
theorem addParams_eq (n : Nat) : addParams p.relaid.vars n =
    (p.relaid.vars ++ ((List.range n).map paramVar).toArray, (Relaid.positions (base p) n).toArray) := by
  rw [addParams, ← List.toArray_range, List.map_toArray, List.map_toArray]
  rfl

/-- What a header opens. -/
theorem opened_header : opened p { name := f.name, void := true, params := f.params } [] =
    { outer := { outer p p with vars := (addParams p.relaid.vars f.params.length).1 }
      draft := some { name := f.name, params := (addParams p.relaid.vars f.params.length).2 } } := by
  rw [opened, outer_more, addParams_eq, Relaid.block]
  simp only [List.map_nil, List.flatMap_nil, List.append_nil]
  rfl

/-- The header opens a function without anything in it but its parameters. -/
theorem reads_header (hname : IsWord f.name) (hfew : f.params.length < 2147483648) :
    Reads ("f_" ++ f.name ++ " [" ++ decimal f.params.length ++ "]\n") (closed p)
      (opened p { name := f.name, void := true, params := f.params } []) := by
  have hlist : ("f_" ++ f.name).toList = 'f' :: '_' :: f.name.toList := by
    simp [String.toList_append]
  -- The number of parameters is read with 32 bits.
  have hcount : readIndex ("[" ++ decimal f.params.length ++ "]") = .ok (f.params.length : Int) :=
    readIndex_decimal ⟨by omega, by omega⟩
  refine .outside ["f_" ++ f.name, "[" ++ decimal f.params.length ++ "]"] (by simp) ?_
    (by simp [row, String.toList_append]) ?_
  · simp only [List.forall_mem_cons]
    exact ⟨isWord_func hname, isWord_index _, List.forall_mem_nil _⟩
  · rw [readOuter_header hlist, readHeader, hcount]
    have hneg : ¬ ((f.params.length : Int) < 0) := by omega
    simp only [bind, Except.bind, if_neg hneg, Int.toNat_natCast, funcName_marked]
    rw [opened_header]
    rfl

/-- The end closes the function. -/
theorem reads_end (hname : IsWord f.name) (hvoid : f.stmts.all givesNothing = f.void) :
    Reads ("end f_" ++ f.name ++ "\n") (opened p f []) (closed (more p f)) := by
  refine .inside ["end", "f_" ++ f.name] (by simp) ?_ (by simp [row, String.toList_append]) ?_
  · simp only [List.forall_mem_cons]
    exact ⟨isWord_keyword _ (by simp), isWord_func hname, List.forall_mem_nil _⟩
  · simp only [readInner, not_waiting (Or.inl (show (draft p f []).pending = #[] from rfl)),
      Bool.false_eq_true, if_false]
    -- The function that is closed is the one that was opened, with what its returns say about
    -- a result.
    have hfinish : (draft p f []).finish = Relaid.func p.globals (base p) f := by
      rw [Draft.finish, draft, hvoid]
      rfl
    rw [if_pos (show ["f_" ++ f.name] = ["f_" ++ (draft p f []).name] from rfl), hfinish]
    have houter : outer (more p f) (more p f) =
        { outer p (more p f) with
          funcs := (outer p (more p f)).funcs.push (Relaid.func p.globals (base p) f) } := by
      rw [outer, funcs_more, ← List.push_toArray]
      rfl
    rw [closed, houter]
    rfl

/-- Whether the function gives a value is found at its end. -/
theorem opened_void (void : Bool) (args : List Val) : opened p { f with void } args = opened p f args := by
  rw [opened, opened, outer_more, outer_more]
  rfl

variable {f} (hg : Declared p.vars p.globals) (hf : Function p.vars p.globals f)

include hf

/-- A function gives nothing just if none of its returns does. -/
theorem void_eq : f.stmts.all givesNothing = f.void := by
  rw [Bool.eq_iff_iff, List.all_eq_true, hf.void_iff]
  constructor
  · intro h v hv
    exact absurd (h _ hv) (by simp [givesNothing])
  · intro h s hs
    cases s with
    | ret v =>
      cases v with
      | none => rfl
      | some v => exact absurd hs (h v)
    | _ => rfl

/-- The declarations of the locals are read back. -/
theorem reads_locals {g : Func} (hstmts : g.stmts = []) :
    Reads (decls p.vars indent f.locals) (opened p { g with locals := [] } [])
      (opened p { g with locals := f.locals } []) := by
  refine .join (fun pre => opened p { g with locals := pre } []) fun pre id post hsplit => ?_
  obtain ⟨v, hv, hdecl⟩ := hf.locals id (hsplit ▸ by simp)
  rw [hv, Option.map_some, Option.getD_some]
  exact reads_local p { g with locals := pre } hstmts hv hdecl

/-- The declarations of the temporaries are read back. -/
theorem reads_temps {g : Func} :
    Reads (String.join (f.temps.map fun t => line ("var t" ++ decimal t)))
      (opened p { g with temps := [] } []) (opened p { g with temps := f.temps } []) := by
  refine .join (fun pre => opened p { g with temps := pre } []) fun pre t post hsplit => ?_
  have hnodup := hf.temps_nodup
  rw [hsplit, List.nodup_middle] at hnodup
  exact reads_temp p { g with temps := pre } (hf.temps t (hsplit ▸ by simp))
    fun h => (List.nodup_cons.1 hnodup).1 (List.mem_append_left _ h)

include hg

/-- The statements of a body are read back. -/
theorem reads_stmts :
    Reads (String.join (f.stmts.map (Printer.stmt (plain p.vars)))) (opened p { f with stmts := [] } [])
      (opened p f []) :=
  .join (fun pre => opened p { f with stmts := pre } []) fun pre s post hsplit =>
    reads_stmt p pre hg hf (hf.stmts s (hsplit ▸ by simp))

/-- The lines of a function add the function. -/
theorem reads_func : Reads (f.text p.vars none) (closed p) (closed (more p f)) := by
  have hheader := reads_header p f hf.name hf.few
  have hbuiltin : Reads (f.builtin.elim "" fun b => line ("// builtin " ++ b))
      (opened p { name := f.name, void := true, params := f.params } [])
      (opened p { name := f.name, void := true, params := f.params, builtin := f.builtin } []) := by
    cases hb : f.builtin with
    | none => exact .nil
    | some b => exact reads_builtin p _ (hf.builtin b hb)
  -- The parts in the order in which they are printed; each picks up where the one before left
  -- the draft.
  have hlocals := reads_locals p hf
    (g := { name := f.name, void := true, params := f.params, builtin := f.builtin }) rfl
  have htemps := reads_temps p hf (g := { { f with stmts := [] } with void := true })
  have hstmts := reads_stmts p hg hf
  rw [← opened_void p { f with stmts := [] } true] at hstmts
  have hend := reads_end p f hf.name (void_eq p hf)
  have hall := ((((hheader.append hbuiltin).append hlocals).append htemps).append hstmts).append hend
  rw [Relaid.func_text]
  simpa only [String.append_assoc] using hall

end Function

/-! ## Globals -/

section Globals

variable (p : Program)

/-- One more global is one more entry of the table. -/
theorem outer_global (hi : p.inits = []) (hf : p.funcs = []) (id : VarId) :
    outer { p with globals := p.globals ++ [id] } { p with globals := p.globals ++ [id] } =
      { (outer p p).declare ((p.vars.at id).reread .global) with
        globals := (outer p p).globals.push (p.globals.length : Nat)
        scope := (outer p p).scope.insert (p.vars.at id).index (p.globals.length : Nat) } := by
  have hpositions := positions_succ 0 p.globals.length
  rw [Nat.zero_add] at hpositions
  simp only [outer, Program.relaid, Relaid.heads, Relaid.indexes, hi, hf, List.map_nil,
    List.flatMap_nil, List.append_nil, List.map_append, List.map_singleton, Relaid.above_concat,
    Outer.declare, List.push_toArray, List.length_append, List.length_singleton, hpositions,
    scope_concat, Nat.zero_add, Relaid.funcs]
  rfl

/-- The declaration of a global, before anything else, adds the global. -/
theorem reads_global (hi : p.inits = []) (hf : p.funcs = []) {id : VarId} {v : Var}
    (hv : p.vars.get? id = some v) (h : v.Declarable) :
    Reads (decl "" v) (closed p) (closed { p with globals := p.globals ++ [id] }) := by
  refine .outside _ (List.cons_ne_nil _ _) (isWord_declWords v) (toList_decl "" v) ?_
  have hsize : (outer p p).vars.size = p.globals.length := by
    simp [outer, vars_relaid, hf, Relaid.heads]
  simp only [readOuter, readDecl_declWords h .global, bind, Except.bind, hsize]
  rw [closed, outer_global p hi hf, VarTable.at_eq hv]
  rfl

variable {p}

/-- A line outside functions that neither declares nor opens one is an initial value. -/
theorem readOuter_rest {o : Outer} {w : String} {ws : List String} (hvar : w ≠ "var")
    (hmark : ['f', '_'].isPrefixOf w.toList = false) : readOuter o (w :: ws) =
      match ws with
      | ["=", value] => do
        let var ← readGlobal o w
        let val ← readConst value
        pure { outer := { o with inits := o.inits.push { var, off := -1, val } } }
      | [index, "=", value] => do
        let var ← readGlobal o w
        let off ← readIndex index
        let val ← readConst value
        pure { outer := { o with inits := o.inits.push { var, off, val } } }
      | _ => .error (.unexpected (w :: ws)) := by
  unfold readOuter
  split
  -- Declarations and headers are told by their first word.
  · next heq => exact absurd (List.cons.inj heq).1 hvar
  · next heq =>
    obtain ⟨rfl, rfl⟩ := List.cons.inj heq
    exact if_neg (Bool.eq_false_iff.1 hmark)
  · next heq => cases heq

/-- One more initial value. -/
theorem outer_init (hf : p.funcs = []) (i : Init) :
    outer { p with inits := p.inits ++ [i] } { p with inits := p.inits ++ [i] } =
      { outer p p with inits := (outer p p).inits.push (Relaid.init p.globals i) } := by
  simp only [outer, Program.relaid, hf, List.map_append, List.map_singleton, List.push_toArray]

/-- The line of an initial value, before all functions, adds the value. -/
theorem reads_init (hg : Declared p.vars p.globals) (hdistinct : (Relaid.indexes p.vars p.globals).Nodup)
    (hf : p.funcs = []) {i : Init} (hmem : i.var ∈ p.globals) (hoff : i.off = -1 ∨ 0 ≤ i.off)
    (hfits : Fits32 i.off ∧ Fits32 i.val) :
    Reads (initText p.vars i) (closed p) (closed { p with inits := p.inits ++ [i] }) := by
  obtain ⟨v, hv, hdecl⟩ := hg _ hmem
  have hw := isOperand_text v
  have hmark : ['f', '_'].isPrefixOf v.text.toList = false := by
    rw [toList_text v, if_neg hdecl.cls]
    rfl
  -- The global is found by its printed number, which no other has.
  have hglobal : readGlobal (outer p p) v.text = .ok ((p.globals.idxOf i.var : Nat) : VarId) := by
    have hscope := scope_of_getElem? hdistinct 0 (List.getElem?_idxOf hmem)
    rw [VarTable.at_eq hv, Nat.zero_add] at hscope
    have hfind : ((numbered? 'T' v.text).bind fun n => (outer p p).scope[n]?) =
        some ((p.globals.idxOf i.var : Nat) : VarId) := by
      rw [numbered?_text hdecl, Option.bind_some]
      exact hscope
    rw [readGlobal, hfind]
  have hclosed : closed { p with inits := p.inits ++ [i] } =
      { outer := { outer p p with inits := (outer p p).inits.push (Relaid.init p.globals i) } } := by
    rw [closed, outer_init hf]
  rw [initText, hv, Option.map_some, Option.getD_some, hclosed]
  -- A scalar is initialized without an index.
  split
  · next hneg =>
    have hoff' : i.off = -1 := by omega
    refine .outside [v.text, "=", decimal i.val] (by simp) ?_ (by simp [row, String.toList_append]) ?_
    · simp only [List.forall_mem_cons]
      exact ⟨hw.word, isWord_keyword _ (by simp), (isOperand_decimal _).word, List.forall_mem_nil _⟩
    · rw [readOuter_rest (hw.ne (by decide)) hmark]
      simp only [hglobal, readConst_decimal hfits.2, bind, Except.bind, pure, Except.pure, ← hoff']
      rfl
  · next hneg =>
    refine .outside [v.text, "[" ++ decimal i.off ++ "]", "=", decimal i.val] (by simp) ?_
      (by simp [row, String.toList_append]) ?_
    · simp only [List.forall_mem_cons]
      exact ⟨hw.word, isWord_index _, isWord_keyword _ (by simp), (isOperand_decimal _).word,
        List.forall_mem_nil _⟩
    · rw [readOuter_rest (hw.ne (by decide)) hmark]
      simp only [hglobal, readIndex_decimal hfits.1, readConst_decimal hfits.2, bind, Except.bind,
        pure, Except.pure]
      rfl

end Globals

/-! ## Programs -/

/-- An empty line between functions changes nothing. -/
theorem reads_newline {st : State} (h : st.draft = none) : Reads "\n" st st := by
  refine .line (l := []) (by simp) List.not_mem_nil ?_
  rw [readLine, h]
  rfl

/-- Functions are read one after the other; an empty line between them changes nothing. -/
theorem Reads.appendFuncs {text : Func → String} (state : List Func → State)
    (hdraft : ∀ fs, (state fs).draft = none) {fs : List Func} {st : State} {written : String}
    (hwritten : Reads written st (state []))
    (h : ∀ pre f post, fs = pre ++ f :: post → Reads (text f) (state pre) (state (pre ++ [f]))) :
    Reads (Program.appendFuncs written (fs.map text)) st (state fs) := by
  have hfrom : ∀ post pre written, fs = pre ++ post → Reads written st (state pre) →
      Reads (Program.appendFuncs written (post.map text)) st (state fs) := by
    intro post
    -- On the functions that are left to read; those before are in the state already.
    induction post with
    | nil =>
      intro pre written hfs hwritten
      rw [List.append_nil] at hfs
      rw [hfs]
      exact hwritten
    | cons f post ih =>
      intro pre written hfs hwritten
      refine ih (pre ++ [f]) _ (by rw [hfs, List.append_assoc]; rfl) (.append (.append hwritten ?_) (h pre f post hfs))
      split
      · exact .nil
      · exact reads_newline (hdraft pre)
  exact hfrom fs [] written rfl hwritten

variable {p : Program}

/-- The whole text is read. -/
theorem reads_text (hp : p.Printable) : Reads (p.text []) {} (closed p) := by
  -- Globals, initial values and functions, each list read from its front.
  have hglobals : Reads (decls p.vars "" p.globals) {} (closed { p with inits := [], funcs := [] }) := by
    refine .join (fun pre => closed { p with globals := pre, inits := [], funcs := [] })
      fun pre id post hsplit => ?_
    obtain ⟨v, hv, hdecl⟩ := hp.globals id (hsplit ▸ by simp)
    rw [hv, Option.map_some, Option.getD_some]
    exact reads_global { p with globals := pre, inits := [], funcs := [] } rfl rfl hv hdecl
  have hinits : Reads (String.join (p.inits.map (initText p.vars)))
      (closed { p with inits := [], funcs := [] }) (closed { p with funcs := [] }) := by
    refine .join (fun pre => closed { p with inits := pre, funcs := [] }) fun pre i post hsplit => ?_
    obtain ⟨hmem, hoff, hfits⟩ := hp.inits i (hsplit ▸ by simp)
    exact reads_init (p := { p with inits := pre, funcs := [] }) hp.globals hp.distinct rfl hmem hoff
      hfits
  rw [text_nil]
  refine .appendFuncs (fun pre => closed { p with funcs := pre }) (fun _ => rfl)
    (hglobals.append hinits) fun pre f post hsplit => ?_
  exact reads_func { p with funcs := pre } hp.globals (hp.funcs f (hsplit ▸ by simp))

end Program.Reader

open Program.Reader Text in
/-- The text of a printable program is read as the relaid program. -/
theorem Program.parse_printable {p : Program} (hp : p.Printable) (file : String) :
    Program.parse file (p.text []) = .ok p.relaid := by
  obtain ⟨ls, hls, hlines, hread⟩ := reads_text hp
  have hlast : readLines file 1 {} (ls ++ [[]]) = .ok (closed p) := by
    rw [readLines_append (hread file 1)]
    rfl
  rw [Program.parse, hls, lines_rows hlines]
  simp only [hlast, bind, Except.bind]
  rfl

/-- The text of a printable program is read as the relaid program, which has the same text. -/
theorem Program.parse_text {p : Program} (hp : p.Printable) (file : String) :
    ∃ t, p.plainText? = some t ∧ Program.parse file t = .ok p.relaid ∧
      p.relaid.plainText? = some t := by
  obtain ⟨htext, htext'⟩ := text_relaid hp
  exact ⟨p.text [], htext, Program.parse_printable hp file, htext'⟩

/-- A global array with an initial value, and a function that fills a local array, stores an argument
and branches. -/
def fillingProgram : Program where
  vars := #[⟨"g", .global, 3, some [2, 2]⟩, ⟨"n", .arg, 0, none⟩, ⟨"a", .loc, 4, some [3]⟩]
  globals := [0]
  inits := [⟨0, 8, -7⟩]
  funcs := [
    { name := "fill", void := true, params := [1], locals := [2], temps := [5]
      stmts := [.zeroFill (.var 2), .store (.var 2) 4 (.var 1), .load (.temp 5) (.var 0) 8,
        .branch (.temp 5) .lt (.const 0) 1, .unary (.temp 5) .neg (.temp 5),
        .call (some (.temp 5)) "sum" [.var 2, .const 3], .label 1, .ret none] }]

open InText in
/-- The example can be printed. -/
theorem printable_filling : fillingProgram.Printable where
  globals := List.forall_mem_singleton.2 ⟨_, rfl, by decide, by decide, fun _ => by decide⟩
  distinct := by decide
  inits := List.forall_mem_singleton.2 ⟨by decide, by decide, by decide, by decide⟩
  funcs := by
    have hword : ∀ w ∈ ["fill", "sum"], Text.IsWord w := by
      simp only [List.forall_mem_cons]
      refine ⟨?_, ?_, List.forall_mem_nil _⟩ <;>
        exact Text.isWord_of_forall (by decide) (by simp; decide)
    refine List.forall_mem_singleton.2
      { name := hword _ (by decide)
        builtin := fun b hb => by cases hb
        few := by decide
        params := fun k id hk => ?_
        locals := List.forall_mem_singleton.2 ⟨_, rfl, by decide, by decide, fun _ => by decide⟩
        distinct := by decide
        temps := by decide
        temps_nodup := by decide
        stmts := ?_
        void_iff := ?_ }
    · cases k with
      | zero =>
        cases hk
        exact ⟨_, rfl, rfl, rfl⟩
      | succ k => cases hk
    -- The statements one by one, in the order of the body.
    · simp only [List.forall_mem_cons]
      exact ⟨⟨2, by decide, rfl, by decide⟩, ⟨by decide, by decide, by decide⟩,
        ⟨by decide, by decide, by decide⟩, ⟨by decide, by decide, by decide⟩,
        ⟨by decide, by decide, by decide⟩, ⟨by decide, hword _ (by decide), by decide⟩,
        ⟨by decide, by decide⟩, (fun x hx => by cases hx), List.forall_mem_nil _⟩
    · exact ⟨fun _ v => by simp, fun _ => rfl⟩

/-- A program with arrays, an initial value and all that a statement can mention. -/
theorem Program.parse_text_filling : fillingProgram.Printable ∧ ∃ t,
    fillingProgram.plainText? = some t ∧ Program.parse "fill.tac" t = .ok fillingProgram.relaid ∧
      fillingProgram.relaid.plainText? = some t :=
  ⟨printable_filling, Program.parse_text printable_filling "fill.tac"⟩

end Tac
