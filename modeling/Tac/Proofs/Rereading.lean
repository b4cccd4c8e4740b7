import Mathlib
import Tac.Proofs.Coloring
import Tac.Proofs.Reading
import Tac.Proofs.Relaid

/-!
# Statements are read back

While the text of a program is read, the state of the reader is that of a smaller program: the globals,
initial values and functions that were read, and of the function being read the declarations and
statements so far.

* **`Reads`** — a piece of text leads the reader from one state to another; pieces are put together by
  `Reads.append` and `Reads.join`.
* **`closed`**, **`opened`** — the states between functions and inside one.
* **`readPlace_plain`**, **`readVal_plain`** — operands are read back at their new positions.
* **`reads_stmt`** — the lines of a statement add the statement.
-/

namespace Tac

namespace Program.Reader

open Text Printer

/-! ## Pieces of text -/

/-- The text is made of whole lines and leads from one state to the other. -/
def Reads (s : String) (st st' : State) : Prop :=
  ∃ ls, s.toList = rows ls ∧ (∀ l ∈ ls, '\n' ∉ l) ∧ ∀ file n, readLines file n st ls = .ok st'

variable {st st' st'' : State} {s t : String}

/-- Lines behind lines, if the first ones are read without an error; the count of lines
goes on. -/
theorem readLines_append {file : String} {ls ks : List (List Char)} {n : Nat}
    (h : readLines file n st ls = .ok st') :
    readLines file n st (ls ++ ks) = readLines file (n + ls.length) st' ks := by
  -- On the lines of the first part, each of which is read before those of the second.
  induction ls generalizing n st with
  | nil =>
    cases h
    rfl
  | cons l ls ih =>
    rw [List.cons_append, readLines]
    rw [readLines] at h
    split at h
    · cases h
    · rw [ih h, List.length_cons, Nat.add_assoc, Nat.add_comm 1]

theorem Reads.nil : Reads "" st st := ⟨[], rfl, List.forall_mem_nil _, fun _ _ => rfl⟩

/-- Text behind text. -/
theorem Reads.append (h : Reads s st st') (h' : Reads t st' st'') : Reads (s ++ t) st st'' := by
  obtain ⟨ls, hs, hls, hread⟩ := h
  obtain ⟨ks, ht, hks, hread'⟩ := h'
  refine ⟨ls ++ ks, ?_, List.forall_mem_append.2 ⟨hls, hks⟩, fun file n => ?_⟩
  · rw [String.toList_append, hs, ht, rows_append]
  · rw [readLines_append (hread file n), hread']

/-- A list is read item by item. -/
theorem Reads.join {α : Type} {text : α → String} (state : List α → State) {xs : List α}
    (h : ∀ pre x post, xs = pre ++ x :: post → Reads (text x) (state pre) (state (pre ++ [x]))) :
    Reads (String.join (xs.map text)) (state []) (state xs) := by
  -- On the items that are left, for any items that were read before.
  have hfrom : ∀ post pre, xs = pre ++ post →
      Reads (String.join (post.map text)) (state pre) (state xs) := by
    intro post
    induction post with
    | nil =>
      intro pre hxs
      rw [List.append_nil] at hxs
      rw [hxs]
      exact .nil
    | cons x post ih =>
      intro pre hxs
      rw [List.map_cons, String.join_cons]
      exact (h pre x post hxs).append (ih (pre ++ [x]) (by rw [hxs, List.append_assoc]; rfl))
  exact hfrom xs [] rfl

/-- One line. -/
theorem Reads.line {l : List Char} (hs : s.toList = l ++ ['\n']) (hl : '\n' ∉ l)
    (h : readLine st l = .ok st') : Reads s st st' := by
  refine ⟨[l], by rw [hs, rows_cons]; rfl, List.forall_mem_singleton.2 hl, fun file n => ?_⟩
  rw [readLines, h]
  rfl

/-- What is between a newline and the next is one line. -/
theorem toList_line (s : String) : (line s).toList = indent.toList ++ s.toList ++ ['\n'] := by
  rw [line, String.toList_append, String.toList_append]
  rfl

/-- An indentation is made of blanks. -/
theorem indent_blank : ∀ c ∈ indent.toList, isBlank c = true ∧ c ≠ '\n' := by
  have hindent : indent.toList = List.replicate 4 ' ' := rfl
  intro c hc
  rw [hindent] at hc
  rw [List.eq_of_mem_replicate hc]
  exact ⟨by decide, by decide⟩

/-- A line of words, which a function reads if one is open. -/
theorem Reads.words {bs : List Char} {ws : List String} (hbs : ∀ c ∈ bs, isBlank c = true ∧ c ≠ '\n')
    (hws : ∀ w ∈ ws, IsWord w) (hne : ws ≠ []) (hs : s.toList = bs ++ row ws ++ ['\n'])
    (h : st.draft.elim (readOuter st.outer ws) (readInner st.outer · ws) = .ok st') :
    Reads s st st' := by
  have hline : '\n' ∉ bs ++ row ws := fun h =>
    (List.mem_append.1 h).elim (fun h => (hbs _ h).2 rfl) (not_mem_row hws)
  refine .line hs hline ?_
  have hblank := fun c hc => (hbs c hc).1
  rw [readLine, splitComment_row hblank hws]
  simp only [words_row hblank hws]
  obtain ⟨o, _ | d⟩ := st <;> cases ws with
  | nil => exact absurd rfl hne
  | cons w ws => exact h

/-- An indented line of words inside a function. -/
theorem Reads.indented {o : Outer} {d : Draft} (ws : List String) (hne : ws ≠ [])
    (hws : ∀ w ∈ ws, IsWord w) (hs : s.toList = row ws) (h : readInner o d ws = .ok st') :
    Reads (Printer.line s) { outer := o, draft := some d } st' :=
  .words indent_blank hws hne (by rw [toList_line, hs]) h

/-- A line of words inside a function, not indented. -/
theorem Reads.inside {o : Outer} {d : Draft} (ws : List String) (hne : ws ≠ [])
    (hws : ∀ w ∈ ws, IsWord w) (hs : s.toList = row ws ++ ['\n']) (h : readInner o d ws = .ok st') :
    Reads s { outer := o, draft := some d } st' :=
  .words (List.forall_mem_nil _) hws hne hs h

/-- A line of words outside functions. -/
theorem Reads.outside {o : Outer} (ws : List String) (hne : ws ≠ []) (hws : ∀ w ∈ ws, IsWord w)
    (hs : s.toList = row ws ++ ['\n']) (h : readOuter o ws = .ok st') : Reads s { outer := o } st' :=
  .words (List.forall_mem_nil _) hws hne hs h

/-! ## Scopes -/

/-- Declared variables by index, at positions from `base` on. -/
def scope (vars : VarTable) (base : Nat) (ids : List VarId) : Std.TreeMap Int VarId :=
  (ids.zipIdx base).foldl (fun m x => m.insert (vars.at x.1).index ((x.2 : Nat) : VarId)) {}

/-- A variable that is declared last is added last. -/
theorem scope_concat (vars : VarTable) (base : Nat) (ids : List VarId) (id : VarId) :
    scope vars base (ids ++ [id]) =
      (scope vars base ids).insert (vars.at id).index ((base + ids.length : Nat) : VarId) := by
  rw [scope, List.zipIdx_append, List.foldl_append]
  rfl

/-- A declared variable is found by its index, when all indexes are different. -/
theorem scope_of_getElem? {vars : VarTable} {ids : List VarId} (h : (Relaid.indexes vars ids).Nodup)
    (base : Nat) {k : Nat} {id : VarId} (hk : ids[k]? = some id) :
    (scope vars base ids)[(vars.at id).index]? = some ((base + k : Nat) : VarId) := by
  have hkeys : ((ids.zipIdx base).map fun x => (vars.at x.1).index) = Relaid.indexes vars ids := by
    rw [← Function.comp_def (fun id => (vars.at id).index), ← List.map_map, List.zipIdx_map_fst]
    rfl
  exact getElem?_foldl_insert_of_mem (x := (id, base + k)) (hkeys ▸ h)
    (List.mk_add_mem_zipIdx_iff_getElem?.2 hk)

/-- An index that is not declared is not found. -/
theorem scope_of_not_mem {vars : VarTable} {ids : List VarId} {n : Int}
    (h : n ∉ Relaid.indexes vars ids) (base : Nat) : (scope vars base ids)[n]? = none := by
  have hfind : (ids.zipIdx base).reverse.find? (fun x => (vars.at x.1).index == n) = none := by
    refine List.find?_eq_none.2 fun x hx => ?_
    have hmem := List.fst_mem_of_mem_zipIdx (List.mem_reverse.1 hx)
    rw [beq_iff_eq]
    rintro rfl
    exact h (List.mem_map_of_mem hmem)
  rw [scope, getElem?_foldl_insert, hfind]
  exact Std.TreeMap.getElem?_emptyc

/-- Declared temporaries. -/
def declared (temps : List Int) : Std.TreeMap Int Unit := temps.foldl (fun m t => m.insert t ()) {}

/-- A temporary is declared if it is in the list. -/
theorem contains_declared (temps : List Int) (t : Int) :
    (declared temps).contains t = decide (t ∈ temps) := by
  rw [Std.TreeMap.contains_eq_isSome_getElem?, declared,
    getElem?_foldl_insert (fun t => t) (fun _ => ())]
  rw [Bool.eq_iff_iff]
  simp

/-! ## States of the reader -/

/-- Whether the statement returns no value. -/
def givesNothing : Stmt → Bool
  | .ret (some _) => false
  | _ => true

/-- The program with one more function. -/
def more (p : Program) (f : Func) : Program := { p with funcs := p.funcs ++ [f] }

/-- What is read outside of functions is `p`; the variables and numbers of `q` have been seen. -/
def outer (p q : Program) : Outer where
  vars := q.relaid.vars
  globals := p.relaid.globals.toArray
  inits := p.relaid.inits.toArray
  funcs := p.relaid.funcs.toArray
  scope := scope p.vars 0 p.globals
  high := q.relaid.counters

/-- The state between functions, when `p` is read. -/
def closed (p : Program) : State := { outer := outer p p }

/-- Where the variables of the next function begin. -/
def base (p : Program) : Nat := p.relaid.vars.size

/-- What is read of a function, when `f` is read and arguments wait for their call. -/
def draft (p : Program) (f : Func) (args : List Val) : Draft where
  name := f.name
  params := (Relaid.positions (base p) f.params.length).toArray
  void := f.stmts.all givesNothing
  locals := (Relaid.positions (base p + f.params.length) f.locals.length).toArray
  temps := f.temps.toArray
  stmts := (f.stmts.map (Stmt.rename (Relaid.place p.globals (base p) f))).toArray
  builtin := f.builtin
  scope := scope p.vars (base p + f.params.length) f.locals
  declared := declared f.temps
  pending := (args.map (Val.rename (Relaid.place p.globals (base p) f))).toArray

/-- The state inside a function, when `p` is read, and `f` of the function. -/
def opened (p : Program) (f : Func) (args : List Val) : State :=
  { outer := outer p (more p f), draft := some (draft p f args) }

theorem vars_relaid (p : Program) : p.relaid.vars =
    (Relaid.heads p.vars p.globals ++ p.funcs.flatMap (Relaid.block p.vars)).toArray := rfl

/-- One more function adds its variables to the end of the table. -/
theorem vars_more (p : Program) (f : Func) :
    (more p f).relaid.vars = p.relaid.vars ++ (Relaid.block p.vars f).toArray := by
  simp only [vars_relaid, more, List.flatMap_append, List.flatMap_singleton, List.append_toArray,
    List.append_assoc]

/-- The variables of the next function begin behind all that were declared. -/
theorem base_eq (p : Program) :
    base p = p.globals.length + (p.funcs.flatMap (Relaid.block p.vars)).length := by
  simp [base, vars_relaid, Relaid.heads]

/-- The function sees its variables as soon as they are declared. -/
theorem sees_more (p : Program) (f : Func) :
    Relaid.Sees p.vars p.globals f (base p) (more p f).relaid.vars := by
  have h : Relaid.Sees p.vars p.globals f (base p) (Relaid.heads p.vars p.globals ++
      (p.funcs.flatMap (Relaid.block p.vars) ++ (Relaid.block p.vars f ++ []))).toArray :=
    Relaid.sees_of_eq (base_eq p)
  rw [List.append_nil] at h
  rw [vars_relaid, more, List.flatMap_append, List.flatMap_singleton]
  exact h

/-- One more function is relaid behind the variables of all others. -/
theorem funcs_append (globals : List VarId) (b : Nat) (vars : VarTable) (fs : List Func) (f : Func) :
    Relaid.funcs globals b (fs ++ [f]) = Relaid.funcs globals b fs ++
      [Relaid.func globals (b + (fs.flatMap (Relaid.block vars)).length) f] := by
  induction fs generalizing b with
  | nil => rfl
  | cons g fs ih =>
    rw [List.cons_append, Relaid.funcs, Relaid.funcs, ih, List.flatMap_cons, List.length_append,
      Relaid.length_block, List.cons_append, Nat.add_assoc b, Nat.add_assoc b]

/-- One more function is relaid where the next variables begin. -/
theorem funcs_more (p : Program) (f : Func) :
    (more p f).relaid.funcs = p.relaid.funcs ++ [Relaid.func p.globals (base p) f] := by
  rw [base_eq]
  exact funcs_append p.globals p.globals.length p.vars p.funcs f

/-- What the function in progress adds to what has been seen. -/
theorem outer_more (p : Program) (f : Func) : outer p (more p f) =
    { outer p p with
      vars := p.relaid.vars ++ (Relaid.block p.vars f).toArray
      high :=
        { vars := Relaid.above (Relaid.indexes p.vars
            (p.globals ++ p.funcs.flatMap Func.locals ++ f.locals))
          temps := Relaid.above (p.funcs.flatMap Func.temps ++ f.temps)
          labels := Relaid.above (p.funcs.flatMap (fun f => f.stmts.flatMap Stmt.labels) ++
            f.stmts.flatMap Stmt.labels) } } := by
  rw [outer, vars_more]
  simp only [Program.relaid, more, List.flatMap_append, List.flatMap_singleton, List.append_assoc]
  rfl

/-! ## Operands -/

section Operands

open InText

variable {p : Program} {f : Func} (hg : Declared p.vars p.globals)
  (hf : Function p.vars p.globals f) {v : Val}

/-- Names of temporaries, parameters and variables are operands, and no numbers. -/
theorem name_spelled {w : String} {c : Char} {n : Int} (hw : w.toList = c :: (decimal n).toList)
    (hc : c = 't' ∨ c = 'p' ∨ c = 'T') :
    IsOperand w ∧ ∀ bits, readInt? bits w.toList = none := by
  refine ⟨isOperand_name hw ?_, fun bits => ?_⟩
  · rcases hc with rfl | rfl | rfl <;> decide
  · rw [hw]
    rcases hc with rfl | rfl | rfl <;> exact readInt?_eq_none (by decide) (by decide)

/-- The word of a variable. -/
theorem toList_text (v : Var) :
    v.text.toList = (if v.cls = .arg then 'p' else 'T') :: (decimal v.index).toList := by
  unfold Var.text
  cases v.cls <;> simp [String.toList_append]

/-- A declared variable is read by its index. -/
theorem readPlace_text {o : Outer} {d : Draft} {v : Var} (hcls : v.cls ≠ .arg)
    (hindex : FitsName v.index) {id : VarId} (h : (d.scope[v.index]?).or o.scope[v.index]? = some id) :
    readPlace o d v.text = .ok (.var id) := by
  have hw := toList_text v
  rw [if_neg hcls] at hw
  rw [readPlace, numbered?_of_ne hw (show 'T' ≠ 't' by decide),
    numbered?_of_ne hw (show 'T' ≠ 'p' by decide), numbered?_of_toList hw hindex]
  -- A local hides the global of the same number.
  cases hd : d.scope[v.index]? with
  | some id' =>
    rw [hd] at h
    cases h
    simp only [hd]
  | none =>
    rw [hd, Option.none_or] at h
    simp only [hd, h]

include hg hf

/-- The name of a place is an operand, and no number. -/
theorem place_spelled (hv : Place p.globals f v) :
    IsOperand (plain p.vars v) ∧ ∀ bits, readInt? bits (plain p.vars v).toList = none := by
  -- All variables are printed as a letter with a number behind it.
  have hvar : ∀ {id v}, p.vars.get? id = some v → IsOperand (plain p.vars (.var id)) ∧
      ∀ bits, readInt? bits (plain p.vars (.var id)).toList = none := by
    intro id v hv
    rw [plain, hv, Option.map_some, Option.getD_some]
    refine name_spelled (toList_text v) ?_
    split
    · exact Or.inr (Or.inl rfl)
    · exact Or.inr (Or.inr rfl)
  cases v with
  | const n => exact absurd hv id
  | temp n => exact name_spelled (n := n) (by simp [plain, String.toList_append]) (Or.inl rfl)
  | var id =>
    rcases hv with hid | hid | hid
    · exact hvar (hg id hid).choose_spec.1
    · exact hvar (Relaid.exists_param hf hid).choose_spec.1
    · exact hvar (hf.locals id hid).choose_spec.1

/-- The text of an operand is an operand for the reader. -/
theorem operand_spelled (hv : Operand p.globals f v) : IsOperand (plain p.vars v) := by
  cases v with
  | const n => exact isOperand_decimal n
  | temp n => exact (place_spelled hg hf (v := .temp n) hv).1
  | var id => exact (place_spelled hg hf (v := .var id) hv).1

variable (stmts : List Stmt) (args : List Val) (q : Program)

/-- A place is read as the place itself. -/
theorem readPlace_plain (hv : Place p.globals f v) :
    readPlace (outer p q) (draft p { f with stmts } args) (plain p.vars v) =
      .ok (v.rename (Relaid.place p.globals (base p) f)) := by
  have hdistinct := hf.distinct
  rw [Relaid.indexes, List.map_append] at hdistinct
  cases v with
  | const n => exact absurd hv id
  | temp n =>
    have hw : (plain p.vars (.temp n)).toList = 't' :: (decimal n).toList := by
      simp [plain, String.toList_append]
    have hdecl : (draft p { f with stmts } args).declared.contains n = true :=
      (contains_declared f.temps n).trans (decide_eq_true (show n ∈ f.temps from hv))
    rw [readPlace, numbered?_of_toList hw (hf.temps n hv)]
    exact if_pos hdecl
  | var id =>
    -- A global is read unless a local has its index, which distinct indexes rule out.
    rcases hv with hid | hid | hid
    · obtain ⟨v, hv, hdecl⟩ := hg id hid
      have hnot : v.index ∉ Relaid.indexes p.vars f.locals := fun h =>
        List.disjoint_of_nodup_append hdistinct
          (List.mem_map_of_mem (f := fun id => (p.vars.at id).index) hid) (VarTable.at_eq hv ▸ h)
      have hscope := scope_of_getElem? hdistinct.of_append_left 0 (List.getElem?_idxOf hid)
      rw [VarTable.at_eq hv, Nat.zero_add] at hscope
      rw [plain, hv, Val.rename, Relaid.place_global hf hg hid]
      refine readPlace_text hdecl.cls hdecl.index ?_
      show ((scope p.vars _ f.locals)[v.index]?).or (scope p.vars 0 p.globals)[v.index]? = _
      rw [scope_of_not_mem hnot, hscope, Option.none_or]
    · obtain ⟨v, hv, hcls, hindex⟩ := Relaid.exists_param hf hid
      have hlt := List.idxOf_lt_length_iff.2 hid
      have hfew := hf.few
      have hw := toList_text v
      rw [if_pos hcls] at hw
      have hparam : (draft p { f with stmts } args).params[v.index.toNat]? =
          some ((base p + f.params.idxOf id : Nat) : VarId) := by
        rw [hindex, Int.toNat_natCast, draft, List.getElem?_toArray]
        exact Relaid.getElem?_positions hlt
      rw [plain, hv, Val.rename, Relaid.place_param hid, Option.map_some, Option.getD_some, readPlace,
        numbered?_of_ne hw (show 'p' ≠ 't' by decide),
        numbered?_of_toList hw ⟨by omega, by omega⟩]
      simp only [hparam]
    · obtain ⟨v, hv, hdecl⟩ := hf.locals id hid
      have hscope := scope_of_getElem? hdistinct.of_append_right (base p + f.params.length)
        (List.getElem?_idxOf hid)
      rw [VarTable.at_eq hv] at hscope
      rw [plain, hv, Val.rename, Relaid.place_local hf hid]
      refine readPlace_text hdecl.cls hdecl.index ?_
      show ((scope p.vars _ f.locals)[v.index]?).or _ = _
      rw [hscope, Option.some_or]

/-- An operand is read back as itself: a constant by its digits, a place by its name. -/
theorem readVal_plain (hv : Operand p.globals f v) :
    readVal (outer p q) (draft p { f with stmts } args) (plain p.vars v) =
      .ok (v.rename (Relaid.place p.globals (base p) f)) := by
  -- Temporaries and variables are read as places.
  have hplace : ∀ v, Place p.globals f v → readVal (outer p q) (draft p { f with stmts } args)
      (plain p.vars v) = .ok (v.rename (Relaid.place p.globals (base p) f)) := fun v hv => by
    rw [readVal, (place_spelled hg hf hv).2]
    exact readPlace_plain hg hf stmts args q hv
  cases v with
  | const n =>
    rw [readVal, plain, readInt?_decimal (by simpa using hv.1) (by simpa using hv.2)]
    rfl
  | temp n => exact hplace (.temp n) hv
  | var id => exact hplace (.var id) hv

end Operands

/-! ## Statements -/

section Statements

open InText

variable {o : Outer} {d : Draft} {w v : String} {ws : List String}

/-- Outside of calls nothing waits. -/
theorem not_waiting (h : d.pending = #[] ∨ continuesCall ws = true) :
    (!d.pending.isEmpty && !continuesCall ws) = false := by
  rcases h with h | h <;> simp [h]

-- The equations of the reader are made once, before the lemmas about its lines.
attribute [local simp] readInner

/-- A line that begins with an operand is told by the place of its equal sign. -/
theorem readInner_of_isOperand (hw : IsOperand w)
    (h : d.pending = #[] ∨ continuesCall (w :: v :: ws) = true) :
    readInner o d (w :: v :: ws) = readByShape o d (w :: v :: ws) := by
  -- An operand is none of the words that a statement can start with.
  have hend := hw.ne (k := "end") (by decide)
  have hvar := hw.ne (k := "var") (by decide)
  have hif := hw.ne (k := "if") (by decide)
  have hgoto := hw.ne (k := "goto") (by decide)
  have hparam := hw.ne (k := "param") (by decide)
  have hcall := hw.ne (k := "call") (by decide)
  have hreturn := hw.ne (k := "return") (by decide)
  have hfill := hw.ne (k := "fillzero") (by decide)
  unfold readInner
  rw [not_waiting h, if_neg Bool.false_ne_true]
  split <;> simp_all

/-- An assignment to a place; what follows the equal sign does not make it look like a store. -/
theorem readInner_assign {r : String} {rhs : List String} (hw : IsOperand w)
    (h : d.pending = #[] ∨ continuesCall (w :: "=" :: r :: rhs) = true)
    (hr : r ≠ "=" ∨ rhs.length ≠ 1) : readInner o d (w :: "=" :: r :: rhs) =
      readAssign o d (w :: "=" :: r :: rhs) w (r :: rhs) := by
  rw [readInner_of_isOperand hw h]
  unfold readByShape
  split
  -- The shape of a store has the sign of assignment in another position.
  · next heq =>
    obtain ⟨-, -, rfl, rfl⟩ := by simpa using heq
    simp at hr
  · next heq =>
    obtain ⟨rfl, rfl, rfl⟩ := by simpa using heq
    rfl
  · next hno => exact absurd rfl (hno _ _ _)

/-- A line of one word that ends in a colon is a label. -/
theorem readInner_mark (hw : w.toList.getLast? = some ':') (h : d.pending = #[]) :
    readInner o d [w] = (do
      let l ← readLabel (String.ofList w.toList.dropLast)
      pure (within (o.sawLabel l) d (.label l))) := by
  -- A word that ends in a colon is no keyword.
  have hne : ∀ k : String, k.toList.getLast? ≠ some ':' → w ≠ k := by
    rintro _ hk rfl
    exact hk hw
  have hend := hne "end" (by decide)
  have hvar := hne "var" (by decide)
  have hif := hne "if" (by decide)
  have hreturn := hne "return" (by decide)
  unfold readInner
  rw [not_waiting (Or.inl h), if_neg Bool.false_ne_true]
  split <;> simp_all

/-! ### The states around a statement -/

variable (p : Program) (f : Func) (stmts : List Stmt) (args : List Val) (s : Stmt)

/-- A statement adds its labels to the numbers that were seen. -/
theorem outer_push : outer p (more p { f with stmts := stmts ++ [s] }) =
    s.labels.foldl Outer.sawLabel (outer p (more p { f with stmts })) := by
  rw [outer_more, outer_more]
  simp only [List.flatMap_append, List.flatMap_singleton, ← List.append_assoc]
  cases s with
  | branch | jump | label =>
    simp only [Stmt.labels, Relaid.above_concat]
    rfl
  | _ =>
    simp only [Stmt.labels, List.append_nil]
    rfl

/-- A statement behind those that were read. -/
theorem draft_push : draft p { f with stmts := stmts ++ [s] } [] =
    { (draft p { f with stmts } args).push (s.rename (Relaid.place p.globals (base p) f)) with
      void := (draft p { f with stmts } args).void && givesNothing s, pending := #[] } := by
  simp only [draft, Draft.push, List.map_append, List.map_singleton, List.all_append, List.all_cons,
    List.all_nil, Bool.and_true, List.map_nil, List.push_toArray]
  rfl

/-- One more argument waits. -/
theorem draft_wait (a : Val) : draft p f (args ++ [a]) =
    { draft p f args with pending :=
        (draft p f args).pending.push (a.rename (Relaid.place p.globals (base p) f)) } := by
  simp only [draft, List.map_append, List.map_singleton, List.push_toArray]

variable {s}

/-- A statement without labels is added by its line. -/
theorem within_push (hlabels : s.labels = []) (hs : givesNothing s = true) :
    within (outer p (more p { f with stmts })) (draft p { f with stmts } [])
      (s.rename (Relaid.place p.globals (base p) f)) = opened p { f with stmts := stmts ++ [s] } [] := by
  rw [opened, outer_push, draft_push p f stmts [], hlabels, hs, Bool.and_true]
  rfl

/-- A statement with one label is added by its line, and the label is seen. -/
theorem within_mention {l : Int} (hlabels : s.labels = [l]) (hs : givesNothing s = true) :
    within ((outer p (more p { f with stmts })).sawLabel l) (draft p { f with stmts } [])
      (s.rename (Relaid.place p.globals (base p) f)) = opened p { f with stmts := stmts ++ [s] } [] := by
  rw [opened, outer_push, draft_push p f stmts [], hlabels, hs, Bool.and_true]
  rfl

/-! ### Statement by statement -/

variable {f} (hg : Declared p.vars p.globals) (hf : Function p.vars p.globals f)

theorem pending_draft : (draft p { f with stmts } []).pending = #[] := rfl

include hg hf

/-- The line of an operation adds it; a division by the constant zero would be refused. -/
theorem reads_binary {dst l r : Val} {op : BinOp} (h : Statement p.vars p.globals f (.binary dst l op r)) :
    Reads (Printer.stmt (plain p.vars) (.binary dst l op r)) (opened p { f with stmts } [])
      (opened p { f with stmts := stmts ++ [.binary dst l op r] } []) := by
  obtain ⟨hd, hl, hr, hop, hzero⟩ := h
  have hdw := (place_spelled hg hf hd).1
  -- Renaming keeps constants, so the divisor is none that the reader refuses.
  have hzero' : ¬ ((op = .div ∨ op = .mod) ∧
      r.rename (Relaid.place p.globals (base p) f) = .const 0) := by
    cases r with
    | const n => exact hzero
    | temp | var => exact fun h => by cases h.2
  refine .indented [plain p.vars dst, "=", plain p.vars l, op.text, plain p.vars r] (by simp) ?_
    (by simp [row, String.toList_append]) ?_
  · simp only [List.forall_mem_cons]
    exact ⟨hdw.word, isWord_keyword _ (by simp), (operand_spelled hg hf hl).word, isWord_binOp op,
      (operand_spelled hg hf hr).word, List.forall_mem_nil _⟩
  · rw [readInner_assign hdw (Or.inl (pending_draft p stmts)) (Or.inr (by simp)), readAssign,
      readPlace_plain hg hf stmts [] _ hd]
    simp only [readBinary, BinOp.parse?_text, hop, readVal_plain hg hf stmts [] _ hl,
      readVal_plain hg hf stmts [] _ hr, bind, Except.bind, if_neg hzero',
      Bool.false_eq_true, if_false, pure, Except.pure]
    exact congrArg _ (within_push p f stmts (s := .binary dst l op r) rfl rfl)

omit hg hf in
/-- A right-hand side of two words that is no call. -/
theorem readAssign_two {place x y : String} (hx : x ≠ "call") :
    readAssign o d ws place [x, y] = (do
      let dst ← readPlace o d place
      if (bracketed? y).isSome then
        let base ← readVal o d x
        let off ← readIndex y
        pure (within o d (.load dst base off))
      else match UnOp.parse? x with
        | none => .error (.badUnaryOperator x)
        | some .plus =>
          let v ← readVal o d y
          pure (within o d (.move dst v))
        | some op =>
          let v ← readVal o d y
          pure (within o d (.unary dst op v))) := by
  unfold readAssign
  -- Two words on the right-hand side are a load or a unary operation.
  split
  · next heq => simp at heq
  · next heq => exact absurd (List.cons.inj heq).1 hx
  · next heq =>
    obtain ⟨rfl, rfl⟩ := by simpa using heq
    rfl
  · next heq => simp at heq
  · next hno _ => exact absurd rfl (hno _ _)

/-- The line of a unary operator adds it. -/
theorem reads_unary {dst x : Val} {op : UnOp} (h : Statement p.vars p.globals f (.unary dst op x)) :
    Reads (Printer.stmt (plain p.vars) (.unary dst op x)) (opened p { f with stmts } [])
      (opened p { f with stmts := stmts ++ [.unary dst op x] } []) := by
  obtain ⟨hd, hx, hop⟩ := h
  have hdw := (place_spelled hg hf hd).1
  have hxw := operand_spelled hg hf hx
  have htext : Printer.stmt (plain p.vars) (.unary dst op x) =
      line (plain p.vars dst ++ " = " ++ op.text ++ " " ++ plain p.vars x) := by
    cases op <;> first | rfl | exact absurd rfl hop
  rw [htext]
  refine .indented [plain p.vars dst, "=", op.text, plain p.vars x] (by simp) ?_
    (by simp [row, String.toList_append]) ?_
  · simp only [List.forall_mem_cons]
    exact ⟨hdw.word, isWord_keyword _ (by simp), isWord_unOp op, hxw.word, List.forall_mem_nil _⟩
  · have hne : op.text ≠ "=" ∧ op.text ≠ "call" := by cases op <;> decide
    rw [readInner_assign hdw (Or.inl (pending_draft p stmts)) (Or.inl hne.1), readAssign_two hne.2,
      readPlace_plain hg hf stmts [] _ hd, hxw.head, UnOp.parse?_text]
    simp only [bind, Except.bind, Option.isSome_none, Bool.false_eq_true, if_false,
      readVal_plain hg hf stmts [] _ hx]
    have hpush := within_push p f stmts (s := .unary dst op x) rfl rfl
    -- A unary plus is never printed; it would be read as a move.
    cases op with
    | plus => exact absurd rfl hop
    | neg | not => exact congrArg _ hpush

/-- The line of a move adds it. -/
theorem reads_move {dst src : Val} (h : Statement p.vars p.globals f (.move dst src)) :
    Reads (Printer.stmt (plain p.vars) (.move dst src)) (opened p { f with stmts } [])
      (opened p { f with stmts := stmts ++ [.move dst src] } []) := by
  obtain ⟨hd, hx⟩ := h
  have hdw := (place_spelled hg hf hd).1
  have hxw := operand_spelled hg hf hx
  refine .indented [plain p.vars dst, "=", plain p.vars src] (by simp) ?_
    (by simp [row, String.toList_append]) ?_
  · simp only [List.forall_mem_cons]
    exact ⟨hdw.word, isWord_keyword _ (by simp), hxw.word, List.forall_mem_nil _⟩
  · rw [readInner_assign hdw (Or.inl (pending_draft p stmts)) (Or.inr (by simp)), readAssign,
      readPlace_plain hg hf stmts [] _ hd]
    simp only [bind, Except.bind, readVal_plain hg hf stmts [] _ hx]
    exact congrArg _ (within_push p f stmts (s := .move dst src) rfl rfl)

/-- The line of a load adds it. -/
theorem reads_load {dst b : Val} {off : Int} (h : Statement p.vars p.globals f (.load dst b off)) :
    Reads (Printer.stmt (plain p.vars) (.load dst b off)) (opened p { f with stmts } [])
      (opened p { f with stmts := stmts ++ [.load dst b off] } []) := by
  obtain ⟨hd, hb, hoff⟩ := h
  have hdw := (place_spelled hg hf hd).1
  have hbw := operand_spelled hg hf hb
  refine .indented [plain p.vars dst, "=", plain p.vars b, "[" ++ decimal off ++ "]"] (by simp) ?_
    (by simp [row, String.toList_append]) ?_
  · simp only [List.forall_mem_cons]
    exact ⟨hdw.word, isWord_keyword _ (by simp), hbw.word, isWord_index off, List.forall_mem_nil _⟩
  -- The sign of an assignment with two words behind it, the second one in brackets.
  · rw [readInner_assign hdw (Or.inl (pending_draft p stmts)) (Or.inl (hbw.ne (by decide))),
      readAssign_two (hbw.ne (by decide)), readPlace_plain hg hf stmts [] _ hd, bracketed?_decimal]
    simp only [bind, Except.bind, Option.isSome_some, if_true, readVal_plain hg hf stmts [] _ hb,
      readIndex_decimal hoff]
    exact congrArg _ (within_push p f stmts (s := .load dst b off) rfl rfl)

/-- The line of a store adds it. -/
theorem reads_store {b src : Val} {off : Int} (h : Statement p.vars p.globals f (.store b off src)) :
    Reads (Printer.stmt (plain p.vars) (.store b off src)) (opened p { f with stmts } [])
      (opened p { f with stmts := stmts ++ [.store b off src] } []) := by
  obtain ⟨hb, hoff, hx⟩ := h
  have hbw := (place_spelled hg hf hb).1
  have hxw := operand_spelled hg hf hx
  refine .indented [plain p.vars b, "[" ++ decimal off ++ "]", "=", plain p.vars src] (by simp) ?_
    (by simp [row, String.toList_append]) ?_
  · simp only [List.forall_mem_cons]
    exact ⟨hbw.word, isWord_index off, isWord_keyword _ (by simp), hxw.word, List.forall_mem_nil _⟩
  · rw [readInner_of_isOperand hbw (Or.inl (pending_draft p stmts)), readByShape, bracketed?_decimal]
    simp only [Option.isSome_some, if_true, bind, Except.bind, readPlace_plain hg hf stmts [] _ hb,
      readVal_plain hg hf stmts [] _ hx, readIndex_decimal hoff]
    exact congrArg _ (within_push p f stmts (s := .store b off src) rfl rfl)

/-- The line of a branch adds it, and mentions its label. -/
theorem reads_branch {l r : Val} {rel : Rel} {t : Int}
    (h : Statement p.vars p.globals f (.branch l rel r t)) :
    Reads (Printer.stmt (plain p.vars) (.branch l rel r t)) (opened p { f with stmts } [])
      (opened p { f with stmts := stmts ++ [.branch l rel r t] } []) := by
  obtain ⟨hl, hr, ht⟩ := h
  refine .indented ["if", plain p.vars l, rel.text, plain p.vars r, "goto", "l" ++ decimal t] (by simp)
    ?_ (by simp [row, String.toList_append]) ?_
  · simp only [List.forall_mem_cons]
    exact ⟨isWord_keyword _ (by simp), (operand_spelled hg hf hl).word, isWord_rel rel,
      (operand_spelled hg hf hr).word, isWord_keyword _ (by simp), isWord_label t,
      List.forall_mem_nil _⟩
  -- The first word tells a branch, whose parts are read one by one.
  · simp only [readInner, not_waiting (Or.inl (pending_draft p stmts)), Bool.false_eq_true, if_false,
      readBranch, Rel.parse?_text, bind, Except.bind, readVal_plain hg hf stmts [] _ hl,
      readVal_plain hg hf stmts [] _ hr, readLabel_decimal ht]
    exact congrArg _ (within_mention p f stmts (s := .branch l rel r t) rfl rfl)

omit hg hf in
/-- The line of a jump adds it, and mentions its label. -/
theorem reads_jump {t : Int} (ht : FitsName t) :
    Reads (Printer.stmt (plain p.vars) (.jump t)) (opened p { f with stmts } [])
      (opened p { f with stmts := stmts ++ [.jump t] } []) := by
  refine .indented ["goto", "l" ++ decimal t] (by simp) ?_ (by simp [row, String.toList_append]) ?_
  · simp only [List.forall_mem_cons]
    exact ⟨isWord_keyword _ (by simp), isWord_label t, List.forall_mem_nil _⟩
  · simp only [readInner, not_waiting (Or.inl (pending_draft p stmts)), Bool.false_eq_true, if_false,
      bind, Except.bind, readLabel_decimal ht]
    exact congrArg _ (within_mention p f stmts (s := .jump t) rfl rfl)

omit hg hf in
/-- The line of a label adds it, and mentions the label. -/
theorem reads_label {t : Int} (ht : FitsName t) :
    Reads (Printer.stmt (plain p.vars) (.label t)) (opened p { f with stmts } [])
      (opened p { f with stmts := stmts ++ [.label t] } []) := by
  -- The mark is the label with a colon behind it.
  have hlist : ("l" ++ decimal t ++ ":").toList = ("l" ++ decimal t).toList ++ [':'] := by
    simp [String.toList_append]
  have hread : readLabel (String.ofList ("l" ++ decimal t ++ ":").toList.dropLast) = .ok t := by
    rw [hlist, List.dropLast_concat, String.ofList_toList, readLabel_decimal ht]
  have hlast : ("l" ++ decimal t ++ ":").toList.getLast? = some ':' := by
    rw [hlist, List.getLast?_concat]
  refine .inside ["l" ++ decimal t ++ ":"] (by simp) (List.forall_mem_singleton.2 (isWord_mark t))
    (by simp [row, Printer.stmt, String.toList_append]) ?_
  rw [readInner_mark hlast (pending_draft p stmts), hread]
  exact congrArg _ (within_mention p f stmts (s := .label t) rfl rfl)

/-- The line of a return adds it; with a value, the function gives a result from then on. -/
theorem reads_ret {v : Option Val} (h : Statement p.vars p.globals f (.ret v)) :
    Reads (Printer.stmt (plain p.vars) (.ret v)) (opened p { f with stmts } [])
      (opened p { f with stmts := stmts ++ [.ret v] } []) := by
  -- The returns decide whether the function that is read gives a result.
  cases v with
  | none =>
    refine .indented ["return"] (by simp) ?_ (by simp [row]) ?_
    · simp only [List.forall_mem_cons]
      exact ⟨isWord_keyword _ (by simp), List.forall_mem_nil _⟩
    · simp only [readInner, not_waiting (Or.inl (pending_draft p stmts)), Bool.false_eq_true, if_false]
      exact congrArg _ (within_push p f stmts (s := .ret none) rfl rfl)
  | some x =>
    have hx := h x rfl
    refine .indented ["return", plain p.vars x] (by simp) ?_ (by simp [row, String.toList_append]) ?_
    · simp only [List.forall_mem_cons]
      exact ⟨isWord_keyword _ (by simp), (operand_spelled hg hf hx).word, List.forall_mem_nil _⟩
    · simp only [readInner, not_waiting (Or.inl (pending_draft p stmts)), Bool.false_eq_true, if_false,
        bind, Except.bind, readVal_plain hg hf stmts [] _ hx]
      rw [opened, outer_push, draft_push p f stmts [], givesNothing, Bool.and_false]
      rfl

/-- The line of a zero fill adds it, as its variable is a local array. -/
theorem reads_zeroFill {a : Val} (h : Statement p.vars p.globals f (.zeroFill a)) :
    Reads (Printer.stmt (plain p.vars) (.zeroFill a)) (opened p { f with stmts } [])
      (opened p { f with stmts := stmts ++ [.zeroFill a] } []) := by
  obtain ⟨id, hid, rfl, harray⟩ := h
  have hplace : Place p.globals f (.var id) := Or.inr (Or.inr hid)
  -- The reader asks whether the operand is an array, and the entry that was read back is one.
  have hget : (outer p (more p { f with stmts })).vars.get?
      (Relaid.place p.globals (base p) f id) = some ((p.vars.at id).reread .loc) := by
    rw [Relaid.place_local hf hid]
    exact (sees_more p { f with stmts }).loc _ id (List.getElem?_idxOf hid)
  refine .indented ["fillzero", plain p.vars (.var id)] (by simp) ?_
    (by simp [row, String.toList_append]) ?_
  · simp only [List.forall_mem_cons]
    exact ⟨isWord_keyword _ (by simp), (place_spelled hg hf hplace).1.word, List.forall_mem_nil _⟩
  · simp only [readInner, not_waiting (Or.inl (pending_draft p stmts)), Bool.false_eq_true, if_false,
      readZeroFill, bind, Except.bind, readPlace_plain hg hf stmts [] _ hplace, Val.rename, hget,
      Option.any_some, Var.isArray_reread, harray]
    exact congrArg _ (within_push p f stmts (s := .zeroFill (.var id)) rfl rfl)

/-- The line of an argument lets the argument wait for its call. -/
theorem reads_param {pre : List Val} {a : Val} (h : Operand p.globals f a) :
    Reads (line ("param " ++ plain p.vars a)) (opened p { f with stmts } pre)
      (opened p { f with stmts } (pre ++ [a])) := by
  refine .indented ["param", plain p.vars a] (by simp) ?_ (by simp [row, String.toList_append]) ?_
  · simp only [List.forall_mem_cons]
    exact ⟨isWord_keyword _ (by simp), (operand_spelled hg hf h).word, List.forall_mem_nil _⟩
  · have hcontinues : continuesCall ["param", plain p.vars a] = true := rfl
    simp only [readInner, not_waiting (Or.inr hcontinues), Bool.false_eq_true, if_false, bind,
      Except.bind, readVal_plain hg hf stmts pre _ h]
    rw [opened, draft_wait]
    rfl

/-- The lines of a call: its arguments one by one, then the call, which takes all that
wait. -/
theorem reads_call {ret : Option Val} {g : String} {args : List Val}
    (h : Statement p.vars p.globals f (.call ret g args)) :
    Reads (Printer.stmt (plain p.vars) (.call ret g args)) (opened p { f with stmts } [])
      (opened p { f with stmts := stmts ++ [.call ret g args] } []) := by
  obtain ⟨hret, hg', hargs⟩ := h
  -- Arguments are read one after the other; nothing else stands between them and the call.
  have hparams : Reads (String.join (args.map fun a => line ("param " ++ plain p.vars a)))
      (opened p { f with stmts } []) (opened p { f with stmts } args) :=
    .join (opened p { f with stmts }) fun pre a post hsplit => reads_param p stmts hg hf (hargs a (hsplit ▸ by simp))
  have hpush : (⟨outer p (more p { f with stmts }), some ((draft p { f with stmts } args).pushCall
        (ret.map (Val.rename (Relaid.place p.globals (base p) f))) ("f_" ++ g))⟩ : State) =
      opened p { f with stmts := stmts ++ [.call ret g args] } [] := by
    rw [opened, outer_push, draft_push p f stmts args, Draft.pushCall, funcName_marked]
    simp only [givesNothing, Bool.and_true]
    rfl
  cases ret with
  | none =>
    refine hparams.append (.indented ["call", "f_" ++ g] (by simp) ?_
      (by simp [row, String.toList_append]) ?_)
    · simp only [List.forall_mem_cons]
      exact ⟨isWord_keyword _ (by simp), isWord_func hg', List.forall_mem_nil _⟩
    · have hcontinues : continuesCall ["call", "f_" ++ g] = true := rfl
      simp only [readInner, not_waiting (Or.inr hcontinues), Bool.false_eq_true, if_false]
      exact congrArg _ hpush
  | some dst =>
    have hd := hret dst rfl
    have hdw := (place_spelled hg hf hd).1
    refine hparams.append (.indented [plain p.vars dst, "=", "call", "f_" ++ g] (by simp) ?_
      (by simp [row, String.toList_append]) ?_)
    · simp only [List.forall_mem_cons]
      exact ⟨hdw.word, isWord_keyword _ (by simp), isWord_keyword _ (by simp), isWord_func hg',
        List.forall_mem_nil _⟩
    · have hcontinues : continuesCall [plain p.vars dst, "=", "call", "f_" ++ g] = true := by
        unfold continuesCall
        split <;> simp_all
      rw [readInner_assign hdw (Or.inr hcontinues) (Or.inl (by decide)), readAssign,
        readPlace_plain hg hf stmts args _ hd]
      exact congrArg _ hpush

/-- The lines of a statement add the statement. -/
theorem reads_stmt {s : Stmt} (h : Statement p.vars p.globals f s) :
    Reads (Printer.stmt (plain p.vars) s) (opened p { f with stmts } [])
      (opened p { f with stmts := stmts ++ [s] } []) := by
  -- On the statement; each form has its line, but for calls, which have one line for each
  -- argument too.
  cases s with
  | binary => exact reads_binary p stmts hg hf h
  | unary => exact reads_unary p stmts hg hf h
  | move => exact reads_move p stmts hg hf h
  | store => exact reads_store p stmts hg hf h
  | load => exact reads_load p stmts hg hf h
  | branch => exact reads_branch p stmts hg hf h
  | jump => exact reads_jump p stmts h
  | label => exact reads_label p stmts h
  | call => exact reads_call p stmts hg hf h
  | ret => exact reads_ret p stmts hg hf h
  | zeroFill => exact reads_zeroFill p stmts hg hf h

end Statements

end Program.Reader

end Tac
