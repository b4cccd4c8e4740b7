import Mathlib
import Tac.Compiler
import Tac.Proofs.Compiled
import Tac.Proofs.Pruning

/-!
# What compiling reads of a variable

Of a variable the stages of the compiler read the class, the number and, unless it is a parameter, the
size; neither its name nor the shape of an array counts.  Tables whose variables agree in that are
compiled alike.

* **`Var.Alike`**, **`VarTable.Alike`** — agreement of variables and of tables.
* **`Alike.allocate`** — functions are placed alike.
* **`Alike.func`**, **`Alike.text`** — they are lowered and written alike.
-/

namespace Tac

/-- The variables have the same class, number and, unless they are parameters, size. -/
structure Var.Alike (v w : Var) : Prop where
  cls : w.cls = v.cls
  index : w.index = v.index
  array : v.cls ≠ .arg → w.isArray = v.isArray
  elems : v.cls ≠ .arg → w.elems = v.elems

/-- At each position the tables have variables that are alike, or neither has one. -/
def VarTable.Alike (vars vars' : VarTable) : Prop :=
  ∀ id, Option.Rel Var.Alike (vars.get? id) (vars'.get? id)

namespace Var.Alike

variable {v w : Var} (h : v.Alike w)

include h

theorem text : w.text = v.text := by
  rw [Var.text, Var.text, h.cls, h.index]

/-- Variables that are alike and no parameters take the same number of bytes. -/
theorem bytes (hcls : v.cls ≠ .arg) : w.bytes = v.bytes := by
  rw [Var.bytes, Var.bytes, h.elems hcls]

/-- Variables that are alike have the same number in the analyses. -/
theorem number? : w.number? = v.number? := by
  have harray := h.array
  unfold Var.number?
  rw [h.cls, h.index]
  -- Only for a local does the shape decide, and its size agrees.
  cases hc : v.cls with
  | global | arg => rfl
  | loc => rw [harray (by rw [hc]; decide)]

end Var.Alike

namespace VarTable.Alike

variable {vars vars' : VarTable} (h : vars.Alike vars')

include h

/-- At each position both tables have variables that are alike, or neither has one. -/
theorem get?_cases (id : VarId) : (vars.get? id = none ∧ vars'.get? id = none) ∨
    ∃ v w, vars.get? id = some v ∧ vars'.get? id = some w ∧ v.Alike w := by
  have hid := h id
  -- The tables have the same positions, so both entries are there or none.
  cases hv : vars.get? id with
  | none =>
    cases hw : vars'.get? id with
    | none => exact Or.inl ⟨rfl, rfl⟩
    | some w => rw [hv, hw] at hid; cases hid
  | some v =>
    cases hw : vars'.get? id with
    | none => rw [hv, hw] at hid; cases hid
    | some w =>
      rw [hv, hw] at hid
      cases hid with
      | some hvw => exact Or.inr ⟨v, w, rfl, rfl, hvw⟩

theorem isSome_get? (id : VarId) : (vars'.get? id).isSome = (vars.get? id).isSome := by
  rcases h.get?_cases id with ⟨hv, hw⟩ | ⟨v, w, hv, hw, -⟩ <;> rw [hv, hw]
  rfl

theorem name_eq (id : VarId) : (vars'.get? id).map Var.text = (vars.get? id).map Var.text := by
  rcases h.get?_cases id with ⟨hv, hw⟩ | ⟨v, w, hv, hw, hvw⟩ <;> rw [hv, hw]
  rw [Option.map_some, Option.map_some, hvw.text]

/-! ## Analysis -/

/-- The same operands have a variable. -/
theorem resolves : vars'.resolves = vars.resolves := by
  funext v
  cases v with
  | const | temp => rfl
  | var id => exact h.isSome_get? id

/-- Operands have the same numbers. -/
theorem number? : vars'.number? = vars.number? := by
  funext v
  cases v with
  | const | temp => rfl
  | var id =>
    rcases h.get?_cases id with ⟨hv, hw⟩ | ⟨v, w, hv, hw, hvw⟩ <;>
      simp only [VarTable.number?, hv, hw, Option.bind_some, Option.bind_none]
    exact hvw.number?

/-- Operands are the same virtual registers. -/
theorem vreg? : vars'.vreg? = vars.vreg? := by
  funext v
  rw [VarTable.vreg?, VarTable.vreg?, h.number?]

/-- Statements write the same virtual registers. -/
theorem defs : Stmt.defs vars' = Stmt.defs vars := by
  funext s
  rw [Stmt.defs, Stmt.defs, h.vreg?]

/-- Statements read the same virtual registers. -/
theorem uses : Stmt.uses vars' = Stmt.uses vars := by
  funext s
  rw [Stmt.uses, Stmt.uses, h.vreg?]

/-- The same statements can be numbered. -/
theorem isNumbered : Stmt.isNumbered vars' = Stmt.isNumbered vars := by
  have hval : vars'.isNumbered = vars.isNumbered := by
    funext v
    rw [VarTable.isNumbered, VarTable.isNumbered, h.resolves, h.number?]
  funext s
  rw [Stmt.isNumbered, Stmt.isNumbered, hval]

/-- The analyses of a function are the same, errors included. -/
theorem analyze : Func.analyze vars' = Func.analyze vars := by
  -- All that the analyses read of the table are the registers that a statement reads and
  -- writes.
  have hfacts : Liveness.facts vars' = Liveness.facts vars := by
    funext f flow
    rw [Liveness.facts, Liveness.facts, h.defs, h.uses]
  have hlive : Liveness.analyze vars' = Liveness.analyze vars := by
    funext f flow
    rw [Liveness.analyze, Liveness.analyze, hfacts]
  funext f
  rw [Func.analyze, Func.analyze, h.isNumbered, hlive]

/-- The same statements are pruned. -/
theorem prune : Analysis.prune vars' = Analysis.prune vars := by
  have hkeeps : Func.keeps vars' = Func.keeps vars := by
    funext f r i s
    rw [Func.keeps, Func.keeps, Stmt.numbers, Stmt.numbers, h.number?]
  funext a
  rw [Analysis.prune, Analysis.prune, Func.prune, Func.prune, hkeeps]

/-- The rounds of analyses and prunings are the same. -/
theorem settle : Func.settle vars' = Func.settle vars := by
  funext f
  have hanalyze := congrFun h.analyze
  have hprune := congrFun h.prune
  -- On the rounds: an error, a function with nothing to prune, or one more round.
  fun_induction Func.settle vars f with
  | case1 f e he => exact Func.settle_of_error ((hanalyze f).trans he)
  | case2 f a ha hr => exact Func.settle_of_clean ((hanalyze f).trans ha) (by rw [hprune, hr])
  | case3 f a ha hr rounds e hrounds ih =>
    refine Func.settle_of_pruned ((hanalyze f).trans ha) (by rwa [hprune]) ?_
    rw [hprune, ih]
    exact hrounds

/-! ## Colouring -/

/-- The same virtual registers should share a register. -/
theorem ofFunc : Affinity.ofFunc vars' = Affinity.ofFunc vars := by
  have hobserve : Affinity.Survey.observe vars' = Affinity.Survey.observe vars := by
    funext a s
    unfold Affinity.Survey.observe
    rw [h.number?]
  funext f
  rw [Affinity.ofFunc, Affinity.ofFunc, Affinity.Survey.ofStmts, Affinity.Survey.ofStmts, hobserve]

/-- No variable of the list is a parameter. -/
theorem layoutArrays {ids : List VarId}
    (hids : ∀ id ∈ ids, ∀ v, vars.get? id = some v → v.cls ≠ .arg) (slot : Int)
    (arrays : Std.TreeMap Int Loc) :
    Coloring.layoutArrays vars' slot arrays ids = Coloring.layoutArrays vars slot arrays ids := by
  -- On the locals, for any slot that is free next and any arrays that are placed already.
  induction ids generalizing slot arrays with
  | nil => rfl
  | cons id ids ih =>
    obtain ⟨hid, hids⟩ := List.forall_mem_cons.1 hids
    rcases h.get?_cases id with ⟨hv, hw⟩ | ⟨v, w, hv, hw, hvw⟩
    · simp only [Coloring.layoutArrays, hv, hw]
      exact ih hids slot arrays
    · have hcls := hid v hv
      simp only [Coloring.layoutArrays, hv, hw, hvw.array hcls, hvw.elems hcls]
      split
      · exact ih hids _ _
      · exact ih hids slot arrays

/-- Functions whose locals are no parameters are placed alike. -/
theorem allocate {f : Func} (hlocals : ∀ id ∈ f.locals, ∀ v, vars.get? id = some v → v.cls ≠ .arg)
    (regs : List Reg) : f.allocate vars' regs = f.allocate vars regs := by
  -- Pruning keeps the locals, so what is known of the function holds behind all rounds.
  have hrun : ∀ g : Func, g.locals = f.locals → ∀ graph a,
      Coloring.run vars' g graph a regs = Coloring.run vars g graph a regs := by
    intro g hg graph a
    rw [Coloring.run, Coloring.run, h.layoutArrays (hg ▸ hlocals)]
  have hall : (f.locals.all fun id => (vars'.get? id).isSome) =
      f.locals.all fun id => (vars.get? id).isSome := by
    simp only [h.isSome_get?]
  rw [Func.allocate, Func.allocate, h.settle]
  cases hs : f.settle vars with
  | mk rounds e =>
    cases e with
    | some e => cases e <;> rfl
    | none =>
      obtain ⟨a, hlast, -, -, -, -, hkept⟩ := Func.settle_last hs
      simp only [hlast, hall, hrun a.func hkept, h.ofFunc]

/-- Functions are placed alike, one after the other, up to the same error. -/
theorem placeFuncs {fs : List Func}
    (hlocals : ∀ f ∈ fs, ∀ id ∈ f.locals, ∀ v, vars.get? id = some v → v.cls ≠ .arg) (regs : List Reg) :
    Program.placeFuncs vars' regs fs = Program.placeFuncs vars regs fs := by
  induction fs with
  | nil => rfl
  | cons f fs ih =>
    obtain ⟨hf, hfs⟩ := List.forall_mem_cons.1 hlocals
    rw [Program.placeFuncs, Program.placeFuncs, h.allocate hf, ih hfs]

end VarTable.Alike

/-! ## Lowering -/

/-- The context with another table of variables. -/
def Lowering.Context.over (cx : Context) (vars : VarTable) : Context := { cx with vars }

namespace VarTable.Alike

open Lowering

variable {cx : Context} {vars' : VarTable} (h : cx.vars.Alike vars')

include h

/-- Operands are fetched by the same code. -/
theorem fetch : fetch (cx.over vars') = fetch cx := by
  funext scratch v
  have hvreg : (cx.over vars').vars.vreg? = cx.vars.vreg? := h.vreg?
  have hget : (cx.over vars').vars.get? = vars'.get? := rfl
  have hplaced : (cx.over vars').placed = cx.placed := rfl
  cases v with
  | const n => rfl
  | temp n => simp only [Lowering.fetch, hvreg, hplaced]
  | var id =>
    rcases h.get?_cases id with ⟨hv, hw⟩ | ⟨v, w, hv, hw, hvw⟩ <;>
      simp only [Lowering.fetch, hvreg, hplaced, hget, hv, hw]
    -- For a parameter neither shape nor size is looked at; for the others both agree.
    rw [hvw.cls, hvw.index, hvw.text]
    cases hcls : v.cls with
    | arg => rfl
    | global | loc => rw [hvw.array (by rw [hcls]; decide)]

/-- Results are computed in the same registers. -/
theorem target : target (cx.over vars') = target cx := by
  funext v
  have hvreg : (cx.over vars').vars.vreg? = cx.vars.vreg? := h.vreg?
  have hget : (cx.over vars').vars.get? = vars'.get? := rfl
  have hplaced : (cx.over vars').placed = cx.placed := rfl
  cases v with
  | const n => rfl
  | temp n => simp only [Lowering.target, hvreg, hplaced]
  | var id =>
    rcases h.get?_cases id with ⟨hv, hw⟩ | ⟨v, w, hv, hw, hvw⟩ <;>
      simp only [Lowering.target, hvreg, hplaced, hget, hv, hw]
    rw [hvw.cls, hvw.text]
    -- The size matters only for globals, which are no parameters.
    cases hcls : v.cls with
    | arg | loc => rfl
    | global => rw [hvw.array (by rw [hcls]; decide)]

/-- Results are put away by the same code. -/
theorem finish : finish (cx.over vars') = finish cx := by
  funext v r
  have hvreg : (cx.over vars').vars.vreg? = cx.vars.vreg? := h.vreg?
  have hget : (cx.over vars').vars.get? = vars'.get? := rfl
  have hplaced : (cx.over vars').placed = cx.placed := rfl
  cases v with
  | const n => rfl
  | temp n => simp only [Lowering.finish, hvreg, hplaced]
  | var id =>
    rcases h.get?_cases id with ⟨hv, hw⟩ | ⟨v, w, hv, hw, hvw⟩ <;>
      simp only [Lowering.finish, hvreg, hplaced, hget, hv, hw]
    rw [hvw.index]

/-- The same results are read by nobody. -/
theorem unread : unread (cx.over vars') = unread cx := by
  funext i v
  have hvreg : (cx.over vars').vars.vreg? = cx.vars.vreg? := h.vreg?
  rw [Lowering.unread, Lowering.unread, hvreg]
  rfl

/-- The same statements are left out. -/
theorem elided : elided (cx.over vars') = elided cx := by
  funext i s
  rw [Lowering.elided, Lowering.elided, h.unread]

/-- Addresses are computed by the same code. -/
theorem address : address (cx.over vars') = address cx := by
  funext v off
  rw [Lowering.address, Lowering.address, h.fetch]

/-- Operands are moved to a register by the same code. -/
theorem moveInto : moveInto (cx.over vars') = moveInto cx := by
  funext d v
  unfold Lowering.moveInto
  rw [h.fetch]

/-- Arguments are passed by the same code. -/
theorem passArgs (saved : List Reg) (k : Nat) (vs : List Val) :
    passArgs (cx.over vars') saved k vs = passArgs cx saved k vs := by
  have hpass : Lowering.passArg (cx.over vars') = Lowering.passArg cx := by
    funext saved k dst v
    have hvreg : (cx.over vars').vars.vreg? = cx.vars.vreg? := h.vreg?
    unfold Lowering.passArg
    rw [hvreg, h.moveInto]
    rfl
  induction vs generalizing k with
  | nil => rfl
  | cons v vs ih => rw [Lowering.passArgs, Lowering.passArgs, hpass, ih]

/-- Calls are lowered to the same code. -/
theorem call : call (cx.over vars') = call cx := by
  funext i ret callee args
  -- The parts of a call that look at a variable, one by one.
  have htake : Lowering.takeResult (cx.over vars') = Lowering.takeResult cx := by
    funext v
    rw [Lowering.takeResult, Lowering.takeResult, h.target, h.finish]
  have hresult : Lowering.resultReg? (cx.over vars') = Lowering.resultReg? cx := by
    funext v
    have hvreg : (cx.over vars').vars.vreg? = cx.vars.vreg? := h.vreg?
    rw [Lowering.resultReg?, Lowering.resultReg?, hvreg]
    rfl
  unfold Lowering.call
  simp only [h.passArgs, h.unread, htake, hresult]
  rfl

/-- Zero fills are lowered to the same code. -/
theorem zeroFill : zeroFill (cx.over vars') = zeroFill cx := by
  funext loop v
  cases v with
  | const | temp => rfl
  | var id =>
    have hget : (cx.over vars').vars.get? = vars'.get? := rfl
    have hplaced : (cx.over vars').placed = cx.placed := rfl
    rcases h.get?_cases id with ⟨hv, hw⟩ | ⟨v, w, hv, hw, hvw⟩ <;>
      simp only [Lowering.zeroFill, hplaced, hget, hv, hw]
    rw [hvw.text]

/-- Statements are lowered to the same code. -/
theorem stmt : stmt (cx.over vars') = stmt cx := by
  funext fresh i s
  unfold Lowering.stmt
  rw [h.elided, h.call, h.zeroFill]
  simp only [binary, unary, move, store, load, branch, ret, h.target, h.fetch, h.finish, h.address,
    h.moveInto]

/-- Bodies are lowered to the same code. -/
theorem stmts (c : Counters) (i : Nat) (ss : List Stmt) :
    stmts (cx.over vars') c i ss = stmts cx c i ss := by
  induction ss generalizing c i with
  | nil => rfl
  | cons s ss ih =>
    have hadvance : advance (cx.over vars') c s = advance cx c s := rfl
    rw [Lowering.stmts, Lowering.stmts, h.stmt, hadvance, ih]

/-- Functions are lowered to the same code, hand-written bodies included. -/
theorem funcOrBuiltin (c : Counters) : funcOrBuiltin (cx.over vars') c = funcOrBuiltin cx c := by
  have hfunc : Lowering.func (cx.over vars') c = Lowering.func cx c := by
    unfold Lowering.func
    rw [h.stmts]
    rfl
  unfold Lowering.funcOrBuiltin
  rw [hfunc]
  rfl

end VarTable.Alike

/-! ## Counters -/

/-- Results that come with the same next label. -/
inductive SameLabels {ε α : Type} : Except ε (α × Counters) → Except ε (α × Counters) → Prop where
  | error (e : ε) : SameLabels (.error e) (.error e)
  | ok (a : α) {c c' : Counters} (h : c'.labels = c.labels) : SameLabels (.ok (a, c)) (.ok (a, c'))

namespace Lowering

variable (cx : Context) {c c' : Counters}

/-- Lowering reads no counter but that of the labels. -/
theorem sameLabels_stmts (h : c'.labels = c.labels) (i : Nat) (ss : List Stmt) :
    SameLabels (stmts cx c i ss) (stmts cx c' i ss) := by
  -- On the statements, from any two counters that agree in the next label.
  induction ss generalizing c c' i with
  | nil => exact .ok _ h
  | cons s ss ih =>
    have hadvance : (advance cx c' s).labels = (advance cx c s).labels := by
      unfold advance
      split
      · exact congrArg (fun l => wrap64 (l + 1)) h
      · exact h
    rw [stmts, stmts, h]
    cases stmt cx c.labels i s with
    | error e => exact .error _
    | ok code =>
      have hrest := ih hadvance (i + 1)
      revert hrest
      generalize stmts cx (advance cx c s) (i + 1) ss = r
      generalize stmts cx (advance cx c' s) (i + 1) ss = r'
      rintro (e | ⟨rest, hlabels⟩)
      · exact .error e
      · exact .ok _ hlabels

/-- A function is lowered alike from counters that agree in the next label. -/
theorem sameLabels_funcOrBuiltin (h : c'.labels = c.labels) :
    SameLabels (funcOrBuiltin cx c) (funcOrBuiltin cx c') := by
  unfold funcOrBuiltin
  cases cx.placed.func.builtin with
  | some b =>
    cases hb : Builtin.find? b with
    | none =>
      simp only [hb]
      exact .error _
    | some b =>
      simp only [hb]
      -- A hand-written body draws its labels in advance, and the same ones.
      obtain ⟨hls, hc⟩ := Builtin.drawLabels_eq b.labels c
      obtain ⟨hls', hc'⟩ := Builtin.drawLabels_eq b.labels c'
      have hcode : (b.lower c').1 = (b.lower c).1 := by
        simp only [Builtin.lower, hls, hls', h]
      show SameLabels (.ok ((b.lower c).1, (b.lower c).2)) (.ok ((b.lower c').1, (b.lower c').2))
      rw [hcode]
      exact .ok _ (hc'.trans (h ▸ hc.symm))
  | none =>
    have hstmts := sameLabels_stmts cx h 0 cx.placed.func.stmts
    unfold func
    revert hstmts
    generalize stmts cx c 0 cx.placed.func.stmts = r
    generalize stmts cx c' 0 cx.placed.func.stmts = r'
    rintro (e | ⟨body, hlabels⟩)
    · exact .error _
    · exact .ok _ hlabels

end Lowering

/-- All functions are lowered to the same code, labels included. -/
theorem VarTable.Alike.funcs {vars vars' : VarTable} (h : vars.Alike vars') (sets : ClobberSets)
    {c c' : Counters} (hc : c'.labels = c.labels) (ps : List Placement) :
    Lowering.funcs vars' sets c' ps = Lowering.funcs vars sets c ps := by
  -- On the functions; behind each of them the counters agree in the next label again.
  induction ps generalizing c c' with
  | nil => rfl
  | cons p ps ih =>
    let cx : Lowering.Context := { vars, sets, placed := p }
    have halike : cx.vars.Alike vars' := h
    have hstep : SameLabels (Lowering.funcOrBuiltin cx c) (Lowering.funcOrBuiltin (cx.over vars') c') := by
      rw [halike.funcOrBuiltin]
      exact Lowering.sameLabels_funcOrBuiltin cx hc
    unfold Lowering.funcs
    revert hstep
    show SameLabels (Lowering.funcOrBuiltin { vars, sets, placed := p } c)
      (Lowering.funcOrBuiltin { vars := vars', sets, placed := p } c') → _
    generalize Lowering.funcOrBuiltin { vars, sets, placed := p } c = r
    generalize Lowering.funcOrBuiltin { vars := vars', sets, placed := p } c' = r'
    rintro (e | ⟨f, hlabels⟩)
    · rfl
    · simp only [ih hlabels]

/-! ## Text -/

namespace VarTable.Alike

open Program.Printer

variable {vars vars' : VarTable} (h : vars.Alike vars')

include h

/-- Operands are printed alike. -/
theorem plain : plain vars' = plain vars := by
  funext v
  cases v with
  | const | temp => rfl
  | var id => exact congrArg (Option.getD · "") (h.name_eq id)

/-- Operands are annotated with the same places. -/
theorem placeOf : placeOf vars' = placeOf vars := by
  funext a v
  cases v with
  | const | temp => simp only [Program.Printer.placeOf, h.vreg?]
  | var id =>
    rcases h.get?_cases id with ⟨hv, hw⟩ | ⟨v, w, hv, hw, hvw⟩ <;>
      simp only [Program.Printer.placeOf, h.vreg?, hv, hw]
    rw [Option.map_some, Option.map_some, hvw.cls]

/-- Statements are printed alike, with their annotations. -/
theorem stmtAt : stmtAt vars' = stmtAt vars := by
  have hvalue : value vars' = value vars := by
    funext ann v
    unfold value
    rw [h.plain, h.placeOf]
  have hliveness : liveness vars' = liveness vars := by
    funext a i s
    rw [liveness, liveness, h.defs, h.uses]
  funext ann i s
  unfold Program.Printer.stmtAt
  rw [hvalue, hliveness]

/-- Variables that are no parameters are declared alike. -/
theorem decls {ids : List VarId} (hids : ∀ id ∈ ids, ∀ v, vars.get? id = some v → v.cls ≠ .arg)
    (before : String) : decls vars' before ids = decls vars before ids := by
  unfold Program.Printer.decls
  congr 1
  refine List.map_congr_left fun id hid => ?_
  rcases h.get?_cases id with ⟨hv, hw⟩ | ⟨v, w, hv, hw, hvw⟩ <;> rw [hv, hw]
  have hcls := hids id hid v hv
  rw [Option.map_some, Option.map_some, decl, decl, hvw.array hcls, hvw.text, hvw.bytes hcls]

/-- Functions are printed alike. -/
theorem text {f : Func} (hlocals : ∀ id ∈ f.locals, ∀ v, vars.get? id = some v → v.cls ≠ .arg)
    (ann : Option Annotation) : f.text vars' ann = f.text vars ann := by
  unfold Func.text
  rw [h.decls hlocals, h.stmtAt]

/-- The same functions can be printed. -/
theorem isNamed : Func.isNamed vars' = Func.isNamed vars := by
  funext f
  simp only [Func.isNamed, h.isSome_get?, h.resolves]

end VarTable.Alike

/-! ## Globals -/

/-- The same position with variables that are alike and no parameters. -/
structure GlobalsAlike (x y : VarId × Var) : Prop where
  id : y.1 = x.1
  var : x.2.Alike y.2
  no_param : x.2.cls ≠ .arg

/-- The globals of both tables are alike one by one, or both lists miss a variable. -/
theorem VarTable.Alike.globals {vars vars' : VarTable} (h : vars.Alike vars') {ids : List VarId}
    (hids : ∀ id ∈ ids, ∀ v, vars.get? id = some v → v.cls ≠ .arg) :
    Option.Rel (List.Forall₂ GlobalsAlike) (ids.mapM fun id => (vars.get? id).map fun v => (id, v))
      (ids.mapM fun id => (vars'.get? id).map fun v => (id, v)) := by
  induction ids with
  | nil => exact .some .nil
  | cons id ids ih =>
    obtain ⟨hid, hids⟩ := List.forall_mem_cons.1 hids
    rw [List.mapM_cons, List.mapM_cons]
    -- A global is missing in both tables or in none.
    rcases h.get?_cases id with ⟨hv, hw⟩ | ⟨v, w, hv, hw, hvw⟩ <;> rw [hv, hw]
    · exact .none
    · have hrest := ih hids
      revert hrest
      generalize (ids.mapM fun id => (vars.get? id).map fun v => (id, v)) = gs
      generalize (ids.mapM fun id => (vars'.get? id).map fun v => (id, v)) = gs'
      rintro (hrest | _)
      · exact .some (.cons ⟨rfl, hvw, hid v hv⟩ hrest)
      · exact .none

/-- Functions that agree on related elements give the same lists. -/
theorem map_congr_forall₂ {α β : Type} {R : α → α → Prop} {xs ys : List α} (h : List.Forall₂ R xs ys)
    {f g : α → β} (hfg : ∀ x y, R x y → g y = f x) : ys.map g = xs.map f := by
  induction h with
  | nil => rfl
  | cons hxy _ ih => rw [List.map_cons, List.map_cons, hfg _ _ hxy, ih]

/-! ## Programs -/

/-- The programs differ at most in what compiling does not read. -/
structure Program.Alike (p q : Program) : Prop where
  vars : p.vars.Alike q.vars
  globals : q.globals = p.globals
  inits : q.inits = p.inits
  funcs : q.funcs = p.funcs
  labels : q.counters.labels = p.counters.labels
  no_params : ∀ id ∈ p.globals, ∀ v, p.vars.get? id = some v → v.cls ≠ .arg
  no_params_locals : ∀ f ∈ p.funcs, ∀ id ∈ f.locals, ∀ v, p.vars.get? id = some v → v.cls ≠ .arg

namespace Program.Alike

variable {p q : Program} (h : p.Alike q)

include h

/-- Preparing programs, with or without hand-written bodies, leaves them alike. -/
theorem prepare (o : Options) : (p.prepare o).Alike (q.prepare o) where
  vars := by
    rw [prepare_vars, prepare_vars]
    exact h.vars
  globals := by
    unfold Program.prepare
    split <;> exact h.globals
  inits := by
    unfold Program.prepare
    split <;> exact h.inits
  funcs := by rw [prepare_funcs, prepare_funcs, h.funcs]
  labels := by
    rw [prepare_counters, prepare_counters]
    exact h.labels
  no_params := by
    unfold Program.prepare
    split <;> exact h.no_params
  no_params_locals := by
    rw [prepare_funcs, prepare_vars]
    refine List.forall_mem_map.2 fun f hf => ?_
    split <;> exact h.no_params_locals f hf

theorem place (o : Options) : q.place o = p.place o := by
  rw [Program.place, Program.place, h.funcs, h.vars.placeFuncs h.no_params_locals]

omit h in
/-- Globals are lowered to the same data. -/
theorem globalVar (hinits : q.inits = p.inits) {x y : VarId × Var} (hxy : GlobalsAlike x y) :
    Lowering.globalVar q y.1 y.2 = Lowering.globalVar p x.1 x.2 := by
  rw [Lowering.globalVar, Lowering.globalVar, hinits, hxy.id, hxy.var.index, hxy.var.array hxy.no_param,
    hxy.var.elems hxy.no_param]

omit h in
/-- The code in front of the main function, which fills the globals, is the same. -/
theorem entry (hinits : q.inits = p.inits) {gs gs' : List (VarId × Var)}
    (h : List.Forall₂ GlobalsAlike gs gs') : Lowering.entry q gs' = Lowering.entry p gs := by
  have hpieces : ∀ x y, GlobalsAlike x y →
      Lowering.arrayPieces q y.1 y.2 = Lowering.arrayPieces p x.1 x.2 := fun x y hxy => by
    unfold Lowering.arrayPieces Lowering.arrayInits
    rw [hinits, hxy.id, hxy.var.index]
  unfold Lowering.entry
  rw [List.flatMap_def, List.flatMap_def, map_congr_forall₂ h hpieces]

/-- Placed programs are lowered to the same code. -/
theorem lowerPlaced (ps : List Placement) : q.lowerPlaced ps = p.lowerPlaced ps := by
  -- The sets depend on statements and locations only.
  have hprogram : ∀ sets, Lowering.program q sets ps = Lowering.program p sets ps := by
    intro sets
    have hglobals := h.vars.globals h.no_params
    unfold Lowering.program Lowering.globals?
    rw [h.globals, h.vars.funcs sets h.labels ps]
    revert hglobals
    generalize (p.globals.mapM fun id => (p.vars.get? id).map fun v => (id, v)) = gs
    generalize (p.globals.mapM fun id => (q.vars.get? id).map fun v => (id, v)) = gs'
    rintro (hgs | _)
    · simp only [entry h.inits hgs]
      rw [map_congr_forall₂ hgs fun x y => globalVar h.inits]
    · rfl
  unfold Program.lowerPlaced
  simp only [hprogram]

/-- Both programs can be printed or neither. -/
theorem isNamed : q.isNamed = p.isNamed := by
  rw [Program.isNamed, Program.isNamed, h.globals, h.inits, h.funcs, h.vars.isNamed]
  simp only [h.vars.isSome_get?]

/-- Programs are printed alike. -/
theorem text (anns : List (Option Annotation)) : q.text anns = p.text anns := by
  have hinit : initText q.vars = initText p.vars := by
    funext i
    unfold initText
    rw [h.vars.name_eq]
  have hglobals : q.globalsText = p.globalsText := by
    rw [globalsText, globalsText, h.globals, h.inits, h.vars.decls h.no_params, hinit]
  unfold Program.text
  rw [h.funcs, hglobals]
  exact congrArg (appendFuncs p.globalsText) (List.map_congr_left fun x hx =>
    h.vars.text (h.no_params_locals _ (List.fst_mem_of_mem_zipIdx hx)) _)

theorem plainText? : q.plainText? = p.plainText? := by
  rw [Program.plainText?, Program.plainText?, h.isNamed, h.text]

/-- Placed functions have the locals that they had. -/
theorem placed {o : Options} {ps : List Placement} (hps : p.place o = .ok ps) :
    Program.Alike { p with funcs := ps.map Placement.func } { q with funcs := ps.map Placement.func } where
  vars := h.vars
  globals := h.globals
  inits := h.inits
  funcs := rfl
  labels := h.labels
  no_params := h.no_params
  no_params_locals := List.forall_mem_map.2 fun x hx => by
    obtain ⟨f, hf, hfx⟩ := exists_left_of_forall₂ (forall₂_of_placeFuncs hps) hx
    obtain ⟨a, c, hplaced⟩ := Func.allocated_of_ok hfx
    rw [hplaced.locals_eq]
    exact h.no_params_locals f hf

/-- Programs have the same text with annotations. -/
theorem annotatedText {o : Options} {ps : List Placement} (hps : p.place o = .ok ps) :
    q.annotatedText ps = p.annotatedText ps := by
  rw [Program.annotatedText, Program.annotatedText, (h.placed hps).isNamed, (h.placed hps).text]

/-- Compiling gives the same result, whatever is asked for. -/
theorem compile (o : Options) (mode : Mode) : q.compile o mode = p.compile o mode := by
  have h := h.prepare o
  unfold Program.compile
  cases mode with
  | ir => simp only [h.plainText?]
  | assembly | annotated | abstract | unknown =>
    simp only [h.place]
    cases hps : (p.prepare o).place o with
    | error e => rfl
    | ok ps => simp only [h.annotatedText hps, h.lowerPlaced]

end Program.Alike

end Tac
