import Mathlib
import Tac.Proofs.Layout
import Tac.Proofs.WellFormed

/-!
# Compiling by way of text

A program that is generated from a tree declares its variables in the order in which they enter the
table, and uses only what it declares.  So its text tells all that compiling reads: written, read again
and compiled with the same settings, it gives the same output.

* **`Laid`** — the order of the variables, which each step of generation keeps.
* **`Writable`** — what a generated program needs for its text to be read again.
* **`printable_generate`**, **`inOrder_generate`** — generated programs that are writable.
* **`compile_text`** — compiling the text of a tree is compiling the tree.
-/

namespace Tac.Tree.Generate

open Relaid

/-! ## The order of variables -/

/-- The variables of a program stand in the order of declaration, and their classes and the numbers of
parameters are those of their declarations. -/
structure Laid (p : Program) : Prop where
  order : p.declared = positions 0 p.vars.size
  globals : ∀ id ∈ p.globals, ∃ v, p.vars.get? id = some v ∧ v.cls = .global
  inits : ∀ i ∈ p.inits, i.var ∈ p.globals ∧ (i.off = -1 ∨ 0 ≤ i.off)
  few : ∀ f ∈ p.funcs, f.params.length ≤ Reg.argCount
  params : ∀ f ∈ p.funcs, ∀ (k : Nat) id, f.params[k]? = some id →
    ∃ v, p.vars.get? id = some v ∧ v.cls = .arg ∧ v.index = k
  locals : ∀ f ∈ p.funcs, ∀ id ∈ f.locals, ∃ v, p.vars.get? id = some v ∧ v.cls = .loc

/-- Before any declaration nothing is laid out. -/
theorem laid_empty : Laid {} where
  order := rfl
  globals := nofun
  inits := nofun
  few := nofun
  params := nofun
  locals := nofun

theorem places_eq (vars : VarTable) (k : Nat) : places vars k = positions vars.size k := rfl

theorem positions_concat (n : Nat) : positions 0 (n + 1) = positions 0 n ++ [(n : VarId)] := by
  rw [positions_add, Nat.zero_add]
  rfl

/-- The initializers of a global are for that global, and say a scalar or an offset that
is not negative. -/
theorem mem_globalInits {decls : Decls} {d : Decl} {var : VarId} {k : Int} (hk : 0 ≤ k) {es : List Expr}
    {is : List Init} (h : globalInits decls d var k es = .ok is) :
    ∀ i ∈ is, i.var = var ∧ (i.off = -1 ∨ 0 ≤ i.off) := by
  -- On the initial values, with the offset of the first.
  induction es generalizing k is with
  | nil =>
    cases h
    exact List.forall_mem_nil _
  | cons e es ih =>
    unfold globalInits at h
    simp only at h
    split at h
    · cases h
    · cases h
    -- A zero leaves no initializer, since the memory of globals is cleared.
    · split at h
      · exact ih (by omega) h
      · obtain ⟨rest, hrest, h⟩ := Tac.bind_eq_ok.1 h
        cases h
        refine List.forall_mem_cons.2 ⟨⟨rfl, ?_⟩, ih (by omega) hrest⟩
        dsimp only
        split <;> omega

/-- Parameters are numbered in order. -/
theorem get?_addParams (decls : Decls) {table : VarTable} (ds : List DeclId) (i : Nat) (st : State)
    (htable : (addParams decls i st ds).1.vars.toList <+: table.toList) {k : Nat} (hk : k < ds.length) :
    ∃ v, table.get? ((st.vars.size + k : Nat) : VarId) = some v ∧ v.cls = .arg ∧ v.index = (i + k : Nat) := by
  -- On the parameters; each has the number of how many came before.
  induction ds generalizing i st k with
  | nil => cases hk
  | cons d ds ih =>
    let v : Var := { name := (decls.at d).name, cls := .arg, index := i, dims := shape (decls.at d) }
    let st₁ : State := { st with vars := st.vars.push v, scope := st.scope.insert d st.vars.size }
    have hsize : st₁.vars.size = st.vars.size + 1 := Array.size_push v
    have hrest : (addParams decls (i + 1) st₁ ds).1.vars.toList <+: table.toList := htable
    -- The first parameter is the one just added; the table only grows behind it.
    cases k with
    | zero =>
      have hpre := (addParams_inv decls (i + 1) st₁ ds).1.isPrefix.trans hrest
      exact ⟨v, get?_of_prefix hpre (get?_push_size st.vars v), rfl, rfl⟩
    | succ k =>
      obtain ⟨w, hw, hcls, hindex⟩ := ih (i + 1) st₁ hrest (Nat.lt_of_succ_lt_succ hk)
      rw [hsize, Nat.add_right_comm] at hw
      rw [Nat.add_right_comm] at hindex
      exact ⟨w, hw, hcls, hindex⟩

/-- What a global adds to the program. -/
theorem addGlobal_inv {decls : Decls} {p p' : Progress} {d : DeclId}
    (h : addGlobal decls p d = .ok p') : ∃ v inits, v.cls = .global ∧
      globalInits decls (decls.at d) p.program.vars.size 0 ((decls.at d).init.getD []) = .ok inits ∧
      p'.program = { p.program with
        vars := p.program.vars.push v, globals := p.program.globals ++ [(p.program.vars.size : VarId)]
        inits := p.program.inits ++ inits, counters := p.program.counters.nextVar } := by
  obtain ⟨inits, hinits, hp⟩ := Tac.bind_eq_ok.1 h
  cases hp
  exact ⟨_, inits, rfl, hinits, rfl⟩

/-- A global enters the table behind all others. -/
theorem laid_addGlobal {decls : Decls} {p p' : Progress} {d : DeclId}
    (h : addGlobal decls p d = .ok p') (hl : Laid p.program) (hnone : p.program.funcs = []) :
    Laid p'.program ∧ p'.program.funcs = [] := by
  obtain ⟨v, inits, hcls, hinits, hp⟩ := addGlobal_inv h
  have hpre : p.program.vars.toList <+: (p.program.vars.push v).toList := ⟨[v], Array.toList_push.symm⟩
  have hfuncs : p'.program.funcs = [] := by rw [hp, ← hnone]
  -- While globals are added there are no functions, so only the order, the globals and the
  -- initial values have to be looked at.
  have hno : ∀ f, f ∉ p'.program.funcs := fun f hf => List.not_mem_nil (hfuncs ▸ hf)
  refine ⟨⟨?_, ?_, ?_, fun f hf => absurd hf (hno f), fun f hf => absurd hf (hno f),
    fun f hf => absurd hf (hno f)⟩, hfuncs⟩
  · have horder := hl.order
    rw [Program.declared, hnone, List.flatMap_nil, List.append_nil] at horder
    rw [Program.declared, hfuncs, List.flatMap_nil, List.append_nil, hp, horder, ← positions_concat]
    exact congrArg (positions 0) (Array.size_push v).symm
  · rw [hp]
    refine List.forall_mem_append.2 ⟨fun id hid => ?_, List.forall_mem_singleton.2 ?_⟩
    · obtain ⟨w, hw, hcls'⟩ := hl.globals id hid
      exact ⟨w, get?_of_prefix hpre hw, hcls'⟩
    · exact ⟨v, get?_push_size _ _, hcls⟩
  · rw [hp]
    refine List.forall_mem_append.2 ⟨fun i hi => ?_, fun i hi => ?_⟩
    · exact ⟨List.mem_append_left _ (hl.inits i hi).1, (hl.inits i hi).2⟩
    · obtain ⟨hvar, hoff⟩ := mem_globalInits (Int.le_refl 0) hinits i hi
      exact ⟨hvar ▸ List.mem_append_right _ (List.mem_singleton_self _), hoff⟩

/-- A function has no more parameters than there are argument registers. -/
theorem few_of_addFunc {b : Bool} {decls : Decls} {p p' : Progress} {f : FuncDef}
    (h : addFunc b decls p f = .ok p') : f.params.length ≤ Reg.argCount := by
  unfold addFunc at h
  by_contra hmany
  rw [if_pos (Nat.lt_of_not_le hmany)] at h
  cases h

/-- The parameters and locals of a function enter the table behind all other variables. -/
theorem laid_addFunc {b : Bool} {decls : Decls} {p p' : Progress} {f : FuncDef}
    (h : addFunc b decls p f = .ok p') (hl : Laid p.program) : Laid p'.program := by
  have hfew := few_of_addFunc h
  obtain ⟨st, hbody, rfl⟩ := addFunc_inv h
  obtain ⟨hparams, hentry⟩ := entry_inv decls p f
  obtain ⟨-, hdecl⟩ := adds_nodes (fun nd _ => adds_node _ nd) [] hbody
  have hsize := hparams.size_eq
  have hsize' := hdecl.named.size_eq
  have hnone : (entry decls p f).locals = #[] := by rw [hentry]
  have hlocals : st.locals.toList = places (entry decls p f).vars (declaredAll f.body).length := by
    rw [hdecl.locals, hnone, Array.toList_empty, List.nil_append]
  have hpre : p.program.vars.toList <+: st.vars.toList := hparams.isPrefix.trans hdecl.named.isPrefix
  refine ⟨?_, fun id hid => ?_, hl.inits, List.forall_mem_append.2 ⟨hl.few, ?_⟩,
    List.forall_mem_append.2 ⟨?_, ?_⟩, List.forall_mem_append.2 ⟨?_, ?_⟩⟩
  -- The new function's own variables come last, its parameters before its locals.
  · have hown : own (compiled b decls f (places p.program.vars f.params.length) st) =
        positions p.program.vars.size (f.params.length + (declaredAll f.body).length) := by
      rw [own, positions_add, ← hsize]
      exact congrArg (places p.program.vars f.params.length ++ ·) hlocals
    have hall := positions_add 0 p.program.vars.size (f.params.length + (declaredAll f.body).length)
    rw [Nat.zero_add] at hall
    show p.program.globals ++ (p.program.funcs ++ [_]).flatMap own = positions 0 st.vars.size
    rw [List.flatMap_append, List.flatMap_singleton, hown, ← List.append_assoc, hsize', hsize,
      Nat.add_assoc, hall]
    exact congrArg (· ++ _) hl.order
  · obtain ⟨v, hv, hcls⟩ := hl.globals id hid
    exact ⟨v, get?_of_prefix hpre hv, hcls⟩
  · refine List.forall_mem_singleton.2 ?_
    show (places p.program.vars f.params.length).length ≤ Reg.argCount
    rwa [places_eq, length_positions]
  -- The variables of the functions before stay where they are, as the table only grows.
  · intro g hg k id hk
    obtain ⟨v, hv, hv'⟩ := hl.params g hg k id hk
    exact ⟨v, get?_of_prefix hpre hv, hv'⟩
  · refine List.forall_mem_singleton.2 fun k id hk => ?_
    obtain ⟨hlt, rfl⟩ := getElem?_places.1 hk
    obtain ⟨v, hv, hcls, hindex⟩ := get?_addParams decls f.params 0
      { vars := p.program.vars, counters := p.program.counters } hdecl.named.isPrefix hlt
    rw [Nat.zero_add] at hindex
    exact ⟨v, hv, hcls, hindex⟩
  · intro g hg id hid
    obtain ⟨v, hv, hcls⟩ := hl.locals g hg id hid
    exact ⟨v, get?_of_prefix hpre hv, hcls⟩
  · refine List.forall_mem_singleton.2 fun id hid => ?_
    exact hdecl.named.get?_of_mem (List.prefix_refl _) (hlocals ▸ hid)

/-- After generation all variables are laid out in order. -/
theorem laid_generate {b : Bool} {u : CompUnit} {p : Program} (h : u.generate b = .ok p) : Laid p := by
  have hglobals : ∀ (ds : List DeclId) (p p' : Progress), ds.foldlM (addGlobal u.decls) p = .ok p' →
      Laid p.program → p.program.funcs = [] → Laid p'.program := by
    intro ds
    induction ds with
    | nil =>
      intro p p' h hl _
      cases h
      exact hl
    | cons d ds ih =>
      intro p p' h hl hnone
      obtain ⟨p₁, h₁, h₂⟩ := Tac.bind_eq_ok.1 h
      obtain ⟨hl₁, hnone₁⟩ := laid_addGlobal h₁ hl hnone
      exact ih p₁ p' h₂ hl₁ hnone₁
  have hfuncs : ∀ (fs : List FuncDef) (p p' : Progress), fs.foldlM (addFunc b u.decls) p = .ok p' →
      Laid p.program → Laid p'.program := by
    intro fs
    -- On the functions; `laid_addFunc` is the step.
    induction fs with
    | nil =>
      intro p p' h hl
      cases h
      exact hl
    | cons f fs ih =>
      intro p p' h hl
      obtain ⟨p₁, h₁, h₂⟩ := Tac.bind_eq_ok.1 h
      exact ih p₁ p' h₂ (laid_addFunc h₁ hl)
  obtain ⟨p₀, h₀, h⟩ := Tac.bind_eq_ok.1 h
  obtain ⟨p', h', hp⟩ := Tac.bind_eq_ok.1 h
  cases hp
  exact hfuncs _ _ _ h' (hglobals _ _ _ h₀ laid_empty rfl)

/-! ## Numbers -/

/-- Different variables that are no parameters have different numbers. -/
theorem Numbered.nodup_indexes {vars : VarTable} {next : Int} (h : Numbered vars next)
    (hsize : vars.size ≤ 1152921504606846976) {ids : List VarId} (hids : ids.Nodup)
    (hvars : ∀ id ∈ ids, ∃ v, vars.get? id = some v ∧ v.cls ≠ .arg) :
    (Relaid.indexes vars ids).Nodup := by
  obtain ⟨k, hk, hothers⟩ := h.exists_drawn
  have hnodup : ((vars.toList.filter fun v => v.cls != .arg).map Var.index).Nodup := by
    rw [hothers]
    exact nodup_drawn (by decide) (by omega)
  rw [List.Nodup, List.pairwise_map, List.pairwise_filter, List.pairwise_iff_getElem] at hnodup
  -- Parameters are numbered by position, all other variables are drawn from one counter.
  have hlt : ∀ id ∈ ids, ∃ i, ∃ hi : i < vars.toList.length, id = (i : Nat) ∧
      vars.at id = vars.toList[i] ∧ vars.toList[i].cls ≠ .arg := by
    intro id hid
    obtain ⟨v, hv, hcls⟩ := hvars id hid
    rw [VarTable.at_eq hv]
    unfold VarTable.get? at hv
    split at hv
    · next hid0 =>
      rw [← Array.getElem?_toList] at hv
      obtain ⟨hi, rfl⟩ := List.getElem?_eq_some_iff.1 hv
      exact ⟨id.toNat, hi, (Int.toNat_of_nonneg hid0).symm, rfl, hcls⟩
    · cases hv
  refine hids.map_on fun id hid id' hid' heq => ?_
  obtain ⟨i, hi, rfl, hat, hcls⟩ := hlt id hid
  obtain ⟨j, hj, rfl, hat', hcls'⟩ := hlt id' hid'
  rw [hat, hat'] at heq
  -- Two positions with the same number would be the same draw.
  rcases Nat.lt_trichotomy i j with hij | rfl | hij
  · exact absurd heq (hnodup i j hi hj hij (by simpa using hcls) (by simpa using hcls'))
  · rfl
  · exact absurd heq.symm (hnodup j i hj hi hij (by simpa using hcls') (by simpa using hcls))

/-- The number after the highest, of numbers that are in range. -/
theorem above_eq {ns : List Int} {n : Int} (h0 : 0 ≤ n) (hn : n < 9223372036854775808)
    (hlt : ∀ m ∈ ns, 0 ≤ m ∧ m < n) (hlast : 0 < n → n - 1 ∈ ns) : above ns = n := by
  have hbounds : ∀ ns : List Int, (∀ m ∈ ns, 0 ≤ m ∧ m < n) →
      0 ≤ above ns ∧ above ns ≤ n ∧ ∀ m ∈ ns, m < above ns := by
    intro ns
    -- From the back, as the bound is raised number by number.
    induction ns using List.reverseRecOn with
    | nil => exact fun _ => ⟨Int.le_refl 0, h0, fun m hm => absurd hm List.not_mem_nil⟩
    | append_singleton ns m ih =>
      intro hns
      obtain ⟨hns, hm⟩ := List.forall_mem_append.1 hns
      obtain ⟨hm0, hmn⟩ := hm m (List.mem_singleton_self m)
      obtain ⟨h0, hle, hall⟩ := ih hns
      rw [above_concat, wrap64_of_range (by omega) (by omega)]
      refine ⟨by omega, by omega, List.forall_mem_append.2 ⟨fun k hk => ?_, ?_⟩⟩
      · have := hall k hk
        omega
      · exact List.forall_mem_singleton.2 (by omega)
  obtain ⟨hpos, hle, hall⟩ := hbounds ns hlt
  -- The largest number that was drawn is `n - 1`, if there is one.
  rcases Int.lt_or_eq_of_le h0 with hn0 | rfl
  · have := hall _ (hlast hn0)
    omega
  · omega

/-! ## Programs whose text can be read again -/

end Tac.Tree.Generate

namespace Tac

/-- The offset of an array access. -/
def Stmt.offset? : Stmt → Option Int
  | store _ off _ | load _ _ off => some off
  | _ => none

open Tree.Generate in
/-- What of a generated program its text has to be able to hold: names are words, arrays have a positive
size of less than 31 bits, and constants and offsets fit 32 bits.  Like every program it fits into
memory. -/
structure Program.Writable (p : Program) : Prop where
  small : Small p
  names : ∀ f ∈ p.funcs, Text.IsWord f.name
  callees : ∀ f ∈ p.funcs, ∀ s ∈ f.stmts, ∀ g, s.callee? = some g → Text.IsWord g
  sizes : ∀ v ∈ p.vars.toList, v.cls ≠ .arg → v.isArray = true → 0 < v.elems ∧ 4 * v.elems < 2147483648
  consts : ∀ f ∈ p.funcs, ∀ s ∈ f.stmts, ∀ n, .const n ∈ s.operands → Fits32 n
  offsets : ∀ f ∈ p.funcs, ∀ s ∈ f.stmts, ∀ n, s.offset? = some n → Fits32 n
  inits : ∀ i ∈ p.inits, Fits32 i.off ∧ Fits32 i.val

namespace Tree.Generate

open Relaid InText

variable {b : Bool} {u : CompUnit} {p : Program}

/-- The name of a hand-written function is a word. -/
theorem isWord_replacement {decls : Decls} {f : FuncDef} {name : String}
    (h : replacement b decls f = some name) : Text.IsWord name := by
  unfold replacement at h
  split at h
  · unfold Builtin.match? at h
    split at h
    · next hfind =>
      split at h
      · cases h
        rcases Builtin.mem_catalog_of_find? hfind with rfl | rfl <;>
          exact Text.isWord_of_forall (by decide) (by simp [Builtin.memmove, Builtin.multiply]; decide)
      · cases h
    · cases h
  · cases h

section Function

variable {i : Nat} {f : FuncDef} {before : Progress} {st : State} (h : Placed b u i f p before st)
  (hw : p.Writable)

/-- The function as it stands in the program. -/
abbrev function (b : Bool) (u : CompUnit) (f : FuncDef) (before : Progress) (st : State) : Func :=
  compiled b u.decls f (places before.program.vars f.params.length) st

include h hw

/-- What generation allows a statement to be can be printed in its function. -/
theorem statement_of_allows {s : Stmt} (hs : s ∈ (function b u f before st).stmts)
    (hlabels : ∀ l ∈ s.labels, FitsName l) :
    Statement p.vars p.globals (function b u f before st) s := by
  have hf := List.mem_of_getElem? h.func
  obtain ⟨hallows, -⟩ := h.allows s hs
  have hoperand : ∀ v ∈ s.operands, Operand p.globals (function b u f before st) v := by
    intro v hv
    have hknown := hallows.operands v hv
    cases v with
    | const n => exact hw.consts _ hf s hs n hv
    | temp n => exact hknown
    | var id =>
      rcases hknown with hname | hlocal
      · exact (List.mem_append.1 hname).imp_right Or.inl
      · exact Or.inr (Or.inr hlocal)
  -- What is not a constant can be assigned if it can be read.
  have hplace : ∀ v ∈ s.operands, v.isConst = false → Place p.globals (function b u f before st) v := by
    intro v hv hconst
    have := hoperand v hv
    cases v with
    | const => cases hconst
    | temp | var => exact this
  have hforms := hallows.forms
  -- One case for each kind of statement; `hforms` says which operands cannot be constants.
  cases s with
  | binary d l op r =>
    obtain ⟨hd, hop, hdiv⟩ := hforms
    exact ⟨hplace d (by simp [Stmt.operands, Stmt.dst?]) hd,
      hoperand l (by simp [Stmt.operands, Stmt.sources]),
      hoperand r (by simp [Stmt.operands, Stmt.sources]), hop, fun hzero => hdiv hzero.1 hzero.2⟩
  | unary d op x =>
    exact ⟨hplace d (by simp [Stmt.operands, Stmt.dst?]) hforms.1,
      hoperand x (by simp [Stmt.operands, Stmt.sources]), hforms.2⟩
  | move d x =>
    exact ⟨hplace d (by simp [Stmt.operands, Stmt.dst?]) hforms,
      hoperand x (by simp [Stmt.operands, Stmt.sources])⟩
  | store d off x =>
    exact ⟨hplace d (by simp [Stmt.operands, Stmt.sources]) hforms, hw.offsets _ hf _ hs off rfl,
      hoperand x (by simp [Stmt.operands, Stmt.sources])⟩
  | load d x off =>
    exact ⟨hplace d (by simp [Stmt.operands, Stmt.dst?]) hforms,
      hoperand x (by simp [Stmt.operands, Stmt.sources]), hw.offsets _ hf _ hs off rfl⟩
  | branch l rel r t =>
    exact ⟨hoperand l (by simp [Stmt.operands, Stmt.sources]),
      hoperand r (by simp [Stmt.operands, Stmt.sources]), hlabels t (List.mem_singleton_self t)⟩
  | jump t | label t => exact hlabels t (List.mem_singleton_self t)
  | call r g args =>
    exact ⟨fun d hd => hplace d (by simp [Stmt.operands, Stmt.dst?, hd]) (hforms d hd),
      hw.callees _ hf _ hs g rfl, fun a ha => hoperand a (by simp [Stmt.operands, Stmt.sources, ha])⟩
  | ret v => exact fun x hx => hoperand x (by simp [Stmt.operands, Stmt.sources, hx])
  | zeroFill a =>
    obtain ⟨id, v, ha, hid, hv, harray⟩ := hforms
    have hv' := get?_of_prefix h.vars hv
    exact ⟨id, hid, ha, (VarTable.at_eq hv').symm ▸ harray⟩

omit hw in
/-- A function without a result returns no value; any other one returns one at its end. -/
theorem Placed.void_iff : (function b u f before st).void = true ↔
    ∀ v, .ret (some v) ∉ (function b u f before st).stmts := by
  constructor
  · intro hvoid v hmem
    have hnone := (h.allows _ hmem).1.forms hvoid
    cases hnone
  · intro hno
    by_contra hvalue
    refine hno (.const 0) ?_
    show _ ∈ (st.add _).stmts.toList
    rw [State.add, Array.toList_push, if_neg (show ¬ f.void = true from hvalue)]
    exact List.mem_append_right _ (List.mem_singleton_self _)

end Function

section Program

/-- Every function of the program is compiled in its place. -/
theorem exists_placed (h : u.generate b = .ok p) {g : Func} (hg : g ∈ p.funcs) :
    ∃ i f before st, Placed b u i f p before st ∧ g = function b u f before st := by
  obtain ⟨i, hi⟩ := List.getElem?_of_mem hg
  have hlt : i < u.funcs.length := length_funcs h ▸ (List.getElem?_eq_some_iff.1 hi).1
  obtain ⟨before, st, hplaced⟩ := generate_inv h (List.getElem?_eq_getElem hlt)
  exact ⟨i, _, before, st, hplaced, Option.some.inj (hi.symm.trans hplaced.func)⟩

/-- The labels of a statement are those it names and those it goes to. -/
theorem mem_labels {s : Stmt} {l : Int} : l ∈ s.labels ↔ s.label? = some l ∨ s.target? = some l := by
  cases s <;> simp [Stmt.labels, Stmt.label?, Stmt.target?, eq_comm]

variable (h : u.generate b = .ok p) (hw : p.Writable)

include h hw

/-- The labels that occur are those that were drawn. -/
theorem mem_labels_iff {l : Int} : l ∈ (p.funcs.flatMap fun f => f.stmts.flatMap Stmt.labels) ↔
    0 ≤ l ∧ l < p.counters.labels := by
  have ht := tallied_generate h hw.small
  simp only [← ht.mem_labels, Program.labels, List.mem_flatMap, mem_labels]
  constructor
  · rintro ⟨g, hg, s, hs, hl | hl⟩
    · exact ⟨g, hg, List.mem_filterMap.2 ⟨s, hs, hl⟩⟩
    · obtain ⟨i, f, before, st, hplaced, rfl⟩ := exists_placed h hg
      exact ⟨_, hg, (hplaced.wellFormed hw.small ht).targets s hs l hl⟩
  · rintro ⟨g, hg, hl⟩
    obtain ⟨s, hs, hl⟩ := List.mem_filterMap.1 hl
    exact ⟨g, hg, s, hs, Or.inl hl⟩

/-- Generation declares variables in the order in which they are printed. -/
theorem inOrder_generate : p.InOrder where
  order := (laid_generate h).order
  globals id hid := by
    obtain ⟨v, hv, hcls⟩ := (laid_generate h).globals id hid
    rw [VarTable.at_eq hv, hcls]
  locals f hf id hid := by
    obtain ⟨v, hv, hcls⟩ := (laid_generate h).locals f hf id hid
    rw [VarTable.at_eq hv, hcls]
  sizes := hw.sizes
  -- Labels are drawn from zero on, so those that occur are all below the counter.
  labels := by
    obtain ⟨k, -, hk, -, hlabel, -⟩ := collects_generate h hw.small
    refine above_eq (by omega) (by omega) (fun l hl => (mem_labels_iff h hw).1 hl) fun hpos => ?_
    exact (mem_labels_iff h hw).2 (by omega)

/-- A variable that is generated can be declared in text. -/
theorem declarable {id : VarId} {v : Var} (hv : p.vars.get? id = some v) (hcls : v.cls ≠ .arg) :
    v.Declarable where
  cls := hcls
  index := by
    have hrange := (tallied_generate h hw.small).numbered.index_lt hw.small.size_le (mem_of_get? hv)
    exact ⟨hrange.1, by omega⟩
  bytes harray := by
    obtain ⟨hpos, hlt⟩ := hw.sizes v (mem_of_get? hv) hcls harray
    have hbytes : v.bytes = 4 * v.elems := Int.bmod_eq_of_le (by omega) (by omega)
    omega

omit hw in
/-- Every variable is declared once. -/
theorem nodup_declared : p.declared.Nodup := by
  rw [(laid_generate h).order, positions]
  refine List.nodup_range.map fun i j hij => ?_
  simpa using hij

omit hw in
/-- A function never sees a variable twice. -/
theorem nodup_seen {g : Func} (hg : g ∈ p.funcs) : (p.globals ++ g.locals).Nodup := by
  refine (nodup_declared h).sublist (List.Sublist.append_left ?_ p.globals)
  rw [List.flatMap_def]
  exact (List.sublist_append_right g.params g.locals).trans
    (List.sublist_flatten_of_mem (List.mem_map_of_mem hg))

/-- Every function that is generated can be printed. -/
theorem function_generate {g : Func} (hg : g ∈ p.funcs) : Function p.vars p.globals g := by
  have hlaid := laid_generate h
  have ht := tallied_generate h hw.small
  obtain ⟨i, f, before, st, hplaced, hfunction⟩ := exists_placed h hg
  refine
    { name := hw.names g hg
      builtin := fun b hb => isWord_replacement (hfunction ▸ hb)
      few := Nat.lt_of_le_of_lt (hlaid.few g hg) (by decide)
      params := hlaid.params g hg
      locals := fun id hid => ?_
      distinct := ?_
      temps := fun t hmem => ?_
      temps_nodup := ?_
      stmts := fun s hs => ?_
      void_iff := ?_ }
  · obtain ⟨v, hv, hcls⟩ := hlaid.locals g hg id hid
    exact ⟨v, hv, declarable h hw hv (by rw [hcls]; decide)⟩
  -- Globals and locals are drawn from one counter, so they differ all together.
  · refine ht.numbered.nodup_indexes hw.small.size_le (nodup_seen h hg) (List.forall_mem_append.2 ⟨?_, ?_⟩)
    · intro id hid
      obtain ⟨v, hv, hcls⟩ := hlaid.globals id hid
      exact ⟨v, hv, by rw [hcls]; decide⟩
    · intro id hid
      obtain ⟨v, hv, hcls⟩ := hlaid.locals g hg id hid
      exact ⟨v, hv, by rw [hcls]; decide⟩
  · have hrange := ht.mem_temps t (List.mem_flatMap.2 ⟨g, hg, hmem⟩)
    exact ⟨hrange.1, by omega⟩
  · exact (List.nodup_flatMap.1 ht.nodup_temps).1 g hg
  -- All labels of the program were drawn, so they fit.
  · have hlabels : ∀ l ∈ s.labels, FitsName l := fun l hl => by
      obtain ⟨k, -, hk, -, hlabel, -⟩ := collects_generate h hw.small
      have hrange := (mem_labels_iff h hw).1
        (List.mem_flatMap.2 ⟨g, hg, List.mem_flatMap.2 ⟨s, hs, hl⟩⟩)
      exact ⟨hrange.1, by omega⟩
    subst hfunction
    exact statement_of_allows hplaced hw hs hlabels
  · subst hfunction
    exact hplaced.void_iff

/-- Every program that is generated can be printed. -/
theorem printable_generate : p.Printable where
  globals id hid := by
    obtain ⟨v, hv, hcls⟩ := (laid_generate h).globals id hid
    exact ⟨v, hv, declarable h hw hv (by rw [hcls]; decide)⟩
  -- Globals are numbered in the order of the table, by a counter that has not wrapped.
  distinct := by
    have hlaid := laid_generate h
    refine (tallied_generate h hw.small).numbered.nodup_indexes hw.small.size_le ?_ fun id hid => ?_
    · exact (nodup_declared h).sublist (List.sublist_append_left _ _)
    · obtain ⟨v, hv, hcls⟩ := hlaid.globals id hid
      exact ⟨v, hv, by rw [hcls]; decide⟩
  inits i hi := by
    obtain ⟨hvar, hoff⟩ := (laid_generate h).inits i hi
    exact ⟨hvar, hoff, hw.inits i hi⟩
  funcs g hg := function_generate h hw hg

end Program

/-! ## Compiling by way of text -/

/-- Compiling the text of a tree gives what compiling the tree gives, whatever the settings, the form of
the output and the name of the file. -/
theorem compile_text {o : Options} {u : CompUnit} {p : Program} (h : u.generate o.builtins = .ok p)
    (hw : p.Writable) (mode : Mode) (file : String) :
    ∃ t, u.compile o .ir = .ok t ∧ Program.compileText o mode file t = u.compile o mode := by
  have hprintable := (printable_generate h hw).prepare o
  have horder := (inOrder_generate h hw).prepare o
  obtain ⟨htext, -⟩ := Program.text_relaid hprintable
  refine ⟨(p.prepare o).text [], ?_, ?_⟩
  · simp only [CompUnit.compile, h, Program.compile, htext]
  · have hparse := Program.parse_printable hprintable file
    have hrelaid := (Program.alike_relaid hprintable horder).compile o mode
    -- the text holds the optimised program, which compiling optimises once more
    have hagain : (p.prepare o).compile o mode = p.compile o mode := by
      simp only [Program.compile, Program.prepare_prepare]
    simp only [Program.compileText, hparse, CompUnit.compile, h, hrelaid, hagain]

/-- A global array with a gap in its initial values, a local one that is filled with zeros, a condition
with a second operand, and a call. -/
def drawUnit : CompUnit where
  decls := #[
    { name := "g", dims := [2, 2], init := some [.num 7, .absent, .num (-1)] },
    { name := "n", init := some [.call "getint" none [] {}] },
    { name := "a", dims := [3], init := some [.lval 1 [] {}] }]
  globals := [0]
  funcs := [
    { name := "main"
      body := [.declare 1, .declare 2,
        .cond (.binary .and (.lval 1 [] {}) (.lval 2 [.lval 1 [] {}] {}))
          (.assign 0 [.num 1, .num 0] {} (.unary .neg (.lval 1 [] {})) {}) .skip,
        .ret (some (.lval 0 [.num 1, .lval 1 [] {}] {})) {}] }]

/-- What the unit is generated to. -/
def drawProgram : Program where
  vars := #[⟨"g", .global, 0, some [2, 2]⟩, ⟨"n", .loc, 1, none⟩, ⟨"a", .loc, 2, some [3]⟩]
  globals := [0]
  inits := [⟨0, 0, 7⟩, ⟨0, 8, -1⟩]
  funcs := [
    { name := "main", void := false, locals := [1, 2], temps := [0, 1, 2, 3, 4, 5, 6, 7]
      stmts := [.call (some (.temp 0)) "getint" [], .move (.var 1) (.temp 0), .zeroFill (.var 2),
        .store (.var 2) 0 (.var 1), .branch (.var 1) .eq (.const 0) 0,
        .binary (.temp 1) (.var 1) .mul (.const 4), .binary (.temp 2) (.var 2) .add (.temp 1),
        .load (.temp 3) (.temp 2) 0, .branch (.temp 3) .eq (.const 0) 0,
        .unary (.temp 4) .neg (.var 1), .store (.var 0) 8 (.temp 4), .label 0,
        .binary (.temp 5) (.var 1) .mul (.const 4), .binary (.temp 6) (.var 0) .add (.temp 5),
        .load (.temp 7) (.temp 6) 8, .ret (some (.temp 7)), .ret (some (.const 0))] }]
  counters := ⟨3, 8, 1⟩

/-- What the example is generated to. -/
theorem generate_draw : drawUnit.generate true = .ok drawProgram := by
  have htest : ((drawUnit.generate true).toOption.any fun p =>
      decide (p.vars = drawProgram.vars) && decide (p.globals = drawProgram.globals) &&
        decide (p.inits = drawProgram.inits) && decide (p.funcs = drawProgram.funcs) &&
        decide (p.counters = drawProgram.counters)) = true := by decide +kernel
  obtain ⟨p, hp, htest⟩ := exists_ok_of_any htest
  simp only [Bool.and_eq_true, decide_eq_true_eq] at htest
  obtain ⟨⟨⟨⟨hvars, hglobals⟩, hinits⟩, hfuncs⟩, hcounters⟩ := htest
  rw [hp]
  cases p
  simp_all only [drawProgram]

/-- The example can be written. -/
theorem writable_draw : drawProgram.Writable := by
  have hword : ∀ w ∈ ["main", "getint"], Text.IsWord w := by
    simp only [List.forall_mem_cons]
    refine ⟨?_, ?_, List.forall_mem_nil _⟩ <;>
      exact Text.isWord_of_forall (by decide) (by simp; decide)
  refine
    { small := show (_ : Nat) ≤ _ by decide
      names := List.forall_mem_singleton.2 (hword _ (by decide))
      callees := List.forall_mem_singleton.2 fun s hs g hg => hword g ?_
      sizes := by decide
      consts := List.forall_mem_singleton.2 fun s hs n hn => ?_
      offsets := List.forall_mem_singleton.2 fun s hs n hn => ?_
      inits := by decide }
  -- The conditions on the statements are decided for all of them at once.
  · have hcallees : ∀ s ∈ (drawProgram.funcs.flatMap Func.stmts), ∀ g ∈ s.callee?,
        g ∈ ["main", "getint"] := by decide
    exact hcallees s hs g hg
  · have hconsts : ∀ s ∈ (drawProgram.funcs.flatMap Func.stmts), ∀ v ∈ s.operands, v.isConst = true →
        v = .const 0 ∨ v = .const 4 := by decide
    rcases hconsts s hs _ hn rfl with h | h <;> cases h <;> decide
  · have hoffsets : ∀ s ∈ (drawProgram.funcs.flatMap Func.stmts), ∀ n ∈ s.offset?, Fits32 n := by decide
    exact hoffsets s hs n hn

/-- Written, read again and compiled to assembly, the unit is what it is compiled to at once. -/
theorem compile_text_draw : drawUnit.generate true = .ok drawProgram ∧ drawProgram.Writable ∧
    ∃ t, drawUnit.compile {} .ir = .ok t ∧
      Program.compileText {} .assembly "draw.tac" t = drawUnit.compile {} .assembly :=
  ⟨generate_draw, writable_draw, compile_text (o := {}) generate_draw writable_draw .assembly "draw.tac"⟩

end Tree.Generate

end Tac
