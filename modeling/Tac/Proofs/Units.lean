import Mathlib
import Tac.Proofs.Bodies
import Tac.Proofs.Statements

/-!
# Whole units

A unit is compiled function by function behind its globals.  Each function starts with the variables,
temporaries and labels that the ones before it left, so what was proved of a body in a scene holds of
the body in its unit.

* **`Placed`** — a function of a unit in the program that is compiled from it.
* **`generate_preserves`** — every function of a unit behaves as its tree is evaluated.
-/

namespace Tac.Tree.Generate

/-! ## Names -/

/-- A pair is at the front of two lists or further back in both. -/
theorem exists_cons_iff {d d' : DeclId} {ds : List DeclId} {id id' : VarId} {ids : List VarId} :
    (∃ i : Nat, (d' :: ds)[i]? = some d ∧ (id' :: ids)[i]? = some id) ↔
      d' = d ∧ id' = id ∨ ∃ i : Nat, ds[i]? = some d ∧ ids[i]? = some id := by
  constructor
  · rintro ⟨i, hd, hid⟩
    cases i with
    | zero => exact Or.inl ⟨Option.some.inj hd, Option.some.inj hid⟩
    | succ i => exact Or.inr ⟨i, hd, hid⟩
  · rintro (⟨rfl, rfl⟩ | ⟨i, hd, hid⟩)
    · exact ⟨0, rfl, rfl⟩
    · exact ⟨i + 1, hd, hid⟩

/-- In a scope that is extended by declarations, each of them has its variable and all
others have what they had. -/
theorem getElem?_extend {ds : List DeclId} {ids : List VarId} (hnodup : ds.Nodup)
    (hlen : ds.length = ids.length) (scope : Std.TreeMap Nat VarId) {d : DeclId} {id : VarId} :
    (extend scope ds ids)[d]? = some id ↔
      (∃ i : Nat, ds[i]? = some d ∧ ids[i]? = some id) ∨ d ∉ ds ∧ scope[d]? = some id := by
  -- On the declarations.  The first one is not among the others, so its variable is not
  -- replaced later.
  induction ds generalizing ids scope with
  | nil => simp [extend]
  | cons d' ds ih =>
    cases ids with
    | nil => cases hlen
    | cons id' ids =>
      rw [List.nodup_cons] at hnodup
      have hstep : extend scope (d' :: ds) (id' :: ids) = extend (scope.insert d' id') ds ids := rfl
      rw [hstep, ih hnodup.2 (Nat.succ.inj hlen), Std.TreeMap.getElem?_insert, exists_cons_iff,
        List.mem_cons, not_or]
      simp only [Nat.compare_eq_eq]
      by_cases hd : d' = d
      · subst hd
        have hnone : ¬ ∃ i : Nat, ds[i]? = some d' ∧ ids[i]? = some id := by
          rintro ⟨i, hi, -⟩
          exact hnodup.1 (List.mem_of_getElem? hi)
        simp [hnodup.1, hnone]
      · have hd' : d ≠ d' := Ne.symm hd
        simp [hd, hd']

/-- The declaration is one of `ds`, whose variables start at `base`. -/
def At (ds : List DeclId) (base : Nat) (d : DeclId) (id : VarId) : Prop :=
  ∃ i : Nat, ds[i]? = some d ∧ id = ((base + i : Nat) : Int)

section Named

variable {decls : Decls} {cls : VarClass} {ds : List DeclId} {vars vars₁ : VarTable}
  {scope scope₁ : Std.TreeMap Nat VarId} {d : DeclId} {id : VarId}

/-- The positions of new variables, one by one. -/
theorem getElem?_places {k i : Nat} : (places vars k)[i]? = some id ↔
    i < k ∧ id = ((vars.size + i : Nat) : Int) := by
  rw [places, List.getElem?_map]
  by_cases hi : i < k
  · rw [List.getElem?_range hi]
    simp [hi, eq_comm]
  · rw [List.getElem?_eq_none (by simpa using hi)]
    simp [hi]

/-- Behind some declarations a name stands for one of their variables, or for what it
stood for before. -/
theorem Named.look (h : Named decls cls ds vars scope vars₁ scope₁) (hnodup : ds.Nodup) :
    scope₁[d]? = some id ↔ At ds vars.size d id ∨ d ∉ ds ∧ scope[d]? = some id := by
  obtain ⟨vs, -, -, hscope⟩ := h
  rw [hscope, getElem?_extend hnodup (by simp [places])]
  refine or_congr_left (exists_congr fun i => and_congr_right fun hi => ?_)
  have hlt : i < ds.length := (List.getElem?_eq_some_iff.1 hi).1
  rw [getElem?_places, and_iff_right hlt]

/-- The variable of a declaration has its class and its shape, also in tables that grew
further. -/
theorem Named.get? (h : Named decls cls ds vars scope vars₁ scope₁) {table : VarTable}
    (htable : vars₁.toList <+: table.toList) (hat : At ds vars.size d id) :
    ∃ v, table.get? id = some v ∧ v.cls = cls ∧ v.dims = shape (decls.at d) := by
  obtain ⟨vs, hkind, hvars, -⟩ := h
  obtain ⟨i, hi, rfl⟩ := hat
  obtain ⟨hlt, hd⟩ := List.getElem?_eq_some_iff.1 hi
  have hlt' : i < vs.length := hkind.length_eq ▸ hlt
  have hv := hkind.get hlt hlt'
  rw [List.get_eq_getElem, List.get_eq_getElem, hd] at hv
  refine ⟨vs[i], ?_, hv⟩
  obtain ⟨more, hmore⟩ := htable
  rw [VarTable.get?, if_pos (Int.natCast_nonneg _), Int.toNat_natCast, ← Array.getElem?_toList,
    ← hmore, hvars, List.append_assoc, ← Array.length_toList, List.getElem?_append_right (by omega),
    Nat.add_sub_cancel_left, List.getElem?_append_left hlt', List.getElem?_eq_getElem hlt']

end Named

/-! ## Globals -/

/-- From one progress to another, the declarations `ds` became globals, in this order. -/
structure Globals (decls : Decls) (ds : List DeclId) (p p' : Progress) : Prop where
  named : Named decls .global ds p.program.vars p.globals p'.program.vars p'.globals
  globals : p'.program.globals = p.program.globals ++ places p.program.vars ds.length
  funcs : p'.program.funcs = p.program.funcs
  temps : p'.program.counters.temps = p.program.counters.temps
  labels : p'.program.counters.labels = p.program.counters.labels

/-- Globals behind globals. -/
theorem Globals.trans {decls : Decls} {ds es : List DeclId} {p p₁ p₂ : Progress}
    (h : Globals decls ds p p₁) (h' : Globals decls es p₁ p₂) : Globals decls (ds ++ es) p p₂ where
  named := h.named.trans h'.named
  globals := by
    rw [h'.globals, h.globals, List.append_assoc, List.length_append,
      places_add _ p₁.program.vars _ _ h.named.size_eq]
  funcs := h'.funcs.trans h.funcs
  temps := h'.temps.trans h.temps
  labels := h'.labels.trans h.labels

/-- One declaration becomes a global. -/
theorem globals_addGlobal {decls : Decls} {p p' : Progress} {d : DeclId}
    (h : addGlobal decls p d = .ok p') : Globals decls [d] p p' := by
  obtain ⟨inits, -, hp⟩ := Tac.bind_eq_ok.1 h
  cases hp
  exact ⟨.one rfl rfl, rfl, rfl, rfl, rfl⟩

/-- All declarations in a list become globals, in its order. -/
theorem globals_foldlM {decls : Decls} {ds : List DeclId} {p p' : Progress}
    (h : ds.foldlM (addGlobal decls) p = .ok p') : Globals decls ds p p' := by
  induction ds generalizing p with
  | nil =>
    cases h
    exact ⟨.nil .., (List.append_nil _).symm, rfl, rfl, rfl⟩
  | cons d ds ih =>
    obtain ⟨p₁, h₁, h₂⟩ := Tac.bind_eq_ok.1 h
    exact (globals_addGlobal h₁).trans (ih h₂)

/-! ## Functions -/

/-- Parameters get the next variables of the table, and of the rest of the state nothing
changes. -/
theorem addParams_inv (decls : Decls) (i : Nat) (st : State) (ds : List DeclId) :
    let r := addParams decls i st ds
    Named decls .arg ds st.vars st.scope r.1.vars r.1.scope ∧ r.2 = places st.vars ds.length ∧
      r.1 = { st with vars := r.1.vars, scope := r.1.scope } := by
  -- On the parameters, for any number of the first one.
  induction ds generalizing i st with
  | nil => exact ⟨.nil .., rfl, rfl⟩
  | cons d ds ih =>
    let v : Var := { name := (decls.at d).name, cls := .arg, index := i, dims := shape (decls.at d) }
    let st₁ : State := { st with vars := st.vars.push v, scope := st.scope.insert d st.vars.size }
    have hstep : addParams decls i st (d :: ds) = ((addParams decls (i + 1) st₁ ds).1,
      (st.vars.size : Int) :: (addParams decls (i + 1) st₁ ds).2) := rfl
    have hone : Named decls .arg [d] st.vars st.scope st₁.vars st₁.scope := .one rfl rfl
    obtain ⟨hnamed, hids, hst⟩ := ih (i + 1) st₁
    rw [hstep]
    refine ⟨hone.trans hnamed, ?_, ?_⟩
    · rw [hids, List.length_cons, Nat.add_comm ds.length 1,
        places_add _ st₁.vars 1 _ hone.size_eq]
      rfl
    · rw [hst]

/-- The state in which the body of a function is compiled. -/
def entry (decls : Decls) (p : Progress) (f : FuncDef) : State :=
  (addParams decls 0 { vars := p.program.vars, counters := p.program.counters } f.params).1

/-- A compiled function: a return stands at its end. -/
def compiled (useBuiltins : Bool) (decls : Decls) (f : FuncDef) (params : List VarId) (st : State) :
    Func where
  name := f.name
  void := f.void
  params := params
  locals := st.locals.toList
  temps := st.temps.toList
  stmts := (st.add (.ret (if f.void then none else some (.const 0)))).stmts.toList
  builtin := replacement useBuiltins decls f

section Functions

variable {b : Bool}

/-- How a function is compiled: the body behind its parameters. -/
theorem addFunc_inv {decls : Decls} {p p' : Progress} {f : FuncDef}
    (h : addFunc b decls p f = .ok p') :
    ∃ st, nodes { decls, func := f, globals := p.globals } [] f.body (entry decls p f) = .ok ((), st) ∧
      p' = { p with program := { p.program with
        vars := st.vars, counters := st.counters
        funcs := p.program.funcs ++
          [compiled b decls f (places p.program.vars f.params.length) st] } } := by
  -- The parameters are in the table before the body is compiled.
  have hentry : addParams decls 0 { vars := p.program.vars, counters := p.program.counters }
      f.params = (entry decls p f, places p.program.vars f.params.length) :=
    Prod.ext rfl (addParams_inv ..).2.1
  unfold addFunc at h
  rw [hentry] at h
  dsimp only at h
  split at h
  · cases h
  obtain ⟨⟨⟨⟩, st'⟩, hfinish, hp⟩ := Tac.bind_eq_ok.1 h
  obtain ⟨⟨⟩, st, hbody, hret⟩ := bind_eq_ok hfinish
  obtain rfl := emit_inv hret
  cases hp
  exact ⟨st, hbody, rfl⟩

/-- The next temporary and the next label are 64-bit numbers. -/
structure Wrapped (c : Counters) : Prop where
  temps : wrap64 c.temps = c.temps
  labels : wrap64 c.labels = c.labels

/-- Numbers drawn from a 64-bit number are 64-bit numbers. -/
theorem wrap64_nth {c : Int} (hc : wrap64 c = c) (k : Nat) : wrap64 (nth c k) = nth c k := by
  have h := wrap64_add (c + k) 0
  rwa [Int.add_zero, Int.add_zero, ← nth_eq hc] at h

/-- A piece of generation leaves the counters at 64-bit numbers. -/
theorem Grown.wrapped {ps : List Int} {st st' : State} (h : Grown ps st st')
    (hw : Wrapped st.counters) : Wrapped st'.counters := by
  obtain ⟨c, k, m, -, hlabel, -, htemp, -⟩ := h
  constructor
  · rw [htemp]
    exact wrap64_nth hw.temps m
  · rw [hlabel]
    exact wrap64_nth hw.labels k

/-- From one progress to another, `k` functions were added. -/
structure Extends (k : Nat) (p p' : Progress) : Prop where
  globals : p'.globals = p.globals
  names : p'.program.globals = p.program.globals
  vars : p.program.vars.toList <+: p'.program.vars.toList
  funcs : ∃ fs, fs.length = k ∧ p'.program.funcs = p.program.funcs ++ fs
  wrapped : Wrapped p.program.counters → Wrapped p'.program.counters

/-- Functions behind functions. -/
theorem Extends.trans {j k : Nat} {p p₁ p₂ : Progress} (h : Extends j p p₁) (h' : Extends k p₁ p₂) :
    Extends (j + k) p p₂ where
  globals := h'.globals.trans h.globals
  names := h'.names.trans h.names
  vars := h.vars.trans h'.vars
  funcs := by
    obtain ⟨fs, hlen, hfs⟩ := h.funcs
    obtain ⟨gs, hlen', hgs⟩ := h'.funcs
    exact ⟨fs ++ gs, by rw [List.length_append, hlen, hlen'], by rw [hgs, hfs, List.append_assoc]⟩
  wrapped := h'.wrapped ∘ h.wrapped

/-- The body of a function starts with its parameters in scope and no statements. -/
theorem entry_inv (decls : Decls) (p : Progress) (f : FuncDef) :
    Named decls .arg f.params p.program.vars {} (entry decls p f).vars (entry decls p f).scope ∧
      entry decls p f = { vars := (entry decls p f).vars, counters := p.program.counters
                          scope := (entry decls p f).scope } := by
  obtain ⟨hnamed, -, hst⟩ :=
    addParams_inv decls 0 { vars := p.program.vars, counters := p.program.counters } f.params
  exact ⟨hnamed, hst⟩

/-- Compiling a function adds it behind the others. -/
theorem extends_addFunc {decls : Decls} {p p' : Progress} {f : FuncDef}
    (h : addFunc b decls p f = .ok p') : Extends 1 p p' := by
  obtain ⟨st, hbody, rfl⟩ := addFunc_inv h
  obtain ⟨hparams, hentry⟩ := entry_inv decls p f
  obtain ⟨hgrown, hdecl⟩ := adds_nodes (fun nd _ => adds_node _ nd) [] hbody
  refine ⟨rfl, rfl, hparams.isPrefix.trans hdecl.named.isPrefix, ⟨_, rfl, rfl⟩, fun hw => ?_⟩
  refine hgrown.wrapped ?_
  rw [hentry]
  exact hw

/-- Compiling functions adds them in their order. -/
theorem extends_foldlM {decls : Decls} {fs : List FuncDef} {p p' : Progress}
    (h : fs.foldlM (addFunc b decls) p = .ok p') : Extends fs.length p p' := by
  induction fs generalizing p with
  | nil =>
    cases h
    exact ⟨rfl, rfl, List.prefix_refl _, ⟨[], rfl, (List.append_nil _).symm⟩, fun hw => hw⟩
  | cons f fs ih =>
    obtain ⟨p₁, h₁, h₂⟩ := Tac.bind_eq_ok.1 h
    rw [List.length_cons, Nat.add_comm]
    exact (extends_addFunc h₁).trans (ih h₂)

/-- A function of a unit in the program that is compiled from it: `before` is the progress in which
it is compiled, and `st` the state behind its body. -/
structure Placed (b : Bool) (u : CompUnit) (i : Nat) (f : FuncDef) (p : Program) (before : Progress)
    (st : State) : Prop where
  start : ∃ first, withGlobals u = .ok first ∧
    (u.funcs.take i).foldlM (addFunc b u.decls) first = .ok before
  globals : ∃ vars, Named u.decls .global u.globals #[] {} vars before.globals ∧
    vars.toList <+: before.program.vars.toList
  names : p.globals = places #[] u.globals.length
  wrapped : Wrapped before.program.counters
  body : nodes { decls := u.decls, func := f, globals := before.globals } [] f.body
    (entry u.decls before f) = .ok ((), st)
  vars : st.vars.toList <+: p.vars.toList
  func : p.funcs[i]? = some (compiled b u.decls f (places before.program.vars f.params.length) st)

/-- Steps along a list that succeed, seen from one of its elements: those before it, its
own and those behind it. -/
theorem foldlM_split {σ α ε : Type} {step : σ → α → Except ε σ} {xs : List α} {i : Nat} {x : α}
    (hx : xs[i]? = some x) {s s' : σ} (h : xs.foldlM step s = .ok s') :
    ∃ s₁ s₂, (xs.take i).foldlM step s = .ok s₁ ∧ step s₁ x = .ok s₂ ∧
      (xs.drop (i + 1)).foldlM step s₂ = .ok s' := by
  obtain ⟨hi, rfl⟩ := List.getElem?_eq_some_iff.1 hx
  rw [← List.take_append_drop i xs, List.drop_eq_getElem_cons hi, List.foldlM_append] at h
  obtain ⟨s₁, h₁, h⟩ := Tac.bind_eq_ok.1 h
  obtain ⟨s₂, h₂, h₃⟩ := Tac.bind_eq_ok.1 h
  exact ⟨s₁, s₂, h₁, h₂, h₃⟩

/-- Each function of a unit that is compiled has its place in the program. -/
theorem generate_inv {u : CompUnit} {p : Program} (h : u.generate b = .ok p) {i : Nat}
    {f : FuncDef} (hf : u.funcs[i]? = some f) : ∃ before st, Placed b u i f p before st := by
  obtain ⟨p₀, h₀, h⟩ := Tac.bind_eq_ok.1 h
  obtain ⟨p', hfuncs, hp⟩ := Tac.bind_eq_ok.1 h
  cases hp
  obtain ⟨p₁, p₂, h₁, h₂, h₃⟩ := foldlM_split hf hfuncs
  have hglobals := globals_foldlM h₀
  -- What the functions before it and behind it add is of no concern; it is only that they add.
  have hbefore := extends_foldlM h₁
  have hafter := extends_foldlM h₃
  obtain ⟨st, hbody, rfl⟩ := addFunc_inv h₂
  refine ⟨p₁, st, ⟨p₀, h₀, h₁⟩, ?_, ?_, ?_, hbody, hafter.vars, ?_⟩
  · rw [hbefore.globals]
    exact ⟨_, hglobals.named, hbefore.vars⟩
  · rw [hafter.names, hbefore.names, hglobals.globals]
    rfl
  · refine hbefore.wrapped ⟨?_, ?_⟩
    · rw [hglobals.temps]
      rfl
    · rw [hglobals.labels]
      rfl
  · obtain ⟨fs, hlen, hfs⟩ := hbefore.funcs
    obtain ⟨gs, -, hgs⟩ := hafter.funcs
    have hi : i < u.funcs.length := (List.getElem?_eq_some_iff.1 hf).1
    have hfs' : p₁.program.funcs = fs := by
      rw [hfs, hglobals.funcs]
      rfl
    have hlen' : p₁.program.funcs.length = i := by
      rw [hfs', hlen, List.length_take, Nat.min_eq_left (Nat.le_of_lt hi)]
    rw [hgs, List.getElem?_append_left (by simp [hlen']), List.getElem?_append_right (by omega), hlen',
      Nat.sub_self]
    rfl

end Functions

/-! ## The scene of a function -/

open Run (Host Reach)

/-- The variable that a declaration has at the end of a function; zero if it has none. -/
def varOf (globals : Std.TreeMap Nat VarId) (st : State) (d : DeclId) : VarId :=
  (st.scope[d]?.or globals[d]?).getD 0

/-- What the statements of a program run in. -/
def setting (p : Program) (host : Host Unit) (addr : VarId → Word) : Run.Setting Unit :=
  { host with vars := p.vars, addr, look := fun _ _ => () }

/-- What the tree of a function is evaluated in, when a declaration has the variable `var`. -/
def context (u : CompUnit) (f : FuncDef) (host : Host Unit) (addr : VarId → Word)
    (var : DeclId → VarId) : Meaning.Context where
  decls := u.decls
  globals := u.globals
  params := f.params
  addr d := addr (var d)
  host := host

/-- A function of a unit beside its code. -/
def sceneOf (u : CompUnit) (f : FuncDef) (p : Program) (before : Progress) (st : State)
    (host : Host Unit) (addr : VarId → Word) : Scene where
  env := { decls := u.decls, func := f, globals := before.globals }
  fin := st.add (.ret (if f.void then none else some (.const 0)))
  X := setting p host addr
  C := context u f host addr (varOf before.globals st)
  first := before.program.counters.temps

namespace Placed

variable {b : Bool} {u : CompUnit} {i : Nat} {f : FuncDef} {p : Program} {before : Progress}
  {st : State}
  {d : DeclId} {id : VarId}

/-- A declaration that has a variable is among the declarations. -/
theorem mem_of_at {ds : List DeclId} {base : Nat} (h : At ds base d id) : d ∈ ds := by
  obtain ⟨i, hi, -⟩ := h
  exact List.mem_of_getElem? hi

/-- The body of a function adds code to what its parameters left. -/
theorem grown (h : Placed b u i f p before st) : Grown [] (entry u.decls before f) st :=
  (adds_nodes (fun nd _ => adds_node _ nd) [] h.body).1

/-- The body of a function adds the variables that it declares. -/
theorem declared (h : Placed b u i f p before st) :
    Declared u.decls (declaredAll f.body) (entry u.decls before f) st :=
  (adds_nodes (fun nd _ => adds_node _ nd) [] h.body).2

/-- The parameters of a function have the first of its variables. -/
theorem params (before : Progress) : Named u.decls .arg f.params before.program.vars {}
    (entry u.decls before f).vars (entry u.decls before f).scope :=
  (entry_inv u.decls before f).1

end Placed

/-- The declarations of a function and the globals, each declared once. -/
structure Distinct (u : CompUnit) (f : FuncDef) : Prop where
  globals : u.globals.Nodup
  params : f.params.Nodup
  locals : (declaredAll f.body).Nodup
  global_param : ∀ d ∈ u.globals, d ∉ f.params
  global_local : ∀ d ∈ u.globals, d ∉ declaredAll f.body
  param_local : ∀ d ∈ f.params, d ∉ declaredAll f.body

/-- Declarations that are all different are different within each kind and between the
kinds. -/
theorem distinct_of_nodup {u : CompUnit} {f : FuncDef}
    (h : (u.globals ++ f.params ++ declaredAll f.body).Nodup) : Distinct u f := by
  have hboth := h.of_append_left
  exact ⟨hboth.of_append_left, hboth.of_append_right, h.of_append_right,
    fun d hd hd' => List.disjoint_of_nodup_append hboth hd hd',
    fun d hd hd' => List.disjoint_of_nodup_append h (List.mem_append_left _ hd) hd',
    fun d hd hd' => List.disjoint_of_nodup_append h (List.mem_append_right _ hd) hd'⟩

namespace Placed

variable {b : Bool} {u : CompUnit} {i : Nat} {f : FuncDef} {p : Program} {before : Progress}
  {st : State}
  {d : DeclId} {id : VarId} (h : Placed b u i f p before st) (hf : Distinct u f)

include h hf

/-- The globals that the body of a function sees are those of the unit. -/
theorem global_iff : before.globals[d]? = some id ↔ At u.globals 0 d id := by
  obtain ⟨vars, hnamed, -⟩ := h.globals
  rw [hnamed.look hf.globals]
  simp

/-- At the end of a function its scope has its locals and its parameters. -/
theorem scope_iff : st.scope[d]? = some id ↔
    At (declaredAll f.body) (entry u.decls before f).vars.size d id ∨
      At f.params before.program.vars.size d id := by
  rw [h.declared.named.look hf.locals, (params before).look hf.params]
  refine or_congr_right ?_
  simp only [Std.TreeMap.getElem?_emptyc, reduceCtorEq, and_false, or_false]
  exact and_iff_right_of_imp fun hat => hf.param_local d (mem_of_at hat)

/-- A declaration with a variable is a global, a parameter or a local. -/
theorem look_iff {host : Host Unit} {addr : VarId → Word} :
    (sceneOf u f p before st host addr).look d = some id ↔ At u.globals 0 d id ∨
      At f.params before.program.vars.size d id ∨
      At (declaredAll f.body) (entry u.decls before f).vars.size d id := by
  show st.scope[d]?.or before.globals[d]? = some id ↔ _
  rw [Option.or_eq_some_iff, h.scope_iff hf, h.global_iff hf]
  -- The scope comes first, so a global is only found where no parameter or local has the
  -- declaration.
  have hnone : At u.globals 0 d id → st.scope[d]? = none := by
    intro hat
    rw [Option.eq_none_iff_forall_ne_some]
    intro id' hid
    rcases (h.scope_iff hf).1 hid with hlocal | hparam
    · exact hf.global_local d (mem_of_at hat) (mem_of_at hlocal)
    · exact hf.global_param d (mem_of_at hat) (mem_of_at hparam)
  constructor
  · rintro ((hlocal | hparam) | ⟨-, hglobal⟩)
    · exact Or.inr (Or.inr hlocal)
    · exact Or.inr (Or.inl hparam)
    · exact Or.inl hglobal
  · rintro (hglobal | hparam | hlocal)
    · exact Or.inr ⟨hnone hglobal, hglobal⟩
    · exact Or.inl (Or.inr hparam)
    · exact Or.inl (Or.inl hlocal)

omit h in
/-- At the start of a function none of its locals has a variable. -/
theorem fresh : Fresh (declaredAll f.body) (entry u.decls before f) := by
  refine ⟨hf.locals, fun d hd => ?_⟩
  rw [Option.eq_none_iff_forall_ne_some]
  intro id hid
  rw [(params before).look hf.params] at hid
  simp only [Std.TreeMap.getElem?_emptyc, reduceCtorEq, and_false, or_false] at hid
  exact hf.param_local d (mem_of_at hid) hd

omit hf in
/-- The table of the program continues the one that the function starts with. -/
theorem isPrefix : before.program.vars.toList <+: p.vars.toList :=
  ((params before).isPrefix.trans h.declared.named.isPrefix).trans h.vars

/-- The variable of a declaration is in the place of the declaration. -/
theorem place_eq {host : Host Unit} {addr : VarId → Word}
    (hlook : (sceneOf u f p before st host addr).look d = some id) :
    (setting p host addr).place? id =
      some ((context u f host addr (varOf before.globals st)).place d) := by
  have hcontext : (context u f host addr (varOf before.globals st)).place d =
      if d ∈ u.globals then if (u.decls.at d).isArray then .array else .memory
      else if d ∈ f.params then .held
      else if (u.decls.at d).isArray then .array else .held := rfl
  rw [hcontext]
  -- In each case the table has the class of the variable, and the lists of declarations say
  -- the same.
  rcases (h.look_iff hf).1 hlook with hat | hat | hat
  · obtain ⟨vars, hnamed, hpre⟩ := h.globals
    obtain ⟨v, hv, hcls, hdims⟩ := hnamed.get? (hpre.trans h.isPrefix) hat
    rw [Run.Setting.place?_global hv hcls, Scene.isArray_of_shape hdims, if_pos (mem_of_at hat)]
  · have hpre := h.declared.named.isPrefix.trans h.vars
    obtain ⟨v, hv, hcls, -⟩ := (params before).get? hpre hat
    have hglobal : d ∉ u.globals := fun hmem => hf.global_param d hmem (mem_of_at hat)
    rw [Run.Setting.place?_arg hv hcls, if_neg hglobal, if_pos (mem_of_at hat)]
  · obtain ⟨v, hv, hcls, hdims⟩ := h.declared.named.get? h.vars hat
    have hglobal : d ∉ u.globals := fun hmem => hf.global_local d hmem (mem_of_at hat)
    have hparam : d ∉ f.params := fun hmem => hf.param_local d hmem (mem_of_at hat)
    rw [Run.Setting.place?_loc hv hcls, Scene.isArray_of_shape hdims, if_neg hglobal, if_neg hparam]

omit hf in
/-- Globals, parameters and locals have their variables one after the other. -/
theorem bases : u.globals.length ≤ before.program.vars.size ∧
    (entry u.decls before f).vars.size = before.program.vars.size + f.params.length := by
  obtain ⟨vars, hnamed, hpre⟩ := h.globals
  have hsize := hnamed.size_eq
  have hle := hpre.length_le
  rw [Array.length_toList, Array.length_toList] at hle
  refine ⟨?_, (params before).size_eq⟩
  simp only [Array.size_empty, Nat.zero_add] at hsize
  omega

omit h hf in
/-- The variables of a list of declarations lie in one range. -/
theorem index_of_at {ds : List DeclId} {base : Nat} (h : At ds base d id) :
    base ≤ Int.toNat id ∧ Int.toNat id < base + ds.length := by
  obtain ⟨i, hi, rfl⟩ := h
  have hlt := (List.getElem?_eq_some_iff.1 hi).1
  rw [Int.toNat_natCast]
  omega

omit h hf in
/-- Within a list of declarations no two share a variable. -/
theorem eq_of_at {d' : DeclId} {ds : List DeclId} {base : Nat} (h : At ds base d id)
    (h' : At ds base d' id) : d = d' := by
  obtain ⟨i, hi, rfl⟩ := h
  obtain ⟨j, hj, hij⟩ := h'
  obtain rfl : i = j := Nat.add_left_cancel (Int.natCast_inj.1 hij)
  exact Option.some.inj (hi.symm.trans hj)

/-- No two declarations share a variable. -/
theorem look_inj {d' : DeclId} {host : Host Unit} {addr : VarId → Word}
    (hd : (sceneOf u f p before st host addr).look d = some id)
    (hd' : (sceneOf u f p before st host addr).look d' = some id) : d = d' := by
  obtain ⟨hglobals, hparams⟩ := h.bases
  -- Within one kind the positions differ; two kinds have ranges that do not meet.
  rcases (h.look_iff hf).1 hd with hat | hat | hat <;>
    rcases (h.look_iff hf).1 hd' with hat' | hat' | hat' <;>
      first
      | exact eq_of_at hat hat'
      | (have hlt := index_of_at hat
         have hlt' := index_of_at hat'
         omega)

omit hf in
/-- The statements of a function are those of its body and a last return. -/
theorem code_eq : ∃ k m, st.counters.labels = nth before.program.counters.labels k ∧
    (labelsOf st.stmts.toList).Perm (drawn before.program.counters.labels k) ∧
    st.temps.toList = drawn before.program.counters.temps m ∧ m ≤ st.stmts.size := by
  obtain ⟨-, hentry⟩ := entry_inv u.decls before f
  obtain ⟨c, k, m, hstmts, hlabel, hlabels, -, htemps, hle⟩ := h.grown
  -- The body starts from an empty function.
  have hempty : (entry u.decls before f).stmts = #[] := by rw [hentry]
  have htemps₀ : (entry u.decls before f).temps = #[] := by rw [hentry]
  have hcounters : (entry u.decls before f).counters = before.program.counters := by rw [hentry]
  rw [hempty, Array.toList_empty, List.nil_append] at hstmts
  rw [htemps₀, hcounters, Array.toList_empty, List.nil_append] at htemps
  rw [hcounters] at hlabel hlabels
  rw [List.append_nil, ← hstmts] at hlabels
  refine ⟨k, m, hlabel, hlabels, htemps, ?_⟩
  rwa [← hstmts, Array.length_toList] at hle

/-- The scene of a function is sound: labels and temporaries come once, and variables are
where the evaluation has them. -/
theorem sound {host : Host Unit} {addr : VarId → Word} (hfits : Meaning.InitsFit u.decls)
    (hlen : st.stmts.size ≤ 18446744073709551616) :
    (sceneOf u f p before st host addr).Sound where
  decls := rfl
  host := rfl
  fits := hfits
  -- The return at the end defines no label, so the labels are those of the body, which are
  -- drawn one after the other.
  labels := by
    obtain ⟨k, m, -, hlabels, -⟩ := h.code_eq
    have hcode : labelsOf (sceneOf u f p before st host addr).code = labelsOf st.stmts.toList := by
      show labelsOf (st.add _).stmts.toList = _
      rw [State.add, Array.toList_push, labelsOf, List.filterMap_append]
      exact List.append_nil _
    have hk : k ≤ st.stmts.toList.length := by
      have hle : (labelsOf st.stmts.toList).length ≤ _ := List.length_filterMap_le _ _
      rwa [hlabels.length_eq, drawn, List.length_map, List.length_range] at hle
    rw [hcode, hlabels.nodup_iff]
    exact nodup_drawn h.wrapped.labels (Nat.le_trans hk hlen)
  first := h.wrapped.temps
  few := by
    obtain ⟨k, m, -, -, htemps, hm⟩ := h.code_eq
    have hsize : st.temps.size = m := by
      rw [← Array.length_toList, htemps, drawn, List.length_map, List.length_range]
    show st.temps.size ≤ _
    omega
  place {d id} hlook := by
    refine ⟨h.place_eq hf hlook, ?_⟩
    have hvar : varOf before.globals st d = id := by
      have hsome : st.scope[d]?.or before.globals[d]? = some id := hlook
      rw [varOf, hsome]
      rfl
    show addr id = addr (varOf before.globals st d)
    rw [hvar]
  apart hd hd' _ := h.look_inj hf hd hd'
  globals {d id} hglobal := by
    rw [Option.eq_none_iff_forall_ne_some]
    intro id' hid
    have hmem := mem_of_at ((h.global_iff hf).1 hglobal)
    rcases (h.scope_iff hf).1 hid with hlocal | hparam
    · exact hf.global_local d hmem (mem_of_at hlocal)
    · exact hf.global_param d hmem (mem_of_at hparam)

end Placed

/-! ## Behaviour -/

namespace Scene

variable {S : Scene} {f : FuncDef} {g : Func} {store : Meaning.Store} {s : Run.State Unit}

/-- The scene has a function of a unit beside the function that it is compiled to.  Globals and
parameters keep their order. -/
structure Stages (S : Scene) (u : CompUnit) (f : FuncDef) (p : Program) (g : Func)
    (host : Host Unit) (addr : VarId → Word) : Prop where
  decls : S.env.decls = u.decls
  func : S.env.func = f
  code : S.code = g.stmts
  setting : S.X = setting p host addr
  context : ∃ var, S.C = context u f host addr var ∧ ∀ d id, S.look d = some id → var d = id
  globals : ∀ (k : Nat) (d : DeclId), u.globals[k]? = some d → p.globals[k]? = S.look d
  params : ∀ (k : Nat) (d : DeclId), f.params[k]? = some d → g.params[k]? = S.look d

/-- The code behaves as the tree is evaluated: it ends in the same way with the same result and memory
after the same stores and calls, shows the same on the way, and goes on for ever exactly when the
evaluation does. -/
structure Behaves (S : Scene) (f : FuncDef) (store : Meaning.Store) (s : Run.State Unit) : Prop where
  ends : ∀ trace o, Run.Ends S.X S.code 0 s trace o ↔ Meaning.Ends S.C f store trace o
  shows : ∀ trace, Run.Shows S.X S.code 0 s trace ↔ Meaning.Shows S.C f store trace
  diverges : Run.Diverges S.X S.code 0 s ↔ Meaning.Diverges S.C f store

/-- The run of a function follows its evaluation, however many turns loops take. -/
def Tracks (S : Scene) (f : FuncDef) (store : Meaning.Store) (s : Run.State Unit) : Prop :=
  ∀ n, S.Follows n 0 s (Meaning.function S.C f n store) fun v store' status =>
    status = .ended store'.world.trace (.returned v store'.world.mem ())

/-- Where the run is, for each end of an evaluation. -/
theorem Tracks.cases (h : S.Tracks f store s) (hf : Meaning.Faultless S.C f store) (n : Nat) :
    (∃ trace o, Meaning.conclusion (Meaning.function S.C f n store) = some (trace, o) ∧
        Meaning.seen (Meaning.function S.C f n store) = trace ∧ Run.Ends S.X S.code 0 s trace o) ∨
      ∃ trace j t, Meaning.function S.C f n store = .error (.spent trace) ∧
        Reach S.X S.code n 0 s (.running j t) ∧ t.world.trace = trace := by
  have hn := h n
  -- The evaluation returns, meets a call without an answer, or uses up its fuel.
  cases hr : Meaning.function S.C f n store with
  | ok r =>
    rw [hr] at hn
    obtain ⟨status, ⟨k, -, hk⟩, rfl⟩ := hn
    exact Or.inl ⟨_, _, rfl, rfl, k, hk⟩
  | error stop =>
    rw [hr] at hn
    cases stop with
    | fault => exact absurd hr (hf n)
    | lost trace =>
      obtain ⟨k, -, hk⟩ := hn
      exact Or.inl ⟨_, _, rfl, rfl, k, hk⟩
    | spent trace =>
      obtain ⟨j, t, hreach, htrace⟩ := hn
      exact Or.inr ⟨trace, j, t, rfl, hreach, htrace⟩

/-- A run ends in one way at most. -/
theorem ends_unique {trace trace' : List (Run.Event Unit)} {o o' : Run.Outcome Unit}
    (h : Run.Ends S.X S.code 0 s trace o) (h' : Run.Ends S.X S.code 0 s trace' o') :
    trace = trace' ∧ o = o' := by
  obtain ⟨n, hn⟩ := h
  obtain ⟨n', hn'⟩ := h'
  have hboth := Run.run_add_of_ended hn n'
  rw [Nat.add_comm, Run.run_add_of_ended hn' n] at hboth
  cases hboth
  exact ⟨rfl, rfl⟩

/-- A run that ended in `n` steps does not go on after them. -/
theorem not_reach_running {n j : Nat} {t : Run.State Unit} {trace : List (Run.Event Unit)}
    {o : Run.Outcome Unit} (h : Run.run S.X S.code n 0 s = .ended trace o) :
    ¬ Reach S.X S.code n 0 s (.running j t) := by
  rintro ⟨k, hk, hrun⟩
  obtain ⟨m, rfl⟩ := Nat.exists_eq_add_of_le hk
  rw [Run.run_add_of_ended h m] at hrun
  cases hrun

/-- Code that tracks an evaluation ends as the evaluation does. -/
theorem Tracks.ends_iff (h : S.Tracks f store s) (hf : Meaning.Faultless S.C f store)
    (trace : List (Run.Event Unit)) (o : Run.Outcome Unit) :
    Run.Ends S.X S.code 0 s trace o ↔ Meaning.Ends S.C f store trace o := by
  constructor
  · rintro ⟨n, hn⟩
    obtain ⟨trace', o', hend, -, hends⟩ | ⟨trace', j, t, -, hreach, -⟩ := h.cases hf n
    · obtain ⟨rfl, rfl⟩ := ends_unique ⟨n, hn⟩ hends
      exact ⟨n, hend⟩
    · exact absurd hreach (not_reach_running hn)
  -- The evaluation with `n` turns has come to an end, so the run has ended too, in the same
  -- way.
  · rintro ⟨n, hn⟩
    obtain ⟨trace', o', hend, -, hends⟩ | ⟨trace', j, t, hspent, -⟩ := h.cases hf n
    · rw [hend] at hn
      cases hn
      exact hends
    · rw [hspent] at hn
      cases hn

/-- Code that tracks an evaluation shows what the evaluation shows. -/
theorem Tracks.shows_iff (h : S.Tracks f store s) (hf : Meaning.Faultless S.C f store)
    (trace : List (Run.Event Unit)) :
    Run.Shows S.X S.code 0 s trace ↔ Meaning.Shows S.C f store trace := by
  constructor
  · rintro ⟨n, hn⟩
    refine ⟨n, ?_⟩
    obtain ⟨trace', o', -, hseen, k, hk⟩ | ⟨trace', j, t, hspent, ⟨k, hnk, hk⟩, rfl⟩ := h.cases hf n
    -- The end of the run may be before step `n` or behind it; in both cases its trace is the
    -- longer one.
    · have hlast := Run.run_add_of_ended hk n
      have hmono := Run.trace_run_mono (X := S.X) (A := S.code) (i := 0) (s := s) (Nat.le_add_left n k)
      rw [hlast] at hmono
      rw [hseen]
      exact hn.trans hmono
    · have hmono := Run.trace_run_mono (X := S.X) (A := S.code) (i := 0) (s := s) hnk
      rw [hk] at hmono
      rw [hspent]
      exact hn.trans hmono
  · rintro ⟨n, hn⟩
    obtain ⟨trace', o', -, hseen, k, hk⟩ | ⟨trace', j, t, hspent, ⟨k, -, hk⟩, rfl⟩ := h.cases hf n
    · rw [hseen] at hn
      exact ⟨k, by rwa [hk]⟩
    · rw [hspent] at hn
      exact ⟨k, by rwa [hk]⟩

/-- Code that tracks an evaluation goes on for ever exactly when no number of turns is
enough for the evaluation. -/
theorem Tracks.diverges_iff (h : S.Tracks f store s) (hf : Meaning.Faultless S.C f store) :
    Run.Diverges S.X S.code 0 s ↔ Meaning.Diverges S.C f store := by
  -- A run diverges when it never ends, an evaluation when all fuel is spent.
  rw [Run.diverges_iff]
  constructor
  · intro hnone n
    obtain ⟨trace, o, -, -, hends⟩ | ⟨trace, j, t, hspent, -⟩ := h.cases hf n
    · exact absurd hends (hnone trace o)
    · exact ⟨trace, hspent⟩
  · rintro hspent trace o ⟨n, hn⟩
    obtain ⟨trace', o', hend, -⟩ | ⟨trace', j, t, -, hreach, -⟩ := h.cases hf n
    · obtain ⟨trace'', hs⟩ := hspent n
      rw [hs] at hend
      cases hend
    · exact absurd hreach (not_reach_running hn)

/-- All three together. -/
theorem Tracks.behaves (h : S.Tracks f store s) (hf : Meaning.Faultless S.C f store) :
    S.Behaves f store s :=
  ⟨h.ends_iff hf, h.shows_iff hf, h.diverges_iff hf⟩

end Scene

namespace Placed

variable {b : Bool} {u : CompUnit} {i : Nat} {f : FuncDef} {p : Program} {before : Progress}
  {st : State}
  {host : Host Unit} {addr : VarId → Word}

/-- The globals of the program stand in the order in which they are declared. -/
theorem getElem?_globals (h : Placed b u i f p before st) (hf : Distinct u f) {k : Nat} {d : DeclId}
    (hd : u.globals[k]? = some d) : p.globals[k]? = (sceneOf u f p before st host addr).look d := by
  have hk : k < u.globals.length := (List.getElem?_eq_some_iff.1 hd).1
  have hplace : p.globals[k]? = some ((0 + k : Nat) : Int) := by
    rw [h.names]
    exact getElem?_places.2 ⟨hk, rfl⟩
  rw [hplace]
  exact ((h.look_iff hf).2 (Or.inl ⟨k, hd, rfl⟩)).symm

/-- The parameters of the compiled function stand in the order in which they are declared. -/
theorem getElem?_params (h : Placed b u i f p before st) (hf : Distinct u f) {k : Nat} {d : DeclId}
    (hd : f.params[k]? = some d) :
    (compiled b u.decls f (places before.program.vars f.params.length) st).params[k]? =
      (sceneOf u f p before st host addr).look d := by
  have hk : k < f.params.length := (List.getElem?_eq_some_iff.1 hd).1
  have hplace : (places before.program.vars f.params.length)[k]? =
      some ((before.program.vars.size + k : Nat) : Int) := getElem?_places.2 ⟨hk, rfl⟩
  show (places before.program.vars f.params.length)[k]? = _
  rw [hplace]
  exact ((h.look_iff hf).2 (Or.inr (Or.inl ⟨k, hd, rfl⟩))).symm

/-- The scene of a function has the function and what it is compiled to. -/
theorem stages (h : Placed b u i f p before st) (hf : Distinct u f) :
    (sceneOf u f p before st host addr).Stages u f p
      (compiled b u.decls f (places before.program.vars f.params.length) st) host addr where
  decls := rfl
  func := rfl
  code := rfl
  setting := rfl
  context := by
    refine ⟨varOf before.globals st, rfl, fun d id hlook => ?_⟩
    have hsome : st.scope[d]?.or before.globals[d]? = some id := hlook
    rw [varOf, hsome]
    rfl
  globals _ _ hd := h.getElem?_globals hf hd
  params _ _ hd := h.getElem?_params hf hd

/-- The code of a function in its unit follows the evaluation of its tree. -/
theorem tracks (h : Placed b u i f p before st) (hf : Distinct u f)
    (hS : (sceneOf u f p before st host addr).Sound) (hbody : Meaning.NodesFit f.body)
    {store : Meaning.Store} {s : Run.State Unit}
    (hm : (sceneOf u f p before st host addr).Matches store s) :
    (sceneOf u f p before st host addr).Tracks f store s := by
  intro n
  obtain ⟨-, hentry⟩ := entry_inv u.decls before f
  -- Without statements in front, the run of the body starts at the first statement.
  have hsize : (entry u.decls before f).stmts.size = 0 := by
    rw [hentry]
    rfl
  have hstart : (sceneOf u f p before st host addr).Starts (entry u.decls before f) := by
    rw [Scene.Starts, hentry]
    rfl
  have hlead : (sceneOf u f p before st host addr).Leads
      (st.add (.ret (if f.void then none else some (.const 0)))) :=
    ⟨List.prefix_refl _, h.vars, fun hscope => hscope, Nat.le_refl _⟩
  have hfollows := Scene.follows_function (n := n) hS hbody h.body hstart hlead (fresh hf) hm
  rwa [hsize] at hfollows

end Placed

/-- Every function of a unit that is compiled has its place, and a sound scene there. -/
theorem exists_scene {u : CompUnit} {p : Program} (h : u.generate false = .ok p)
    (hinits : Meaning.InitsFit u.decls) {i : Nat} {f : FuncDef} (hf : u.funcs[i]? = some f)
    (hdistinct : Distinct u f) (hlen : ∀ g ∈ p.funcs, g.stmts.length ≤ 18446744073709551616)
    (host : Host Unit) (addr : VarId → Word) :
    ∃ before st, Placed false u i f p before st ∧ (sceneOf u f p before st host addr).Sound := by
  obtain ⟨before, st, hplaced⟩ := generate_inv h hf
  have hsize : st.stmts.size ≤ 18446744073709551616 := by
    have hle := hlen _ (List.mem_of_getElem? hplaced.func)
    rw [compiled, Array.length_toList, State.add, Array.size_push] at hle
    omega
  exact ⟨before, st, hplaced, hplaced.sound hdistinct hinits hsize⟩

/-- Every function of a unit that is compiled behaves as its tree is evaluated.  Expressions are 32-bit
words; logical operators are short and give zero or one; a function with a result that falls off its
end gives zero.  Memory, which has the globals and arrays, may be any, and so may be the callees and
the values of variables and temporaries at the start.  Inside the function, the code that jumps to a
label on an expression jumps exactly when the truth of the expression is as wanted and goes on behind
itself otherwise, with the calls of the short evaluation. -/
theorem generate_preserves {u : CompUnit} {p : Program} (h : u.generate false = .ok p)
    (hinits : Meaning.InitsFit u.decls) {i : Nat} {f : FuncDef} (hf : u.funcs[i]? = some f)
    (hbody : Meaning.NodesFit f.body) (hdecls : (u.globals ++ f.params ++ declaredAll f.body).Nodup)
    (hlen : ∀ g ∈ p.funcs, g.stmts.length ≤ 18446744073709551616) (host : Host Unit)
    (addr : VarId → Word) :
    ∃ (g : Func) (S : Scene), p.funcs[i]? = some g ∧ S.Stages u f p g host addr ∧
      (∀ n loc e, Meaning.Fits e → S.Decides n (Meaning.mentions e) loc (expr S.env e).jump
        (Meaning.expr S.C loc (Meaning.mentions e) e)) ∧
      ∀ store s, S.Matches store s → Meaning.Faultless S.C f store → S.Behaves f store s := by
  have hdistinct := distinct_of_nodup hdecls
  obtain ⟨before, st, hplaced, hS⟩ := exists_scene h hinits hf hdistinct hlen host addr
  exact ⟨_, sceneOf u f p before st host addr, hplaced.func, hplaced.stages hdistinct,
    fun n loc e he => (Scene.renders_expr hS e he (List.Subset.refl _)).jump,
    fun store s hm hfault => (hplaced.tracks hdistinct hS hbody hm).behaves hfault⟩

/-! A function that calls another one only when its argument is not zero. -/

def guardedCall : FuncDef where
  name := "f"
  params := [0]
  body := [.cond (.binary .and (.lval 0 [] {}) (.call "g" none [.lval 0 [] {}] {}))
    (.ret (some (.num 1)) {}) .skip]

def guardedUnit : CompUnit where
  decls := #[{ name := "x" }]
  funcs := [guardedCall]

/-- The callee gives seven and leaves memory alone. -/
def guardedHost : Host Unit where
  valid _ := true
  reply _ := some (7, fun _ => 0)

/-- Five is not zero, so the callee is called once, and the result is one. -/
theorem generate_preserves_guarded : ∃ p g S, guardedUnit.generate false = .ok p ∧
    p.funcs[0]? = some g ∧ Scene.Stages S guardedUnit guardedCall p g guardedHost (fun _ => 0) ∧
    Run.Ends S.X g.stmts 0 ⟨fun _ => 3, fun _ => 5, ⟨fun _ => 0, []⟩⟩
      [.call "g" [5] (fun _ => 0) ()] (.returned (some 1) (fun _ => 0) ()) := by
  -- The sizes are seen by generating the unit.
  have htest : ((guardedUnit.generate false).toOption.any fun p =>
      p.funcs.all fun g => decide (g.stmts.length ≤ 10)) = true := by decide
  obtain ⟨p, hp, htest⟩ := exists_ok_of_any htest
  rw [List.all_eq_true] at htest
  have hlen : ∀ g ∈ p.funcs, g.stmts.length ≤ 18446744073709551616 := fun g hg =>
    Nat.le_trans (of_decide_eq_true (htest g hg)) (by decide)
  have hinits : Meaning.InitsFit guardedUnit.decls := by
    intro d init hinit
    have hnone : (guardedUnit.decls.at d).init = none := by
      rcases d with _ | d <;> rfl
    rw [hnone] at hinit
    cases hinit
  have hbody : Meaning.NodesFit guardedCall.body := by
    simp [guardedCall, Meaning.NodesFit, Meaning.NodeFits, Meaning.Fits, Meaning.FitAll, Meaning.Small]
  obtain ⟨g, S, hg, hS, -, hbehaves⟩ := generate_preserves hp hinits (i := 0) rfl hbody
    (by decide) hlen guardedHost fun _ => 0
  obtain ⟨var, hC, -⟩ := hS.context
  -- The two sides start with the same parameter and the same memory.
  have hm : S.Matches ⟨fun _ => some 5, ⟨fun _ => 0, []⟩⟩ ⟨fun _ => 3, fun _ => 5, ⟨fun _ => 0, []⟩⟩ :=
    ⟨fun _ _ _ _ _ hx => Option.some.inj hx, rfl⟩
  have hfaultless : Meaning.Faultless S.C guardedCall ⟨fun _ => some 5, ⟨fun _ => 0, []⟩⟩ := by
    intro n hn
    rw [hC] at hn
    cases hn
  refine ⟨p, g, S, hp, hg, hS, ?_⟩
  rw [← hS.code, (hbehaves _ _ hm hfaultless).ends, hC]
  exact ⟨0, rfl⟩

end Tac.Tree.Generate
