import Mathlib
import Tac.Proofs.Shape
import Tac.Proofs.Units

/-!
# Generated programs are well formed

Labels and temporaries are numbered through a whole program, so what one function draws no other one
draws.  Each function jumps to its own labels only, declares the temporaries that it uses, writes them
before it reads them, and ends with a return.

* **`Func.WellFormed`** — what holds of a function of a program.
* **`generate_wellFormed`** — programs that are generated have each label once, and their functions are
  well formed.
-/

namespace Tac

open Assignment Tree.Generate

/-- The labels that the functions of a program define. -/
def Program.labels (p : Program) : List Int := p.funcs.flatMap fun f => labelsOf f.stmts

/-- What holds of function `i` of a program: it can be analysed, uses its own labels and temporaries
only, and every way to a read of a temporary passes a write of it. -/
structure Func.WellFormed (p : Program) (i : Nat) (f : Func) : Prop where
  targets : ∀ s ∈ f.stmts, ∀ l, s.target? = some l → l ∈ labelsOf f.stmts
  connects : ∃ fl, Flow.connect f = .ok fl
  temps : ∀ s ∈ f.stmts, ∀ n, .temp n ∈ s.operands → f.temps.count n = 1 ∧
    ∀ j g, j ≠ i → p.funcs[j]? = some g → n ∉ g.temps
  written : ∀ fl, Flow.connect f = .ok fl → ∀ is k, Path fl is k → ∀ s, f.stmts[k]? = some s →
    ∀ n, .temp n ∈ s.sources → ∃ j ∈ is, ∃ t, f.stmts[j]? = some t ∧ t.dst? = some (.temp n)
  analysis : ∃ a, f.analyze p.vars = .ok a ∧ ∀ u : Nat, (a.live.liveAt 0).contains u = true → u % 3 ≠ 0
  operators : ∀ d l op r, .binary d l op r ∈ f.stmts → op.isLogical = false ∧
    (op = .div ∨ op = .mod → r ≠ .const 0)
  returns : ∃ v, f.stmts.getLast? = some (.ret v)

namespace Flow

/-- A label that is defined is in the table. -/
theorem exists_getElem?_labelTable {stmts : List Stmt} {l : Int} (h : l ∈ labelsOf stmts) :
    ∃ j, (labelTable stmts)[l]? = some j := by
  rw [labelTable_eq]
  -- From the end, since the table keeps the last definition of a label.
  induction stmts using List.reverseRecOn with
  | nil => cases h
  | append_singleton stmts s ih =>
    rw [lastTable_concat]
    rw [labelsOf_append, List.mem_append] at h
    cases hs : s.label? with
    | none =>
      rcases h with h | h
      · exact ih h
      · simp [labelsOf, hs] at h
    | some l' =>
      rw [Std.TreeMap.getElem?_insert]
      split
      · exact ⟨_, rfl⟩
      · next hne =>
        rcases h with h | h
        · exact ih h
        · simp only [labelsOf, List.filterMap_cons, hs, List.filterMap_nil, List.mem_singleton] at h
          rw [h] at hne
          exact absurd Std.ReflCmp.compare_self hne

/-- A function that defines the labels that it jumps to has a flow. -/
theorem exists_connect_of_targets {f : Func}
    (h : ∀ s ∈ f.stmts, ∀ l, s.target? = some l → l ∈ labelsOf f.stmts) :
    ∃ fl, connect f = .ok fl := by
  refine exists_connect fun i s hs => ?_
  cases s with
  | jump l | branch _ _ _ l =>
    obtain ⟨j, hj⟩ := exists_getElem?_labelTable (h _ (List.mem_of_getElem? hs) l rfl)
    simp [successors, hj]
  | ret | label | binary | unary | move | store | load | call | zeroFill => exact ⟨_, rfl⟩

end Flow

namespace Assignment

/-- Labels that are different can be given any temporaries. -/
theorem exists_of_nodup {κ : List (Int × Set Int)} (h : (κ.map Prod.fst).Nodup) :
    ∃ Γ : Int → Set Int, ∀ e ∈ κ, Γ e.1 = e.2 := by
  induction κ with
  | nil => exact ⟨fun _ => ∅, nofun⟩
  | cons e κ ih =>
    rw [List.map_cons, List.nodup_cons] at h
    obtain ⟨Γ, hΓ⟩ := ih h.2
    refine ⟨Function.update Γ e.1 e.2, List.forall_mem_cons.2 ⟨Function.update_self .., fun e' he' => ?_⟩⟩
    rw [Function.update_of_ne, hΓ e' he']
    rintro heq
    exact h.1 (heq ▸ List.mem_map_of_mem he')

/-- Only what an operand has as its number is live. -/
theorem exists_of_live {vars : VarTable} {f : Func} {fl : Flow} (d : Flow.Describes f fl) {i : Nat}
    {u : VReg} (hu : ((Liveness.analyze vars f fl).liveAt i).contains u = true) :
    ∃ s ∈ f.stmts, ∃ v ∈ s.operands, vars.vreg? v = some u := by
  refine live_induction d (P := fun _ u => ∃ s ∈ f.stmts, ∃ v ∈ s.operands, vars.vreg? v = some u)
    (fun i s u hs hu => ?_) (fun _ _ _ _ _ _ h _ => h) hu
  obtain ⟨v, hv, hvu⟩ := List.mem_filterMap.1 hu
  exact ⟨s, List.mem_of_getElem? hs, v, mem_operands_of_source hv, hvu⟩

/-- Nothing that is live before the first statement is a temporary. -/
theorem mod_three_of_live {vars : VarTable} {f : Func} {fl : Flow} {Γ : Int → Set Int} {D' : Set Int}
    (h : Passes Γ ∅ f.stmts D') (hf : Spaced vars f) (d : Flow.Describes f fl) {u : Nat}
    (hu : ((Liveness.analyze vars f fl).liveAt 0).contains u = true) : u % 3 ≠ 0 := by
  obtain ⟨s, hs, v, hv, hvu⟩ := exists_of_live d hu
  -- A live operand is no temporary, and numbers of variables leave another rest.
  cases v with
  | const => cases hvu
  | temp n =>
    obtain ⟨h0, hn⟩ := hf.temps s hs n hv
    rw [vreg?_temp h0 hn, Option.some_inj] at hvu
    subst hvu
    rw [not_live_temp h hf d h0 hn] at hu
    cases hu
  | var id =>
    obtain ⟨k, hk, hku⟩ := Option.bind_eq_some_iff.1 hvu
    obtain ⟨x, hx, hnum⟩ := Option.bind_eq_some_iff.1 hk
    obtain ⟨hx0, hxn⟩ := hf.vars s hs id x hv hx
    obtain ⟨hk0, hmod⟩ := number?_of_spaced hx0 hxn hnum
    rw [if_pos hk0, Option.some_inj] at hku
    have hk3 : k.toNat = u := hku
    omega

/-- Operands with small numbers are numbered. -/
theorem isNumbered_of_spaced {vars : VarTable} {f : Func} (hf : Spaced vars f) {s : Stmt}
    (hs : s ∈ f.stmts) (hvars : ∀ id, .var id ∈ s.operands → ∃ v, vars.get? id = some v) :
    s.isNumbered vars = true := by
  have hop : ∀ v ∈ s.operands, vars.isNumbered v = true := by
    intro v hv
    cases v with
    | const => rfl
    | temp n =>
      obtain ⟨h0, hn⟩ := hf.temps s hs n hv
      -- The number of a temporary does not wrap, as the temporaries are few.
      have hwrap : wrap64 (3 * n) = 3 * n := by
        rw [wrap64, Int.bmod_def]
        split <;> omega
      simp only [VarTable.isNumbered, VarTable.resolves, VarTable.number?, Option.all_some,
        Bool.true_and, decide_eq_true_eq, hwrap]
      omega
    | var id =>
      obtain ⟨x, hx⟩ := hvars id hv
      obtain ⟨hx0, hxn⟩ := hf.vars s hs id x hv hx
      simp only [VarTable.isNumbered, VarTable.resolves, VarTable.number?, hx, Option.isSome_some,
        Option.bind_some, Bool.true_and]
      cases hnum : x.number? with
      | none => rfl
      | some k => exact decide_eq_true (number?_of_spaced hx0 hxn hnum).1
  unfold Stmt.isNumbered
  rw [Bool.and_eq_true]
  constructor
  · cases hd : s.dst? with
    | none => rfl
    | some d => exact hop d (mem_operands_of_dst hd)
  · exact List.all_eq_true.2 fun v hv => hop v (mem_operands_of_source hv)

end Assignment

namespace Tree.Generate

/-! ## Variables -/

/-- What a name stands for behind declarations is one of their variables or was there
before. -/
theorem mem_of_getElem?_extend {ds : List DeclId} {ids : List VarId} {scope : Std.TreeMap Nat VarId}
    {d : DeclId} {id : VarId} (h : (extend scope ds ids)[d]? = some id) :
    id ∈ ids ∨ scope[d]? = some id := by
  induction ds generalizing ids scope with
  | nil => exact Or.inr h
  | cons d' ds ih =>
    cases ids with
    | nil => exact Or.inr h
    | cons id' ids =>
      have h' : (extend (scope.insert d' id') ds ids)[d]? = some id := h
      -- Found further down the list, or written by its first entry, or there before.
      rcases ih h' with hmem | hscope
      · exact Or.inl (List.mem_cons_of_mem _ hmem)
      · rw [Std.TreeMap.getElem?_insert] at hscope
        split at hscope
        · cases hscope
          exact Or.inl (List.mem_cons_self ..)
        · exact Or.inr hscope

section Named

variable {decls : Decls} {cls : VarClass} {ds : List DeclId} {vars vars₁ : VarTable}
  {scope scope₁ : Std.TreeMap Nat VarId} {id : VarId}

/-- The same for declarations that get the next variables of a table. -/
theorem Named.mem (h : Named decls cls ds vars scope vars₁ scope₁) {d : DeclId}
    (hd : scope₁[d]? = some id) : id ∈ places vars ds.length ∨ scope[d]? = some id := by
  obtain ⟨vs, -, -, hscope⟩ := h
  rw [hscope] at hd
  exact mem_of_getElem?_extend hd

/-- The variables of declarations are in the table, with their class. -/
theorem Named.get?_of_mem (h : Named decls cls ds vars scope vars₁ scope₁) {table : VarTable}
    (htable : vars₁.toList <+: table.toList) (hid : id ∈ places vars ds.length) :
    ∃ v, table.get? id = some v ∧ v.cls = cls := by
  obtain ⟨i, hi⟩ := List.getElem?_of_mem hid
  obtain ⟨hlt, rfl⟩ := getElem?_places.1 hi
  obtain ⟨v, hv, hcls, -⟩ := h.get? htable ⟨i, List.getElem?_eq_getElem hlt, rfl⟩
  exact ⟨v, hv, hcls⟩

end Named

theorem numbered_empty : Numbered #[] 0 := ⟨⟨0, rfl, rfl⟩, nofun⟩

/-- A global gets the next number. -/
theorem numbered_addGlobal {decls : Decls} {p p' : Progress} {d : DeclId}
    (h : addGlobal decls p d = .ok p')
    (hn : Numbered p.program.vars p.program.counters.vars) :
    Numbered p'.program.vars p'.program.counters.vars := by
  obtain ⟨inits, -, hp⟩ := Tac.bind_eq_ok.1 h
  cases hp
  exact hn.push nofun rfl

/-- Globals get the next numbers. -/
theorem numbered_globals {decls : Decls} {ds : List DeclId} {p p' : Progress}
    (h : ds.foldlM (addGlobal decls) p = .ok p')
    (hn : Numbered p.program.vars p.program.counters.vars) :
    Numbered p'.program.vars p'.program.counters.vars := by
  induction ds generalizing p with
  | nil =>
    cases h
    exact hn
  | cons d ds ih =>
    obtain ⟨p₁, h₁, h₂⟩ := Tac.bind_eq_ok.1 h
    exact ih h₂ (numbered_addGlobal h₁ hn)

/-- Parameters leave the counter alone and have small numbers. -/
theorem numbered_addParams (decls : Decls) (i : Nat) (st : State) (ds : List DeclId)
    (hi : i ≤ st.vars.size) (hn : Numbered st.vars st.counters.vars) :
    Numbered (addParams decls i st ds).1.vars st.counters.vars := by
  -- On the parameters; the number of the first one is at most the size of the table.
  induction ds generalizing i st with
  | nil => exact hn
  | cons d ds ih =>
    refine ih (i + 1) _ ?_ ?_
    · simp only [Array.size_push]
      omega
    · exact hn.push_param rfl ⟨Int.natCast_nonneg i, Int.ofNat_le.2 hi⟩

/-- What a function is compiled under, besides its temporaries and locals. -/
def frameOf (globals : List VarId) (before : Progress) (f : FuncDef) : Frame where
  names := globals ++ places before.program.vars f.params.length
  void := f.void

/-- At the start of a function only its parameters are in scope. -/
theorem ready_entry (decls : Decls) {p : Progress} {f : FuncDef} {globals : List VarId}
    (hn : Numbered p.program.vars p.program.counters.vars) :
    Ready (frameOf globals p f) (entry decls p f) := by
  obtain ⟨hnamed, hentry⟩ := entry_inv decls p f
  refine ⟨fun d id hd => ?_, ?_, ?_⟩
  · rcases hnamed.mem hd with hmem | hempty
    · exact Or.inl (List.mem_append_right _ hmem)
    · cases hempty
  · rw [hentry]
    exact nofun
  · have hparams := numbered_addParams decls 0
      { vars := p.program.vars, counters := p.program.counters } f.params (Nat.zero_le _) hn
    have hcounters : (entry decls p f).counters = p.program.counters := by rw [hentry]
    rw [hcounters]
    exact hparams

/-! ## Functions -/

/-- The body of a function and its last return. -/
theorem built_body {decls : Decls} {p : Progress} {f : FuncDef} {globals : List VarId} {st : State}
    (hglobals : ∀ (d : DeclId) (id : VarId), p.globals[d]? = some id → id ∈ globals)
    (hn : Numbered p.program.vars p.program.counters.vars)
    (h : nodes { decls, func := f, globals := p.globals } [] f.body (entry decls p f) = .ok ((), st)) :
    Built (frameOf globals p f) [] [] (entry decls p f)
      (st.add (.ret (if f.void then none else some (.const 0)))) [] := by
  have hcovers : (frameOf globals p f).Covers { decls, func := f, globals := p.globals } :=
    ⟨fun d id hd => List.mem_append_left _ (hglobals d id hd), rfl⟩
  have hbody : Built (frameOf globals p f) [] [] (entry decls p f) st [] :=
    builds_nodes (fun nd _ => builds_node hcovers nd) (List.forall_mem_nil _) h
      (ready_entry decls hn) nofun
  -- The last return is emitted whatever the body does.
  have hret : Built (frameOf globals p f) [] [] st
      (st.add (.ret (if f.void then none else some (.const 0)))) [] := by
    refine Built.add hbody.ready nofun ⟨rfl, nofun, fun v hv => Or.inr (Or.inl ?_), fun n hn => ?_,
      fun hvoid => if_pos hvoid⟩
    · simp only [Stmt.operands, Stmt.dst?, Stmt.sources] at hv
      split at hv <;> simp_all [Val.isConst]
    · simp only [Stmt.sources] at hn
      split at hn <;> simp_all
  exact hbody.seq hret

/-- A function leaves the variables numbered, as its locals get the next numbers. -/
theorem numbered_addFunc {b : Bool} {decls : Decls} {p p' : Progress} {f : FuncDef}
    {globals : List VarId}
    (hglobals : ∀ (d : DeclId) (id : VarId), p.globals[d]? = some id → id ∈ globals)
    (h : addFunc b decls p f = .ok p') (hn : Numbered p.program.vars p.program.counters.vars) :
    Numbered p'.program.vars p'.program.counters.vars := by
  obtain ⟨st, hbody, rfl⟩ := addFunc_inv h
  exact (built_body hglobals hn hbody).ready.numbered

/-- Functions leave the variables numbered. -/
theorem numbered_foldlM {b : Bool} {decls : Decls} {fs : List FuncDef} {p p' : Progress}
    {globals : List VarId}
    (hglobals : ∀ (d : DeclId) (id : VarId), p.globals[d]? = some id → id ∈ globals)
    (h : fs.foldlM (addFunc b decls) p = .ok p')
    (hn : Numbered p.program.vars p.program.counters.vars) :
    Numbered p'.program.vars p'.program.counters.vars := by
  induction fs generalizing p with
  | nil =>
    cases h
    exact hn
  | cons f fs ih =>
    obtain ⟨p₁, h₁, h₂⟩ := Tac.bind_eq_ok.1 h
    refine ih ?_ h₂ (numbered_addFunc hglobals h₁ hn)
    rw [(extends_addFunc h₁).globals]
    exact hglobals

/-- The globals of a unit have the first places. -/
theorem globals_of_withGlobals {u : CompUnit} {first : Progress} (h : withGlobals u = .ok first) :
    ∀ (d : DeclId) (id : VarId), first.globals[d]? = some id → id ∈ places #[] u.globals.length := by
  intro d id hd
  rcases (globals_foldlM h).named.mem hd with hmem | hempty
  · exact hmem
  · cases hempty

/-! ## Programs -/

/-- From one progress to another, functions were added with the next labels and temporaries, each of
which they define and declare once. -/
inductive Collects (p p' : Progress) : Prop where
  | intro (fs : List Func) (k m : Nat) (funcs : p'.program.funcs = p.program.funcs ++ fs)
      (label : p'.program.counters.labels = nth p.program.counters.labels k)
      (labels : (fs.flatMap fun f => labelsOf f.stmts).Perm (drawn p.program.counters.labels k))
      (temp : p'.program.counters.temps = nth p.program.counters.temps m)
      (temps : fs.flatMap Func.temps = drawn p.program.counters.temps m)
      (le : m ≤ (fs.map fun f => f.stmts.length).sum)

namespace Collects

variable {p p₁ p₂ : Progress}

theorem refl (p : Progress) : Collects p p :=
  ⟨[], 0, 0, (List.append_nil _).symm, rfl, List.Perm.refl _, rfl, rfl, Nat.le_refl _⟩

/-- Functions behind functions, with the next labels and temporaries. -/
theorem trans (h : Collects p p₁) (h' : Collects p₁ p₂) : Collects p p₂ := by
  obtain ⟨fs, k, m, hfuncs, hlabel, hlabels, htemp, htemps, hle⟩ := h
  obtain ⟨fs', k', m', hfuncs', hlabel', hlabels', htemp', htemps', hle'⟩ := h'
  refine ⟨fs ++ fs', k + k', m + m', ?_, ?_, ?_, ?_, ?_, ?_⟩
  · rw [hfuncs', hfuncs, List.append_assoc]
  · rw [hlabel', hlabel, nth_add]
  · rw [List.flatMap_append, drawn_add, ← hlabel]
    exact hlabels.append hlabels'
  · rw [htemp', htemp, nth_add]
  · rw [List.flatMap_append, drawn_add, ← htemp, htemps, htemps']
  · rw [List.map_append, List.sum_append]
    omega

/-- One function that is compiled. -/
theorem addFunc {b : Bool} {decls : Decls} {f : FuncDef}
    (h : Generate.addFunc b decls p f = .ok p₁) : Collects p p₁ := by
  obtain ⟨st, hbody, rfl⟩ := addFunc_inv h
  obtain ⟨-, hentry⟩ := entry_inv decls p f
  have hgrown := ((adds_nodes (fun nd _ => adds_node _ nd) [] hbody).1).trans
    (Grown.add st (s := .ret (if f.void then none else some (.const 0))) rfl)
  -- What the body added is all there is, since the function started empty.
  obtain ⟨c, k, m, hstmts, hlabel, hlabels, htemp, htemps, hle⟩ := hgrown
  rw [hentry] at hstmts hlabel hlabels htemp htemps
  rw [Array.toList_empty, List.nil_append] at hstmts htemps
  simp only [List.append_nil] at hlabels
  rw [← hstmts] at hlabels hle
  refine ⟨[_], k, m, rfl, hlabel, ?_, htemp, ?_, ?_⟩
  · rw [List.flatMap_singleton]
    exact hlabels
  · rw [List.flatMap_singleton]
    exact htemps
  · rw [List.map_singleton, List.sum_singleton]
    exact hle

/-- Functions that are compiled one after the other. -/
theorem foldlM {b : Bool} {decls : Decls} {fs : List FuncDef}
    (h : fs.foldlM (Generate.addFunc b decls) p = .ok p₁) : Collects p p₁ := by
  induction fs generalizing p with
  | nil =>
    cases h
    exact refl _
  | cons f fs ih =>
    obtain ⟨p₂, h₂, h₃⟩ := Tac.bind_eq_ok.1 h
    exact (addFunc h₂).trans (ih h₃)

end Collects

/-- The size of a program that fits into memory: a statement in a list takes sixteen bytes, a variable
more. -/
def Small (p : Program) : Prop :=
  p.vars.size + (p.funcs.map fun f => f.stmts.length).sum ≤ 2 ^ 60

/-- A small program has few variables. -/
theorem Small.size_le {p : Program} (h : Small p) : p.vars.size ≤ 1152921504606846976 := by
  unfold Small at h
  omega

/-- A function of a small program has few statements. -/
theorem Small.length_le {p : Program} (h : Small p) {f : Func} (hf : f ∈ p.funcs) :
    f.stmts.length ≤ 1152921504606846976 := by
  have hle := List.single_le_sum (fun _ _ => Nat.zero_le _) _
    (List.mem_map_of_mem (f := fun f : Func => f.stmts.length) hf)
  unfold Small at h
  omega

theorem nth_zero {k : Nat} (hk : k ≤ 1152921504606846976) : nth 0 k = k := by
  rw [nth_eq (by decide), Int.zero_add, wrap64, Int.bmod_def]
  split <;> omega

/-- The first numbers are those below their count. -/
theorem mem_drawn_zero {k : Nat} (hk : k ≤ 1152921504606846976) {n : Int} :
    n ∈ drawn 0 k ↔ 0 ≤ n ∧ n < k := by
  simp only [drawn, List.mem_map, List.mem_range]
  constructor
  · rintro ⟨i, hi, rfl⟩
    rw [nth_zero (by omega)]
    omega
  · rintro ⟨h0, hn⟩
    refine ⟨n.toNat, by omega, ?_⟩
    rw [nth_zero (by omega)]
    omega

/-- What the functions of a generated program define and declare. -/
structure Tallied (p : Program) : Prop where
  nodup_labels : p.labels.Nodup
  mem_labels : ∀ l, l ∈ p.labels ↔ 0 ≤ l ∧ l < p.counters.labels
  nodup_temps : (p.funcs.flatMap Func.temps).Nodup
  mem_temps : ∀ n ∈ p.funcs.flatMap Func.temps, 0 ≤ n ∧ n < 1152921504606846976
  numbered : Numbered p.vars p.counters.vars

/-- Statements define no more labels than there are statements. -/
theorem length_labelsOf_le (ss : List Stmt) : (labelsOf ss).length ≤ ss.length :=
  List.length_filterMap_le _ _

/-- Functions define no more labels than they have statements. -/
theorem length_labels_le (fs : List Func) :
    (fs.flatMap fun f => labelsOf f.stmts).length ≤ (fs.map fun f => f.stmts.length).sum := by
  induction fs with
  | nil => exact Nat.le_refl _
  | cons f fs ih =>
    have hf := length_labelsOf_le f.stmts
    rw [List.flatMap_cons, List.length_append, List.map_cons, List.sum_cons]
    omega

/-- The labels and temporaries of a small program have the first numbers. -/
theorem collects_generate {b : Bool} {u : CompUnit} {p : Program} (h : u.generate b = .ok p)
    (hsmall : Small p) : ∃ k m : Nat, k ≤ 1152921504606846976 ∧ m ≤ 1152921504606846976 ∧
      p.counters.labels = k ∧ p.labels.Perm (drawn 0 k) ∧ p.funcs.flatMap Func.temps = drawn 0 m := by
  obtain ⟨p₀, h₀, h⟩ := Tac.bind_eq_ok.1 h
  obtain ⟨p', hfuncs, hp⟩ := Tac.bind_eq_ok.1 h
  cases hp
  have hglobals := globals_foldlM h₀
  have hnone : p₀.program.funcs = [] := hglobals.funcs
  -- The globals draw neither labels nor temporaries.
  have hzero : p₀.program.counters.labels = 0 := hglobals.labels
  have hzero' : p₀.program.counters.temps = 0 := hglobals.temps
  obtain ⟨fs, k, m, hfs, hlabel, hlabels, htemp, htemps, hle⟩ := Collects.foldlM hfuncs
  rw [hnone, List.nil_append] at hfs
  rw [hzero] at hlabel hlabels
  rw [hzero'] at htemps
  unfold Small at hsmall
  rw [hfs] at hsmall
  -- A function has no more labels than statements, so the counter has not wrapped.
  have hk : k ≤ 1152921504606846976 := by
    have hlen := hlabels.length_eq
    rw [drawn, List.length_map, List.length_range] at hlen
    have hall := length_labels_le fs
    omega
  refine ⟨k, m, hk, by omega, hlabel.trans (nth_zero hk), ?_, ?_⟩
  · rwa [Program.labels, hfs]
  · rwa [hfs]

/-- Labels, temporaries and variables of a small program that is generated. -/
theorem tallied_generate {b : Bool} {u : CompUnit} {p : Program} (h : u.generate b = .ok p)
    (hsmall : Small p) : Tallied p := by
  obtain ⟨k, m, hk, hm, hlabel, hlabels, htemps⟩ := collects_generate h hsmall
  refine ⟨?_, fun l => ?_, ?_, fun n hn => ?_, ?_⟩
  · rw [hlabels.nodup_iff]
    exact nodup_drawn (by decide) (by omega)
  · rw [hlabels.mem_iff, mem_drawn_zero hk, hlabel]
  · rw [htemps]
    exact nodup_drawn (by decide) (by omega)
  · rw [htemps, mem_drawn_zero hm] at hn
    omega
  · obtain ⟨p₀, h₀, h⟩ := Tac.bind_eq_ok.1 h
    obtain ⟨p', hfuncs, hp⟩ := Tac.bind_eq_ok.1 h
    cases hp
    exact numbered_foldlM (globals_of_withGlobals h₀) hfuncs (numbered_globals h₀ numbered_empty)

/-- Variables other than parameters have the first numbers. -/
theorem Numbered.exists_drawn {vars : VarTable} {next : Int} (h : Numbered vars next) :
    ∃ k ≤ vars.size, (vars.toList.filter fun v => v.cls != .arg).map Var.index = drawn 0 k := by
  obtain ⟨k, hothers, -⟩ := h.others
  refine ⟨k, ?_, hothers⟩
  have hlen := congrArg List.length hothers
  rw [List.length_map, drawn, List.length_map, List.length_range] at hlen
  rw [← hlen, ← Array.length_toList]
  exact List.length_filter_le _ _

/-- The numbers of variables are small. -/
theorem Numbered.index_lt {vars : VarTable} {next : Int} (h : Numbered vars next)
    (hsize : vars.size ≤ 1152921504606846976) {v : Var} (hv : v ∈ vars.toList) :
    0 ≤ v.index ∧ v.index < 1152921504606846976 := by
  by_cases hcls : v.cls = .arg
  · have hparam := h.params v hv hcls
    omega
  · obtain ⟨k, hk, hothers⟩ := h.exists_drawn
    have hmem : v.index ∈ drawn 0 k := by
      rw [← hothers]
      exact List.mem_map_of_mem (List.mem_filter.2 ⟨hv, by simpa using hcls⟩)
    rw [mem_drawn_zero (by omega)] at hmem
    omega

/-- What is found in the table is in it. -/
theorem mem_of_get? {vars : VarTable} {id : VarId} {v : Var} (h : vars.get? id = some v) :
    v ∈ vars.toList := by
  unfold VarTable.get? at h
  split at h
  · rw [← Array.getElem?_toList] at h
    exact List.mem_of_getElem? h
  · cases h

/-- A number in one of several lists without repetitions is in no other one. -/
theorem count_of_nodup_flatMap {fs : List Func} {i : Nat} {f : Func} {n : Int}
    (h : (fs.flatMap Func.temps).Nodup) (hf : fs[i]? = some f) (hn : n ∈ f.temps) :
    f.temps.count n = 1 ∧ ∀ j g, j ≠ i → fs[j]? = some g → n ∉ g.temps := by
  obtain ⟨hone, hdisjoint⟩ := List.nodup_flatMap.1 h
  refine ⟨List.count_eq_one_of_mem (hone f (List.mem_of_getElem? hf)) hn, fun j g hne hg hn' => ?_⟩
  rw [List.pairwise_iff_getElem] at hdisjoint
  obtain ⟨hi, rfl⟩ := List.getElem?_eq_some_iff.1 hf
  obtain ⟨hj, rfl⟩ := List.getElem?_eq_some_iff.1 hg
  rcases Nat.lt_or_gt_of_ne hne with hlt | hlt
  · exact hdisjoint j i hj hi hlt hn' hn
  · exact hdisjoint i j hi hj hlt hn hn'

section Function

variable {p : Program} {i : Nat} {g : Func} {F : Frame} {st : State}

/-- The temporaries and variables of a small program have small numbers. -/
theorem spaced_of_allows (hsmall : Small p) (ht : Tallied p) (hg : p.funcs[i]? = some g)
    (htemps : g.temps = st.temps.toList) (hallows : ∀ s ∈ g.stmts, F.Allows st s) :
    Spaced p.vars g where
  temps s hs n hn := by
    have hmem : n ∈ g.temps := htemps ▸ (hallows s hs).operands _ hn
    have hrange := ht.mem_temps n (List.mem_flatMap.2 ⟨g, List.mem_of_getElem? hg, hmem⟩)
    omega
  vars s hs id v _ hv := by
    have hrange := ht.numbered.index_lt hsmall.size_le (mem_of_get? hv)
    omega

/-- A function whose statements have the generated forms is well formed. -/
theorem wellFormed_of_allows {Γ : Int → Set Int} {D : Set Int} (hsmall : Small p) (ht : Tallied p)
    (hg : p.funcs[i]? = some g) (hpass : Passes Γ ∅ g.stmts D)
    (hallows : ∀ s ∈ g.stmts, F.Allows st s ∧ ∀ l, s.target? = some l → l ∈ labelsOf g.stmts)
    (htemps : g.temps = st.temps.toList)
    (hvars : ∀ id, F.Knows st (.var id) → ∃ v, p.vars.get? id = some v)
    (hreturns : ∃ v, g.stmts.getLast? = some (.ret v)) : g.WellFormed p i := by
  have htemp : ∀ s ∈ g.stmts, ∀ n, .temp n ∈ s.operands → n ∈ g.temps := fun s hs n hn =>
    htemps ▸ (hallows s hs).1.operands _ hn
  have hspaced := spaced_of_allows hsmall ht hg htemps fun s hs => (hallows s hs).1
  obtain ⟨fl, hfl⟩ := Flow.exists_connect_of_targets fun s hs => (hallows s hs).2
  have hnumbered : g.stmts.all (Stmt.isNumbered p.vars) = true := List.all_eq_true.2 fun s hs =>
    isNumbered_of_spaced hspaced hs fun id hid => hvars id ((hallows s hs).1.operands _ hid)
  -- Numbers are small and jumps stay inside, so the analysis neither overflows nor misses a
  -- label.
  have hanalysis : ∃ a, g.analyze p.vars = .ok a ∧ a.live = Liveness.analyze p.vars g fl := by
    rw [Func.analyze, hfl]
    exact ⟨_, if_pos hnumbered, rfl⟩
  refine ⟨fun s hs => (hallows s hs).2, ⟨fl, hfl⟩, fun s hs n hn => ?_, fun fl hfl is k hpath s hs n hn =>
    ?_, ?_, fun d l op r hs => (hallows _ hs).1.forms.2, hreturns⟩
  · exact count_of_nodup_flatMap ht.nodup_temps hg (htemp s hs n hn)
  · exact hpass.written (Flow.describes_of_connect hfl) hpath hs hn
  · obtain ⟨a, ha, hlive⟩ := hanalysis
    refine ⟨a, ha, fun v hv => ?_⟩
    rw [hlive] at hv
    exact mod_three_of_live hpass hspaced (Flow.describes_of_connect hfl) hv

end Function

namespace Placed

variable {b : Bool} {u : CompUnit} {i : Nat} {f : FuncDef} {p : Program} {before : Progress}
  {st : State} (h : Placed b u i f p before st)

include h

/-- The globals that a function sees are those of the program. -/
theorem global_mem (d : DeclId) (id : VarId) (hd : before.globals[d]? = some id) :
    id ∈ p.globals := by
  obtain ⟨vars, hnamed, -⟩ := h.globals
  rw [h.names]
  rcases hnamed.mem hd with hmem | hempty
  · exact hmem
  · cases hempty

/-- When a function is compiled, the variables before it are numbered. -/
theorem numbered : Numbered before.program.vars before.program.counters.vars := by
  obtain ⟨first, hfirst, hbefore⟩ := h.start
  exact numbered_foldlM (globals_of_withGlobals hfirst) hbefore
    (numbered_globals hfirst numbered_empty)

/-- The code of a function in its unit has the generated form. -/
theorem built : Built (frameOf p.globals before f) [] [] (entry u.decls before f)
    (st.add (.ret (if f.void then none else some (.const 0)))) [] :=
  built_body h.global_mem h.numbered h.body

/-- A function of a small program has few statements, its last return included. -/
theorem length_le (hsmall : Small p) :
    (st.add (.ret (if f.void then none else some (.const 0)))).stmts.toList.length ≤
      1152921504606846976 :=
  hsmall.length_le (List.mem_of_getElem? h.func)

/-- Temporaries are written before they are read. -/
theorem passes (hsmall : Small p) : ∃ (Γ : Int → Set Int) (D : Set Int),
    Passes Γ ∅ (st.add (.ret (if f.void then none else some (.const 0)))).stmts.toList D := by
  obtain ⟨-, hentry⟩ := entry_inv u.decls before f
  have hempty : (entry u.decls before f).stmts = #[] := by rw [hentry]
  have hcounters : (entry u.decls before f).counters = before.program.counters := by rw [hentry]
  obtain ⟨code, k, hstmts, -, hcount, -, -, -, -, -, hflows⟩ := h.built
  rw [hempty, Array.toList_empty, List.nil_append] at hstmts
  -- The labels of one function are as few as its statements.
  have hk : k ≤ 1152921504606846976 := by
    rw [hcount, ← hstmts]
    exact Nat.le_trans (length_labelsOf_le _) (h.length_le hsmall)
  obtain ⟨κ, hκ, hpass⟩ := hflows ∅ (by simp [tempsOf])
  have hnodup : (κ.map Prod.fst).Nodup := by
    rw [hκ, hcounters]
    exact nodup_drawn h.wrapped.labels (by omega)
  -- Each label was drawn once, so there is a function that says what holds at each.
  obtain ⟨Γ, hΓ⟩ := exists_of_nodup hnodup
  rw [← hstmts] at hpass
  exact ⟨Γ, _, hpass Γ hΓ (List.forall_mem_nil _)⟩

/-- Every statement of a function in its unit is of a generated form, and jumps inside the function. -/
theorem allows : ∀ s ∈ (st.add (.ret (if f.void then none else some (.const 0)))).stmts.toList,
    (frameOf p.globals before f).Allows (st.add (.ret (if f.void then none else some (.const 0)))) s ∧
      ∀ l, s.target? = some l →
        l ∈ labelsOf (st.add (.ret (if f.void then none else some (.const 0)))).stmts.toList := by
  obtain ⟨-, hentry⟩ := entry_inv u.decls before f
  have hempty : (entry u.decls before f).stmts = #[] := by rw [hentry]
  obtain ⟨code, k, hstmts, -, -, -, -, -, hallows, htargets, -⟩ := h.built
  rw [hempty, Array.toList_empty, List.nil_append] at hstmts
  rw [hstmts]
  exact fun s hs => ⟨hallows s hs, fun l hl => (htargets s hs l hl).resolve_left (List.not_mem_nil)⟩

/-- The variables of operands are in the table. -/
theorem exists_get? {id : VarId} (hid : (frameOf p.globals before f).Knows st (.var id)) :
    ∃ v, p.vars.get? id = some v := by
  -- A known variable is a global, a parameter or a local, each with its own place in the
  -- table.
  rcases hid with hname | hlocal
  · rcases List.mem_append.1 hname with hglobal | hparam
    · obtain ⟨vars, hnamed, hpre⟩ := h.globals
      rw [h.names] at hglobal
      obtain ⟨v, hv, -⟩ := hnamed.get?_of_mem (hpre.trans h.isPrefix) hglobal
      exact ⟨v, hv⟩
    · obtain ⟨v, hv, -⟩ := (params before).get?_of_mem
        (h.declared.named.isPrefix.trans h.vars) hparam
      exact ⟨v, hv⟩
  · obtain ⟨v, hv, -⟩ := h.built.ready.locals id hlocal
    exact ⟨v, get?_of_prefix h.vars hv⟩

/-- A function of a small program is well formed. -/
theorem wellFormed (hsmall : Small p) (ht : Tallied p) :
    (compiled b u.decls f (places before.program.vars f.params.length) st).WellFormed p i := by
  obtain ⟨Γ, D, hpass⟩ := h.passes hsmall
  refine wellFormed_of_allows hsmall ht h.func hpass h.allows rfl (fun id hid => h.exists_get? hid)
    ⟨if f.void then none else some (.const 0), ?_⟩
  show (st.add _).stmts.toList.getLast? = _
  rw [State.add, Array.toList_push, List.getLast?_concat]

end Placed

/-- A unit is compiled function by function. -/
theorem length_funcs {b : Bool} {u : CompUnit} {p : Program} (h : u.generate b = .ok p) :
    p.funcs.length = u.funcs.length := by
  obtain ⟨p₀, h₀, h⟩ := Tac.bind_eq_ok.1 h
  obtain ⟨p', hfuncs, hp⟩ := Tac.bind_eq_ok.1 h
  cases hp
  obtain ⟨fs, hlen, hfs⟩ := (extends_foldlM hfuncs).funcs
  have hnone : p₀.program.funcs = [] := (globals_foldlM h₀).funcs
  rw [hfs, hnone, List.nil_append, hlen]

/-- A generated program defines each label number that was drawn once, and its functions are well
formed. -/
theorem generate_wellFormed {b : Bool} {u : CompUnit} {p : Program} (h : u.generate b = .ok p)
    (hsmall : Small p) :
    p.labels.Nodup ∧ (∀ l, l ∈ p.labels ↔ 0 ≤ l ∧ l < p.counters.labels) ∧
      ∀ (i : Nat) (f : Func), p.funcs[i]? = some f → f.WellFormed p i := by
  have ht := tallied_generate h hsmall
  refine ⟨ht.nodup_labels, ht.mem_labels, fun i g hg => ?_⟩
  have hlen := length_funcs h
  have hi : i < u.funcs.length := hlen ▸ (List.getElem?_eq_some_iff.1 hg).1
  obtain ⟨before, st, hplaced⟩ := generate_inv h (List.getElem?_eq_getElem hi)
  have hfunc := hplaced.wellFormed hsmall ht
  rw [hplaced.func] at hg
  cases hg
  exact hfunc

/-- Two functions; one of them leaves a loop from inside a condition whose operands jump. -/
def loopUnit : CompUnit where
  decls := #[{ name := "x" }, { name := "y" }]
  funcs := [
    { name := "f"
      params := [0]
      body := [.loop (.lval 0 [] {}) (.cond (.binary .or (.lval 0 [] {}) (.call "g" none
        [.binary .and (.lval 0 [] {}) (.num 1)] {})) (.leave {}) (.again {}))] },
    { name := "g"
      void := true
      body := [.declare 1, .eval (.unary .not (.unary .not (.lval 1 [] {})))] }]

/-- Both functions of the unit are well formed. -/
theorem generate_wellFormed_loop : ∃ p f g, loopUnit.generate true = .ok p ∧ Small p ∧
    p.funcs = [f, g] ∧ p.labels.Nodup ∧ f.WellFormed p 0 ∧ g.WellFormed p 1 := by
  have htest : ((loopUnit.generate true).toOption.any fun p =>
      decide (p.vars.size + (p.funcs.map fun f => f.stmts.length).sum ≤ 100) &&
        decide (p.funcs.length = 2)) = true := by decide +kernel
  obtain ⟨p, hp, htest⟩ := exists_ok_of_any htest
  rw [Bool.and_eq_true, decide_eq_true_eq, decide_eq_true_eq] at htest
  have hsmall : Small p := Nat.le_trans htest.1 (by decide)
  obtain ⟨f, g, hfuncs⟩ := List.length_eq_two.1 htest.2
  obtain ⟨hlabels, -, hall⟩ := generate_wellFormed hp hsmall
  exact ⟨p, f, g, hp, hsmall, hfuncs, hlabels, hall 0 f (by rw [hfuncs]; rfl),
    hall 1 g (by rw [hfuncs]; rfl)⟩

end Tree.Generate

end Tac
