import Mathlib
import Tac.Proofs.Alike
import Tac.Proofs.RoundTrip

/-!
# Programs that stand as their text has them

When the variables stand in the table in the order in which text declares them, and the labels that occur
are all that were drawn, reading a program from its text moves nothing: only names and the shapes of
arrays are lost, which compiling does not read.

* **`Program.InOrder`** — the programs that stand so.
* **`Program.alike_relaid`** — such a program and the relaid one are compiled alike.
* **`Program.InOrder.prepare`**, **`Program.Printable.prepare`** — optimisation keeps the order, and what
  makes a program printable.
* **`Program.prepare_prepare`** — optimised programs are not optimised further.
-/

namespace Tac

open Relaid InText

/-! ## Positions -/

namespace Relaid

/-- The positions of two blocks that follow one another. -/
theorem positions_add (base m n : Nat) :
    positions base (m + n) = positions base m ++ positions (base + m) n := by
  simp only [positions, List.range_add, List.map_append, List.map_map]
  congr 1
  refine List.map_congr_left fun k _ => ?_
  rw [Function.comp_apply, Nat.add_assoc]

/-- Where positions are listed in order, the number in the list is the position. -/
theorem idxOf_positions {base n : Nat} {id : VarId} (h : id ∈ positions base n) :
    ((base + (positions base n).idxOf id : Nat) : VarId) = id := by
  have hlt : (positions base n).idxOf id < n := by
    have := List.idxOf_lt_length_iff.2 h
    rwa [length_positions] at this
  have hget := List.getElem?_idxOf h
  rw [getElem?_positions hlt] at hget
  exact Option.some.inj hget

/-- An operand that stays where it is. -/
theorem rename_eq_self {ρ : VarId → VarId} {s : Stmt}
    (h : ∀ v ∈ s.operands, v.rename ρ = v) : s.rename ρ = s := by
  -- Calls and returns have lists of operands or none; the others have a fixed number.
  cases s with
  | call r g args =>
    have hargs : args.map (Val.rename ρ) = args :=
      (List.map_congr_left fun a ha => h a (by simp [Stmt.operands, Stmt.sources, ha])).trans
        (List.map_id _)
    cases r with
    | none => simp only [Stmt.rename, hargs, Option.map_none]
    | some d =>
      simp only [Stmt.rename, hargs, Option.map_some, h d (by simp [Stmt.operands, Stmt.dst?])]
  | ret v =>
    cases v with
    | none => rfl
    | some x => simp only [Stmt.rename, Option.map_some, h x (List.mem_cons_self ..)]
  | _ =>
    simp only [Stmt.operands, Stmt.dst?, Stmt.sources, Option.toList_some, Option.toList_none,
      List.mem_append, List.mem_cons, List.not_mem_nil, or_false, false_or, forall_eq_or_imp,
      forall_eq, false_imp_iff, implies_true] at h
    simp only [Stmt.rename, h]

section Func

variable {vars : VarTable} {globals : List VarId} {base : Nat} {f : Func}

/-- What a function sees stays where it is. -/
theorem place_eq_self (hglobals : globals = positions 0 globals.length)
    (hparams : f.params = positions base f.params.length)
    (hlocals : f.locals = positions (base + f.params.length) f.locals.length) {id : VarId}
    (h : id ∈ globals ∨ id ∈ f.params ∨ id ∈ f.locals) : place globals base f id = id := by
  unfold place
  -- The blocks are looked up in the order parameters, locals, globals.
  split
  · next hparam =>
    rw [hparams] at hparam ⊢
    exact idxOf_positions hparam
  · next hparam =>
    split
    · next hlocal =>
      rw [hlocals] at hlocal ⊢
      exact idxOf_positions hlocal
    · next hlocal =>
      have hglobal := h.resolve_right (not_or.2 ⟨hparam, hlocal⟩)
      rw [hglobals] at hglobal ⊢
      have hself := idxOf_positions hglobal
      rwa [Nat.zero_add] at hself

/-- A function whose variables are in order is read back as it is. -/
theorem func_eq_self (hglobals : globals = positions 0 globals.length)
    (hparams : f.params = positions base f.params.length)
    (hlocals : f.locals = positions (base + f.params.length) f.locals.length)
    (hf : Function vars globals f) : func globals base f = f := by
  have hstmts : f.stmts.map (Stmt.rename (place globals base f)) = f.stmts := by
    refine (List.map_congr_left fun s hs => rename_eq_self fun v hv => ?_).trans (List.map_id _)
    have hoperand := operand_of_statement (hf.stmts s hs) v hv
    cases v with
    | const | temp => rfl
    | var id => exact congrArg Val.var (place_eq_self hglobals hparams hlocals hoperand)
  rw [func, ← hparams, ← hlocals, hstmts]

end Func

/-- The variables of a function in the order in which text declares them. -/
def own (f : Func) : List VarId := f.params ++ f.locals

/-- Functions whose variables stand in order stay as they are. -/
theorem funcs_eq_self {vars : VarTable} {globals : List VarId}
    (hglobals : globals = positions 0 globals.length) (fs : List Func)
    (hfs : ∀ f ∈ fs, Function vars globals f) {base : Nat}
    (h : fs.flatMap own = positions base (fs.flatMap own).length) :
    funcs globals base fs = fs := by
  induction fs generalizing base with
  | nil => rfl
  | cons f fs ih =>
    obtain ⟨hf, hfs⟩ := List.forall_mem_cons.1 hfs
    rw [List.flatMap_cons, own, List.append_assoc, List.length_append, List.length_append, positions_add,
      positions_add] at h
    -- Positions are given out in the order in which they stand.
    obtain ⟨hparams, h⟩ := List.append_inj h (length_positions _ _).symm
    obtain ⟨hlocals, hrest⟩ := List.append_inj h (length_positions _ _).symm
    rw [funcs, func_eq_self hglobals hparams hlocals hf, ih hfs hrest]

end Relaid

/-! ## Programs in order -/

/-- The variables of a program in the order in which text declares them. -/
def Program.declared (p : Program) : List VarId := p.globals ++ p.funcs.flatMap own

/-- The program stands as its text has it: the table has the variables in the order of declaration and
of the classes that text gives them, and the next label follows the labels that occur. -/
structure Program.InOrder (p : Program) : Prop where
  order : p.declared = positions 0 p.vars.size
  globals : ∀ id ∈ p.globals, (p.vars.at id).cls = .global
  locals : ∀ f ∈ p.funcs, ∀ id ∈ f.locals, (p.vars.at id).cls = .loc
  sizes : ∀ v ∈ p.vars.toList, v.cls ≠ .arg → v.isArray = true → 0 < v.elems ∧ 4 * v.elems < 2147483648
  labels : above (p.funcs.flatMap fun f => f.stmts.flatMap Stmt.labels) = p.counters.labels

/-- Reading a variable back changes nothing that compilation looks at. -/
theorem Var.alike_reread {v : Var} {cls : VarClass} (hcls : v.cls = cls)
    (hsize : v.isArray = true → 0 < v.elems ∧ 4 * v.elems < 2147483648) : v.Alike (v.reread cls) where
  cls := hcls.symm
  index := rfl
  array _ := v.isArray_reread cls
  elems _ := by
    -- A scalar has one element either way; an array is read back with its size in bytes
    -- divided by four.
    cases harray : v.isArray with
    | false =>
      have hdims : v.dims = none := by
        unfold isArray at harray
        rwa [Option.isSome_eq_false_iff, Option.isNone_iff_eq_none] at harray
      rw [Var.elems, Var.elems, reread, harray, hdims]
      rfl
    | true =>
      obtain ⟨hpos, hlt⟩ := hsize harray
      have hbytes : v.bytes = 4 * v.elems := Int.bmod_eq_of_le (by omega) (by omega)
      have helems : (v.reread cls).elems = wrap64 (1 * v.elems) := by
        rw [Var.elems, reread, if_pos harray, hbytes, Int.mul_ediv_cancel_left _ (by decide)]
        rfl
      rw [helems, Int.one_mul]
      exact Int.bmod_eq_of_le (by omega) (by omega)

theorem VarTable.get?_natCast (vars : VarTable) (k : Nat) : vars.get? (k : VarId) = vars[k]? := by
  rw [VarTable.get?, if_pos (Int.natCast_nonneg k), Int.toNat_natCast]

/-- The table in the order of its positions. -/
theorem VarTable.map_at_positions (vars : VarTable) :
    (positions 0 vars.size).map vars.at = vars.toList := by
  refine List.ext_getElem? fun k => ?_
  have htable : vars.toList[k]? = vars[k]? := Array.getElem?_toList
  rw [List.getElem?_map, htable]
  by_cases hk : k < vars.size
  · rw [getElem?_positions hk, Nat.zero_add, Option.map_some, VarTable.at, get?_natCast,
      Array.getElem?_eq_getElem hk, Option.getD_some]
  · rw [List.getElem?_eq_none (by rw [length_positions]; omega), Array.getElem?_eq_none (by omega)]
    rfl

/-- Tables are alike when the lists of their variables are. -/
theorem VarTable.alike_of_forall₂ {vars vars' : VarTable}
    (h : List.Forall₂ Var.Alike vars.toList vars'.toList) : vars.Alike vars' := by
  intro id
  obtain ⟨hlen, hget⟩ := List.forall₂_iff_get.1 h
  unfold VarTable.get?
  split
  · rw [← Array.getElem?_toList, ← Array.getElem?_toList]
    by_cases hk : id.toNat < vars.toList.length
    · rw [List.getElem?_eq_getElem hk, List.getElem?_eq_getElem (hlen ▸ hk)]
      exact .some (hget _ hk (hlen ▸ hk))
    · rw [List.getElem?_eq_none (by omega), List.getElem?_eq_none (by omega)]
      exact .none
  · exact .none

namespace Program

variable {p : Program}

/-- In order: first the globals and then the variables of the functions. -/
theorem InOrder.split (ho : p.InOrder) : p.globals = positions 0 p.globals.length ∧
    p.funcs.flatMap own = positions p.globals.length (p.funcs.flatMap own).length := by
  have horder := ho.order
  have hsize : p.vars.size = p.globals.length + (p.funcs.flatMap own).length := by
    rw [← List.length_append, ← length_positions 0 p.vars.size, ← horder, declared]
  rw [hsize, positions_add, Nat.zero_add] at horder
  exact List.append_inj horder (length_positions _ _).symm

variable (hp : p.Printable) (ho : p.InOrder)

include hp ho

/-- Reading back leaves the functions of an ordered program as they are. -/
theorem relaid_funcs : p.relaid.funcs = p.funcs :=
  funcs_eq_self ho.split.1 p.funcs hp.funcs ho.split.2

/-- Reading back leaves the initial values as they are. -/
theorem relaid_inits : p.relaid.inits = p.inits := by
  refine (List.map_congr_left fun i hi => ?_).trans (List.map_id _)
  have hmem := (hp.inits i hi).1
  have hvar : ((p.globals.idxOf i.var : Nat) : VarId) = i.var := by
    rw [ho.split.1] at hmem ⊢
    have hself := idxOf_positions hmem
    rwa [Nat.zero_add] at hself
  rw [Relaid.init, hvar]
  rfl

omit hp in
/-- A declared array has a size that can be read. -/
theorem size_of_declared {id : VarId} (hid : id ∈ p.declared) (hcls : (p.vars.at id).cls ≠ .arg)
    (harray : (p.vars.at id).isArray = true) :
    0 < (p.vars.at id).elems ∧ 4 * (p.vars.at id).elems < 2147483648 := by
  refine ho.sizes _ ?_ hcls harray
  rw [← VarTable.map_at_positions, ← ho.order]
  exact List.mem_map_of_mem hid

/-- The variables of a function and those that its text declares. -/
theorem alike_block {f : Func} (hf : f ∈ p.funcs) :
    List.Forall₂ Var.Alike ((own f).map p.vars.at) (block p.vars f) := by
  rw [own, List.map_append, block]
  refine List.rel_append ?_ ?_
  -- First the parameters, which are numbered by position, then the locals.
  · refine List.forall₂_iff_get.2 ⟨by simp, fun k hk _ => ?_⟩
    rw [List.length_map] at hk
    obtain ⟨v, hv, hcls, hindex⟩ := (hp.funcs f hf).params k _ (List.getElem?_eq_getElem hk)
    simp only [List.get_eq_getElem, List.getElem_map, List.getElem_range, VarTable.at_eq hv]
    exact ⟨hcls.symm, hindex.symm, fun h => absurd hcls h, fun h => absurd hcls h⟩
  · rw [List.forall₂_map_left_iff, List.forall₂_map_right_iff, List.forall₂_same]
    intro id hid
    have hcls := ho.locals f hf id hid
    have hmem : id ∈ p.declared := List.mem_append_right _
      (List.mem_flatMap.2 ⟨f, hf, List.mem_append_right _ hid⟩)
    exact Var.alike_reread hcls (size_of_declared ho hmem (by rw [hcls]; decide))

/-- The two tables look alike to compilation. -/
theorem relaid_vars : p.vars.Alike p.relaid.vars := by
  refine VarTable.alike_of_forall₂ ?_
  rw [← VarTable.map_at_positions, ← ho.order, declared, List.map_append]
  refine List.rel_append ?_ ?_
  · rw [heads, List.forall₂_map_left_iff, List.forall₂_map_right_iff, List.forall₂_same]
    intro id hid
    have hcls := ho.globals id hid
    exact Var.alike_reread hcls (size_of_declared ho (List.mem_append_left _ hid) (by rw [hcls]; decide))
  · rw [List.map_flatMap, List.flatMap_def, List.flatMap_def]
    refine List.rel_flatten ?_
    rw [List.forall₂_map_left_iff, List.forall₂_map_right_iff, List.forall₂_same]
    exact fun f hf => alike_block hp ho hf

/-- The program and what is read from its text are compiled alike. -/
theorem alike_relaid : p.Alike p.relaid where
  vars := relaid_vars hp ho
  globals := ho.split.1.symm
  inits := relaid_inits hp ho
  funcs := relaid_funcs hp ho
  labels := ho.labels
  no_params id hid v hv := by
    rw [← VarTable.at_eq hv, ho.globals id hid]
    decide
  no_params_locals f hf id hid v hv := by
    rw [← VarTable.at_eq hv, ho.locals f hf id hid]
    decide

end Program

/-! ## Optimised functions -/

/-- The value that a statement returns. -/
def Stmt.result? : Stmt → Option Val
  | ret v => v
  | _ => none

theorem Stmt.result?_eq_some {s : Stmt} {v : Val} : s.result? = some v ↔ s = .ret (some v) := by
  cases s <;> simp [result?]

namespace Peephole

/-- What two statements have and their fusion has too, all statements still have. -/
theorem forall_fuseAll {P : Stmt → Prop} (hP : ∀ {n last s fused}, Fuses n last s fused →
    P last → P s → P fused) {ss : List Stmt} (h : ∀ s ∈ ss, P s) : ∀ s ∈ (fuseAll ss).1, P s := by
  refine fuseAll_keeps (P := fun ss => ∀ s ∈ ss, P s) (fun hfuses hall => ?_) h
  simp only [List.forall_mem_append, List.forall_mem_cons] at hall ⊢
  exact ⟨hall.1, hP hfuses hall.2.1 hall.2.2.1, hall.2.2.2⟩

/-- A fused statement has the labels of both. -/
theorem Fuses.labels {n : Int} {last s fused : Stmt} (h : Fuses n last s fused) :
    fused.labels = last.labels ++ s.labels := by
  -- A move is fused into what computes its operand, a comparison into the branch on it.
  cases h with
  | move hc _ hfused =>
    cases last with
    | call r g args =>
      cases r with
      | none => cases hc
      | some d =>
        cases hfused
        rfl
    | binary | unary | move =>
      cases hfused
      rfl
    | store | load | branch | jump | label | ret | zeroFill => cases hc
  | jump | jumpNot => rfl

/-- Every label is mentioned where it was. -/
theorem labels_fuseAll (ss : List Stmt) :
    (fuseAll ss).1.flatMap Stmt.labels = ss.flatMap Stmt.labels := by
  refine fuseAll_keeps (P := fun ss' => ss'.flatMap Stmt.labels = ss.flatMap Stmt.labels)
    (fun hfuses hsame => ?_) rfl
  rw [← hsame]
  simp only [List.flatMap_append, List.flatMap_cons, hfuses.labels, List.append_assoc]

/-- Fusing neither makes nor loses a result. -/
theorem Fuses.result {n : Int} {last s fused : Stmt} (h : Fuses n last s fused) :
    s.result? = none ∧ fused.result? = last.result? := by
  -- Neither what computes an operand nor a branch is a return.
  cases h with
  | move hc _ hfused =>
    cases last with
    | call r g args =>
      cases r with
      | none => cases hc
      | some d =>
        cases hfused
        exact ⟨rfl, rfl⟩
    | binary | unary | move =>
      cases hfused
      exact ⟨rfl, rfl⟩
    | store | load | branch | jump | label | ret | zeroFill => cases hc
  | jump | jumpNot => exact ⟨rfl, rfl⟩

/-- The same values are returned. -/
theorem mem_ret_fuseAll {ss : List Stmt} {v : Val} :
    .ret (some v) ∈ (fuseAll ss).1 ↔ .ret (some v) ∈ ss := by
  have hmem : ∀ ss : List Stmt, .ret (some v) ∈ ss ↔ v ∈ ss.filterMap Stmt.result? := fun ss => by
    simp only [List.mem_filterMap, Stmt.result?_eq_some, exists_eq_right]
  rw [hmem, hmem, filterMap_fuseAll Fuses.result]

/-- The temporaries of a statement are mentioned. -/
theorem contains_mentioned {ss : List Stmt} {s : Stmt} (hs : s ∈ ss) {n : Int}
    (hn : .temp n ∈ s.sources ∨ s.dst? = some (.temp n)) : (mentioned ss).contains n = true := by
  have hmem : n ∈ ss.flatMap fun s => tempsRead s ++ s.dst?.toList.filterMap Val.temp? := by
    refine List.mem_flatMap.2 ⟨s, hs, List.mem_append.2 (hn.imp (fun h => ?_) fun h => ?_)⟩
    · exact List.mem_filterMap.2 ⟨_, h, rfl⟩
    · rw [h]
      exact List.mem_singleton.2 rfl
  have hget : (mentioned ss)[n]? = _ := getElem?_foldl_insert (fun t : Int => t) (fun _ => ()) _ {} n
  rw [Std.TreeMap.contains_eq_isSome_getElem?, hget, Option.isSome_or, Option.isSome_map, Bool.or_eq_true]
  exact Or.inl (List.find?_isSome.2 ⟨n, List.mem_reverse.2 hmem, beq_self_eq_true n⟩)

/-- What is left is not fused further. -/
theorem fuseAll_fuseAll (ss : List Stmt) : (fuseAll (fuseAll ss).1).1 = (fuseAll ss).1 := by
  have hdone := sweep_fuseAll ss
  conv_lhs => rw [fuseAll]
  rw [if_pos hdone]
  exact sweep_eq_self hdone

theorem optimize_optimize (f : Func) : (optimize (optimize f).1).1 = (optimize f).1 := by
  simp only [optimize, fuseAll_fuseAll, List.filter_filter, Bool.and_self]

end Peephole

namespace InText

section Statement

variable {vars : VarTable} {globals : List VarId} {f : Func}

/-- A statement can be told from its text as long as the temporaries that it mentions are declared. -/
theorem statement_of_temps {g : Func} {s : Stmt} (hparams : g.params = f.params)
    (hlocals : g.locals = f.locals)
    (htemps : ∀ n ∈ f.temps, .temp n ∈ s.sources ∨ s.dst? = some (.temp n) → n ∈ g.temps)
    (h : Statement vars globals f s) : Statement vars globals g s := by
  have hplace : ∀ v, v ∈ s.sources ∨ s.dst? = some v → Place globals f v → Place globals g v := by
    intro v hmem hv
    cases v with
    | const => exact hv
    | temp n => exact htemps n hv hmem
    | var id =>
      simp only [Place, hparams, hlocals] at hv ⊢
      exact hv
  have hoperand : ∀ v, v ∈ s.sources → Operand globals f v → Operand globals g v := by
    intro v hmem hv
    cases v with
    | const => exact hv
    | temp n => exact hplace _ (Or.inl hmem) hv
    | var id => exact hplace _ (Or.inl hmem) hv
  -- Each operand of each statement, with the side it stands on.
  cases s with
  | binary d l op r =>
    exact ⟨hplace d (Or.inr rfl) h.1, hoperand l (by simp [Stmt.sources]) h.2.1,
      hoperand r (by simp [Stmt.sources]) h.2.2.1, h.2.2.2⟩
  | unary d op x =>
    exact ⟨hplace d (Or.inr rfl) h.1, hoperand x (by simp [Stmt.sources]) h.2.1, h.2.2⟩
  | move d x => exact ⟨hplace d (Or.inr rfl) h.1, hoperand x (by simp [Stmt.sources]) h.2⟩
  | store b off x =>
    exact ⟨hplace b (Or.inl (by simp [Stmt.sources])) h.1, h.2.1,
      hoperand x (by simp [Stmt.sources]) h.2.2⟩
  | load d b off =>
    exact ⟨hplace d (Or.inr rfl) h.1, hoperand b (by simp [Stmt.sources]) h.2.1, h.2.2⟩
  | branch l rel r t =>
    exact ⟨hoperand l (by simp [Stmt.sources]) h.1, hoperand r (by simp [Stmt.sources]) h.2.1, h.2.2⟩
  | jump | label => exact h
  | call r g args =>
    exact ⟨fun d hd => hplace d (Or.inr hd) (h.1 d hd), h.2.1, fun a ha => hoperand a ha (h.2.2 a ha)⟩
  | ret v => exact fun x hx => hoperand x (by simp [Stmt.sources, hx]) (h x hx)
  | zeroFill a =>
    obtain ⟨id, hid, ha, harray⟩ := h
    exact ⟨id, hlocals ▸ hid, ha, harray⟩

/-- Statements that can be told from their text are fused to one that can. -/
theorem statement_of_fuses {n : Int} {last s fused : Stmt} (h : Peephole.Fuses n last s fused)
    (hlast : Statement vars globals f last) (hs : Statement vars globals f s) :
    Statement vars globals f fused := by
  cases h with
  | @move _ _ d hc _ hfused =>
    have hd : Place globals f d := hs.1
    -- Only what computes a value is fused with; its destination is replaced.
    cases last with
    | binary | unary | move =>
      cases hfused
      exact ⟨hd, hlast.2⟩
    | call r g args =>
      cases r with
      | none => cases hc
      | some e =>
        cases hfused
        refine ⟨fun x hx => ?_, hlast.2⟩
        cases hx
        exact hd
    | store | load | branch | jump | label | ret | zeroFill => cases hc
  | jump a b c l | jumpNot a b c l => exact ⟨hlast.2.1, hlast.2.2.1, hs.2.2⟩

/-- What optimisation leaves of a function can be told from its text too. -/
theorem function_optimize (h : Function vars globals f) :
    Function vars globals (Peephole.optimize f).1 where
  name := h.name
  builtin := h.builtin
  few := h.few
  params := h.params
  locals := h.locals
  distinct := h.distinct
  temps t ht := h.temps t (List.mem_of_mem_filter ht)
  temps_nodup := h.temps_nodup.filter _
  -- Fusing may leave temporaries that nothing mentions; they are no longer declared.
  stmts s hs := by
    have hkept : Statement vars globals f s :=
      Peephole.forall_fuseAll (P := Statement vars globals f) statement_of_fuses h.stmts s hs
    refine statement_of_temps (f := f) rfl rfl (fun n hn hmem => ?_) hkept
    exact List.mem_filter.2 ⟨hn, Peephole.contains_mentioned hs hmem⟩
  void_iff := h.void_iff.trans (forall_congr' fun v => not_congr Peephole.mem_ret_fuseAll.symm)

end Statement

end InText

namespace Program

variable {p : Program}

/-- Whatever optimisation leaves of a program can be told from its text. -/
theorem Printable.prepare (hp : p.Printable) (o : Options) : (p.prepare o).Printable := by
  unfold Program.prepare
  split
  · refine ⟨hp.globals, hp.distinct, hp.inits, fun f hf => ?_⟩
    simp only [Program.optimize, List.map_map, List.mem_map, Function.comp_apply] at hf
    obtain ⟨g, hg, rfl⟩ := hf
    exact function_optimize (hp.funcs g hg)
  · exact hp

/-- Optimisation moves no variable and loses no label. -/
theorem InOrder.prepare (ho : p.InOrder) (o : Options) : (p.prepare o).InOrder := by
  unfold Program.prepare
  split
  -- Fusing touches statements only, and no label among them.
  · have hfuncs : p.optimize.1.funcs = p.funcs.map fun f => (Peephole.optimize f).1 := by
      simp [Program.optimize]
    refine ⟨?_, ho.globals, ?_, ho.sizes, ?_⟩
    · rw [declared, hfuncs, List.flatMap_map]
      exact ho.order
    · rw [hfuncs]
      exact List.forall_mem_map.2 ho.locals
    · rw [hfuncs, List.flatMap_map]
      refine Eq.trans ?_ ho.labels
      congr 1
      exact List.flatMap_congr fun f _ => Peephole.labels_fuseAll f.stmts
  · exact ho

/-- Optimised programs are not optimised further. -/
theorem prepare_prepare (o : Options) (p : Program) : (p.prepare o).prepare o = p.prepare o := by
  unfold Program.prepare
  split
  · simp only [Program.optimize, List.map_map, Function.comp_def, Peephole.optimize_optimize]
  · rfl

end Program

end Tac
