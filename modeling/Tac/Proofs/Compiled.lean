import Mathlib
import Tac.Compiler
import Tac.Proofs.Allocation
import Tac.Proofs.Labels
import Tac.Proofs.Peephole

/-!
# From programs to code

A program on its way to the code: functions are optimised, pruned and placed, and then lowered one
after another.  The first steps keep names, labels and callees of a function, but for statements that
are not reached.

* **`Func.Keeps`** — what a function keeps.
* **`toCode_inv`** — what the code of a program is made of.
* **`emits_toCode`, `closed_toCode`, `names_toCode`** — labels, jumps and names in the code.
* **`Func.placeOnce`** — placing a function in a way that the kernel can compute.
-/

namespace Tac

open Tree.Generate

section Pairs

variable {α β : Type} {R : α → β → Prop} {xs : List α} {ys : List β}

/-- What stands on the right has a partner on the left. -/
theorem exists_left_of_forall₂ (h : List.Forall₂ R xs ys) {y : β} (hy : y ∈ ys) :
    ∃ x ∈ xs, R x y := by
  induction h with
  | nil => cases hy
  | cons hxy _ ih =>
    rcases List.mem_cons.1 hy with rfl | hy
    · exact ⟨_, List.mem_cons_self, hxy⟩
    · obtain ⟨x, hx, hr⟩ := ih hy
      exact ⟨x, List.mem_cons_of_mem _ hx, hr⟩

/-- What stands on the left has a partner on the right. -/
theorem exists_right_of_forall₂ (h : List.Forall₂ R xs ys) {x : α} (hx : x ∈ xs) :
    ∃ y ∈ ys, R x y :=
  exists_left_of_forall₂ h.flip hx

end Pairs

/-! ## Optimised and placed functions -/

namespace Peephole

/-- What only the first of two fused statements may carry is kept. -/
theorem filterMap_fuseAll {α : Type} {key : Stmt → Option α}
    (hkey : ∀ {n : Int} {last s fused : Stmt}, Fuses n last s fused →
      key s = none ∧ key fused = key last) (ss : List Stmt) :
    (fuseAll ss).1.filterMap key = ss.filterMap key := by
  refine fuseAll_keeps (P := fun ss' => ss'.filterMap key = ss.filterMap key)
    (fun hfuses hsame => ?_) rfl
  obtain ⟨hs, hfused⟩ := hkey hfuses
  rw [← hsame]
  simp only [List.filterMap_append, List.filterMap_cons, hs, hfused]

/-- A fused statement names no label that was not named before. -/
theorem Fuses.label {n : Int} {last s fused : Stmt} (h : Fuses n last s fused) :
    s.label? = none ∧ fused.label? = last.label? := by
  have hlabel : ∀ {s : Stmt}, (∀ l, s ≠ .label l) → s.label? = none := fun h =>
    Option.eq_none_iff_forall_ne_some.2 fun l hl => h l ((Flow.label?_eq_some_iff _ _).1 hl)
  rw [hlabel fun l => (h.not_label l).1, hlabel fun l => (h.not_label l).2.1,
    hlabel fun l => (h.not_label l).2.2]
  exact ⟨rfl, rfl⟩

/-- Another destination does not change who is called. -/
theorem callee?_withDst {s s' : Stmt} {d : Val} (h : s.withDst? d = some s') :
    s'.callee? = s.callee? := by
  cases s with
  | binary | unary | move | load =>
    cases h
    rfl
  | call r g args =>
    cases r <;> cases h
    rfl
  | store | branch | jump | label | ret | zeroFill => cases h

/-- A fused statement calls whom the last one called. -/
theorem Fuses.callee {n : Int} {last s fused : Stmt} (h : Fuses n last s fused) :
    s.callee? = none ∧ fused.callee? = last.callee? := by
  cases h with
  | move _ _ hfused => exact ⟨rfl, callee?_withDst hfused⟩
  | jump | jumpNot => exact ⟨rfl, rfl⟩

/-- Fusing never makes a list longer. -/
theorem length_fuseAll_le (ss : List Stmt) : (fuseAll ss).1.length ≤ ss.length := by
  refine fuseAll_keeps (P := fun ss' => ss'.length ≤ ss.length) (fun _ hle => ?_) (Nat.le_refl _)
  simp only [List.length_append, List.length_cons] at hle ⊢
  omega

end Peephole

/-- Pruning only leaves statements out. -/
theorem Func.prune_sublist (vars : VarTable) (f : Func) (r : BitSet) :
    (f.prune vars r).func.stmts.Sublist f.stmts := by
  have h : f.stmts = f.stmts.zipIdx.map Prod.fst := by simp
  rw [Func.prune, List.partition_eq_filter_filter]
  conv_rhs => rw [h]
  exact List.filter_sublist.map _

/-- A placed function has some of the statements of the one that was to be placed. -/
theorem Func.allocate_sublist {vars : VarTable} {regs : List Reg} {f : Func} {q : Placement}
    (h : (f.allocate vars regs).outcome = .ok q) :
    q.func.stmts.Sublist f.stmts ∧ q.func.builtin = f.builtin := by
  obtain ⟨rounds, a, c, hsettle, hlast, -, -, -, rfl⟩ := Func.allocate_parts h
  obtain ⟨b, hlast', -, -, hkept⟩ := Func.settle_induction
    (P := fun g => g.stmts.Sublist f.stmts ∧ g.builtin = f.builtin)
    (fun a _ h => ⟨(Func.prune_sublist vars a.func a.reachable).trans h.1, h.2⟩) ⟨List.Sublist.refl _, rfl⟩ hsettle
  obtain rfl : a = b := Option.some.inj (hlast.symm.trans hlast')
  exact hkept

/-- A function that can be analysed defines the labels that it jumps to. -/
theorem Flow.Describes.labels_of_targets {f : Func} {fl : Flow} (d : Describes f fl) {s : Stmt}
    (hs : s ∈ f.stmts) {l : Int} (hl : s.target? = some l) : l ∈ labelsOf f.stmts := by
  obtain ⟨i, hi⟩ := List.mem_iff_getElem?.1 hs
  -- Only jumps and branches have a target, and connecting has looked it up.
  have hlabel : ∃ j, fl.labels[l]? = some j := by
    cases s with
    | jump t =>
      cases hl
      obtain ⟨j, hj, -⟩ := d.label_of_jump hi
      exact ⟨j, hj⟩
    | branch x rel y t =>
      cases hl
      obtain ⟨j, hj, -⟩ := d.label_of_branch hi
      exact ⟨j, hj⟩
    | _ => cases hl
  obtain ⟨j, hj⟩ := hlabel
  exact List.mem_filterMap.2 ⟨_, List.mem_of_getElem? (d.stmt_of_label hj), rfl⟩

/-! ## What a function keeps -/

/-- The callees of statements. -/
def calleesOf (ss : List Stmt) : List String := ss.filterMap Stmt.callee?

/-- What a function keeps on its way to the code: its name and, but for statements that are not
reached, its labels and callees. -/
structure Func.Keeps (f g : Func) : Prop where
  name : g.name = f.name
  builtin : g.builtin = f.builtin
  labels : (labelsOf g.stmts).Sublist (labelsOf f.stmts)
  callees : (calleesOf g.stmts).Sublist (calleesOf f.stmts)
  length : g.stmts.length ≤ f.stmts.length

theorem Func.Keeps.refl (f : Func) : Func.Keeps f f :=
  ⟨rfl, rfl, List.Sublist.refl _, List.Sublist.refl _, Nat.le_refl _⟩

theorem Func.Keeps.trans {f g h : Func} (hg : Func.Keeps f g) (hh : Func.Keeps g h) :
    Func.Keeps f h :=
  ⟨hh.name.trans hg.name, hh.builtin.trans hg.builtin, hh.labels.trans hg.labels,
    hh.callees.trans hg.callees, hh.length.trans hg.length⟩

/-- The peephole pass keeps what lowering relies on. -/
theorem Func.keeps_optimize (f : Func) : Func.Keeps f (Peephole.optimize f).1 where
  name := rfl
  builtin := rfl
  labels := by
    show (labelsOf (Peephole.fuseAll f.stmts).1).Sublist _
    rw [labelsOf, Peephole.filterMap_fuseAll Peephole.Fuses.label]
    exact List.Sublist.refl _
  callees := by
    show (calleesOf (Peephole.fuseAll f.stmts).1).Sublist _
    rw [calleesOf, Peephole.filterMap_fuseAll Peephole.Fuses.callee]
    exact List.Sublist.refl _
  length := Peephole.length_fuseAll_le f.stmts

/-- Allocation keeps what lowering relies on. -/
theorem Func.keeps_of_allocate {vars : VarTable} {regs : List Reg} {f : Func} {q : Placement}
    (h : (f.allocate vars regs).outcome = .ok q) : Func.Keeps f q.func := by
  obtain ⟨hsub, hbuiltin⟩ := Func.allocate_sublist h
  obtain ⟨a, c, hq⟩ := Func.allocated_of_ok h
  exact ⟨hq.name_eq, hbuiltin, hsub.filterMap _, hsub.filterMap _, hsub.length_le⟩

/-- A placed function jumps to its own labels. -/
theorem Func.targets_of_allocate {vars : VarTable} {regs : List Reg} {f : Func} {q : Placement}
    (h : (f.allocate vars regs).outcome = .ok q) :
    ∀ s ∈ q.func.stmts, ∀ l, s.target? = some l → l ∈ labelsOf q.func.stmts := by
  obtain ⟨a, c, hq⟩ := Func.allocated_of_ok h
  obtain ⟨-, d, -⟩ := Func.analyze_spec hq.analyzed
  exact fun s hs l hl => d.labels_of_targets hs hl

namespace Program

variable {o : Options} {p : Program} {code : Code}

/-- All functions were placed, one by one. -/
theorem forall₂_of_placeFuncs {vars : VarTable} {regs : List Reg} {fs : List Func}
    {ps : List Placement} (h : placeFuncs vars regs fs = .ok ps) :
    List.Forall₂ (fun f q => (f.allocate vars regs).outcome = .ok q) fs ps := by
  induction fs generalizing ps with
  | nil =>
    cases h
    exact .nil
  | cons f fs ih =>
    -- The first function that cannot be placed ends the list.
    unfold placeFuncs at h
    split at h
    · cases h
    · next q hq =>
      split at h
      · cases h
      · next hqs =>
        cases h
        exact .cons hq (ih hqs)

theorem prepare_vars (o : Options) (p : Program) : (p.prepare o).vars = p.vars := by
  unfold prepare
  split <;> rfl

theorem prepare_counters (o : Options) (p : Program) : (p.prepare o).counters = p.counters := by
  unfold prepare
  split <;> rfl

/-- Optimisation goes from function to function. -/
theorem prepare_funcs (o : Options) (p : Program) : (p.prepare o).funcs =
    p.funcs.map fun f => if o.peephole then (Peephole.optimize f).1 else f := by
  unfold prepare
  split
  · simp [optimize]
  · simp

/-- What the code of a program is made of. -/
theorem toCode_inv (h : p.toCode o = .ok code) : ∃ ps gs sets fs,
    List.Forall₂ (fun f q => (f.allocate p.vars o.regs).outcome = .ok q) (p.prepare o).funcs ps ∧
      Lowering.funcs p.vars sets p.counters ps = .ok fs ∧
      code.globals = gs.map (fun z => Lowering.globalVar (p.prepare o) z.1 z.2) ∧
      code.funcs = (Lowering.entry (p.prepare o) gs).install
        (fs.zip (ps.map fun q => q.func.name == "main")) := by
  unfold toCode at h
  simp only at h
  split at h
  · cases h
  · next ps hps =>
    have hplace := forall₂_of_placeFuncs hps
    rw [prepare_vars] at hplace
    -- Behind the placing come the two stages with errors of their own: what calls destroy, and
    -- the lowering.
    unfold lowerPlaced at h
    split at h
    · cases h
    · next r hr =>
      split at h
      · cases h
      · next code' hcode =>
        cases h
        unfold Lowering.program at hcode
        split at hcode
        · cases hcode
        · next gs hgs =>
          obtain ⟨fs, hfs, hcode⟩ := bind_eq_ok.1 hcode
          rw [prepare_vars, prepare_counters] at hfs
          simp only at hcode
          split at hcode
          · cases hcode
          · cases hcode
            exact ⟨ps, gs, r.sets, fs, hplace, hfs, rfl, rfl⟩

/-- Every placed function comes from a function of the program. -/
theorem keeps_of_placed {ps : List Placement}
    (h : List.Forall₂ (fun f q => (f.allocate p.vars o.regs).outcome = .ok q) (p.prepare o).funcs ps) :
    List.Forall₂ (fun f q => Func.Keeps f q.func) p.funcs ps := by
  rw [prepare_funcs, List.forall₂_map_left_iff] at h
  refine h.imp fun f q hq => ?_
  have := Func.keeps_of_allocate hq
  split at this
  · exact (Func.keeps_optimize f).trans this
  · exact this

section Keeps

variable {fs : List Func} {ps : List Placement}
  (h : List.Forall₂ (fun f q => Func.Keeps f q.func) fs ps)

include h

/-- The functions that were placed have the names they had. -/
theorem names_of_keeps : ps.map (fun q => q.func.name) = fs.map Func.name := by
  induction h with
  | nil => rfl
  | cons hk _ ih => rw [List.map_cons, List.map_cons, ih, hk.name]

/-- No function that was placed has a label it did not have. -/
theorem ownLabels_of_keeps :
    (ps.flatMap fun q => q.func.ownLabels).Sublist (fs.flatMap fun f => labelsOf f.stmts) := by
  induction h with
  | nil => exact List.Sublist.refl _
  | cons hk _ ih =>
    rw [List.flatMap_cons, List.flatMap_cons]
    exact ((Func.ownLabels_sublist _).trans hk.labels).append ih

/-- The functions that were placed have no more statements than before. -/
theorem lengths_of_keeps : (ps.map fun q => q.func.stmts.length + 3).sum ≤
    (fs.map fun f => f.stmts.length + 3).sum := by
  induction h with
  | nil => exact Nat.le_refl _
  | cons hk _ ih =>
    have := hk.length
    simp only [List.map_cons, List.sum_cons]
    omega

end Keeps

/-- A program has at most one function `main`. -/
def OneMain (p : Program) : Prop := (p.funcs.filter fun f => f.name == "main").length ≤ 1

/-- At most so many labels are drawn while a program is lowered. -/
def labelLimit (p : Program) : Nat := (p.funcs.map fun f => f.stmts.length + 3).sum

/-- A program with one `main` has the code of its functions, with the entry code before `main`. -/
theorem funcs_of_toCode (h : p.toCode o = .ok code) (hmain : p.OneMain) : ∃ ps sets fs e mains,
    List.Forall₂ (fun f q => (f.allocate p.vars o.regs).outcome = .ok q) (p.prepare o).funcs ps ∧
      Lowering.funcs p.vars sets p.counters ps = .ok fs ∧ Plain e.code ∧
      mains.length = fs.length ∧ code.funcs = (fs.zip mains).map (Lowering.withEntry e) := by
  obtain ⟨ps, gs, sets, fs, hplace, hfs, -, hcode⟩ := toCode_inv h
  have hlen : (ps.map fun q => q.func.name == "main").length = fs.length := by
    rw [List.length_map, (Lowering.forall₂_of_funcs hfs).length_eq]
  refine ⟨ps, sets, fs, _, _, hplace, hfs, Lowering.plain_entry (p.prepare o) gs, hlen, ?_⟩
  rw [hcode]
  -- the flags are those of the functions of the program
  have hnames : ps.map (fun q => q.func.name == "main") = p.funcs.map fun f => f.name == "main" := by
    have := congrArg (List.map (· == "main")) (names_of_keeps (keeps_of_placed hplace))
    rwa [List.map_map, List.map_map] at this
  refine Lowering.install_of_single ?_
  have hsnd : ((fs.zip (ps.map fun q => q.func.name == "main")).filter Prod.snd).length =
      ((ps.map fun q => q.func.name == "main").filter id).length := by
    have hzip : (fs.zip (ps.map fun q => q.func.name == "main")).map Prod.snd =
        ps.map fun q => q.func.name == "main" := List.map_snd_zip (Nat.le_of_eq hlen)
    conv_rhs => rw [← hzip, List.filter_map, List.length_map]
    rfl
  rw [hsnd, hnames, List.filter_map, List.length_map]
  exact hmain

/-- The labels in the code of a program are labels of its statements, and drawn ones. -/
theorem emits_toCode (h : p.toCode o = .ok code) (hmain : p.OneMain) : ∃ own c',
    own.Sublist p.labels ∧
      Emits own p.labelLimit p.counters c' (code.funcs.flatMap CodeFunc.body) := by
  obtain ⟨ps, sets, fs, e, mains, hplace, hfs, hplain, hlen, hcode⟩ := funcs_of_toCode h hmain
  obtain ⟨c', hemits⟩ := Lowering.emits_funcs hfs
  have hkeeps := keeps_of_placed hplace
  obtain ⟨n, hle, hlabel, hlabels⟩ := hemits.mono (lengths_of_keeps hkeeps)
  refine ⟨_, c', ownLabels_of_keeps hkeeps, n, hle, hlabel, ?_⟩
  -- the entry code has no labels
  have heq : labelsIn (code.funcs.flatMap CodeFunc.body) = labelsIn (fs.flatMap CodeFunc.body) := by
    have hfst : (fs.zip mains).map Prod.fst = fs := List.map_fst_zip (Nat.le_of_eq hlen.symm)
    rw [hcode]
    conv_rhs => rw [← hfst]
    simp only [labelsIn, List.filterMap_flatMap, List.flatMap_map]
    exact List.flatMap_congr fun z _ => Lowering.labelsIn_withEntry hplain z
  rw [heq]
  exact hlabels

/-- Where the code of a function comes from. -/
theorem exists_of_mem_code (h : p.toCode o = .ok code) (hmain : p.OneMain) {f : CodeFunc}
    (hf : f ∈ code.funcs) : ∃ g ∈ p.funcs, ∃ q sets c c' e main f', Func.Keeps g q.func ∧
      (∀ s ∈ q.func.stmts, ∀ l, s.target? = some l → l ∈ labelsOf q.func.stmts) ∧
      Lowering.funcOrBuiltin { vars := p.vars, sets, placed := q } c = .ok (f', c') ∧ Plain e.code ∧
      f = Lowering.withEntry e (f', main) := by
  obtain ⟨ps, sets, fs, e, mains, hplace, hfs, hplain, -, hcode⟩ := funcs_of_toCode h hmain
  rw [hcode] at hf
  obtain ⟨⟨f', main⟩, hz, rfl⟩ := List.mem_map.1 hf
  -- From the code back to its placement, and from there to its function.
  obtain ⟨q, hq, c, c', hlower⟩ :=
    exists_right_of_forall₂ (Lowering.forall₂_of_funcs hfs) (List.of_mem_zip hz).1
  obtain ⟨g, hg, hkeeps⟩ := exists_left_of_forall₂ (keeps_of_placed hplace) hq
  obtain ⟨g', -, halloc⟩ := exists_left_of_forall₂ hplace hq
  exact ⟨g, hg, q, sets, c, c', e, main, f', hkeeps, Func.targets_of_allocate halloc, hlower, hplain,
    rfl⟩

/-- The code of a function jumps to labels that it defines. -/
theorem closed_toCode (h : p.toCode o = .ok code) (hmain : p.OneMain) {f : CodeFunc}
    (hf : f ∈ code.funcs) : Closed f.body := by
  obtain ⟨g, -, q, sets, c, c', e, main, f', -, htargets, hlower, hplain, rfl⟩ :=
    exists_of_mem_code h hmain hf
  have hclosed := Lowering.closed_funcOrBuiltin hlower htargets
  unfold Lowering.withEntry
  split
  · exact hclosed.after hplain
  · exact hclosed

/-- The names in the code of a program are names of its functions and callees. -/
theorem names_toCode (h : p.toCode o = .ok code) (hmain : p.OneMain) {f : CodeFunc}
    (hf : f ∈ code.funcs) :
    ((∃ g ∈ p.funcs, f.name = g.name) ∨ f.name = "memmove" ∨ f.name = "multiply") ∧
      ∀ x ∈ f.body, ∀ n, x.name? = some n → ∃ g ∈ p.funcs, n ∈ calleesOf g.stmts := by
  obtain ⟨g, hg, q, sets, c, c', e, main, f', hkeeps, -, hlower, hplain, rfl⟩ :=
    exists_of_mem_code h hmain hf
  constructor
  -- Neither lowering nor the initial values rename a function.
  · rw [Lowering.withEntry_name]
    refine (Lowering.codeName_funcOrBuiltin hlower).imp_left fun hname => ⟨g, hg, ?_⟩
    rw [hname, hkeeps.name]
  · have hbody : ∀ x ∈ f'.body, ∀ n, x.name? = some n → ∃ g ∈ p.funcs, n ∈ calleesOf g.stmts := by
      intro x hx n hn
      obtain ⟨s, hs, hcallee⟩ := Lowering.name_funcOrBuiltin hlower hx hn
      exact ⟨g, hg, hkeeps.callees.subset (List.mem_filterMap.2 ⟨s, hs, hcallee⟩)⟩
    -- The code in front of `main` is plain, so it calls nobody.
    unfold Lowering.withEntry
    split
    · intro x hx n hn
      rcases List.mem_append.1 hx with hx | hx
      · rw [hplain.name hx] at hn
        cases hn
      · exact hbody x hx n hn
    · exact hbody

end Program

/-! ## Evaluation -/

/-- The placement of a function that can be analysed and of which nothing is pruned, computed in a way
that the kernel can follow. -/
def Func.placeOnce (vars : VarTable) (regs : List Reg) (f : Func) : Except AllocError Placement :=
  match Flow.connect f with
  | .error e => .error (.flow e)
  | .ok flow =>
    let facts := Liveness.facts vars f flow
    let live := (Liveness.solveList facts (Liveness.enough facts) (Liveness.start f.stmts.length)).sets
    let graph := Graph.build live flow.reachable
    if f.stmts.all (Stmt.isNumbered vars) ∧ (f.prune vars flow.reachable).removed = [] ∧
        (f.locals.all fun id => (vars.get? id).isSome) = true then
      (Coloring.run vars f graph (Affinity.ofFunc vars f) regs).place
        { func := f, flow, live, reachable := flow.reachable, graph }
    else .error .malformed

/-- Placing once is what allocation does in the end. -/
theorem Func.allocate_of_placeOnce {vars : VarTable} {regs : List Reg} {f : Func} {q : Placement}
    (h : f.placeOnce vars regs = .ok q) : (f.allocate vars regs).outcome = .ok q := by
  unfold Func.placeOnce at h
  split at h
  · cases h
  · next flow hflow =>
    simp only [← Liveness.analyze_eq_solveList] at h
    split at h
    · next hcond =>
      have ha : f.analyze vars = .ok
          { func := f, flow, live := Liveness.analyze vars f flow, reachable := flow.reachable
            graph := Graph.build (Liveness.analyze vars f flow) flow.reachable } := by
        rw [Func.analyze, hflow]
        exact if_pos hcond.1
      -- Nothing was spilled, so the first round is the last.
      rw [Func.allocate, Func.settle_of_clean ha hcond.2.1]
      simp only [List.getLast?_singleton, if_pos hcond.2.2]
      exact h
    · cases h

/-- Placing once each is what allocation does with all the functions. -/
theorem Program.placeFuncs_of_placeOnce {vars : VarTable} {regs : List Reg} {fs : List Func}
    {ps : List Placement} (h : fs.mapM (Func.placeOnce vars regs) = .ok ps) :
    placeFuncs vars regs fs = .ok ps := by
  induction fs generalizing ps with
  | nil =>
    cases h
    rfl
  | cons f fs ih =>
    rw [List.mapM_cons] at h
    obtain ⟨q, hq, h⟩ := bind_eq_ok.1 h
    obtain ⟨qs, hqs, h⟩ := bind_eq_ok.1 h
    cases h
    rw [placeFuncs, Func.allocate_of_placeOnce hq]
    simp only [ih hqs]

end Tac
