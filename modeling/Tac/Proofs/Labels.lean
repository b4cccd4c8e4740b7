import Mathlib
import Tac.Proofs.Places
import Tac.Proofs.WellFormed

/-!
# Labels of code

Labels in the code of a program come from its label statements, from the loops that zero arrays, and
from hand-written code.  The last two are drawn from one counter that runs through all functions, so
whether a label stands twice in the code depends on the label statements alone.

* **`Emits`** — code defines given labels and the next ones of the counter: for statements
  (`emits_stmts`), for hand-written functions (`emits_lower`) and for all functions (`emits_funcs`).
* **`Closed`** — code jumps to labels that it defines (`closed_stmts`, `closed_lower`).
* **`install_of_single`** — the entry code stands before a single `main` and changes nothing else.
-/

namespace Tac

open Tree.Generate

/-- The label that an instruction may jump to. -/
def Instr.target? : Instr → Option Int
  | .jump l | .branch _ _ _ l => some l
  | _ => none

/-- The name or remark that an instruction carries. -/
def Instr.name? : Instr → Option String
  | .call f => some f
  | .comment t => some t
  | _ => none

theorem Instr.name?_of_isPlain {x : Instr} (h : x.isPlain = true) : x.name? = none := by
  cases x <;> first | rfl | cases h

/-- The labels that code defines. -/
def labelsIn (code : List Instr) : List Int := code.filterMap Instr.label?

@[simp] theorem labelsIn_nil : labelsIn [] = [] := rfl

@[simp] theorem labelsIn_append (xs ys : List Instr) :
    labelsIn (xs ++ ys) = labelsIn xs ++ labelsIn ys := List.filterMap_append

theorem labelsIn_singleton (x : Instr) : labelsIn [x] = x.label?.toList := by
  cases h : x.label? <;> simp [labelsIn, h]

/-- A label is defined in code if its instruction stands there. -/
theorem mem_labelsIn {code : List Instr} {l : Int} : l ∈ labelsIn code ↔ .label l ∈ code := by
  rw [labelsIn, List.mem_filterMap]
  constructor
  · rintro ⟨x, hx, hl⟩
    cases x <;> cases hl
    exact hx
  · intro h
    exact ⟨_, h, rfl⟩

/-- Code jumps to labels that it defines. -/
def Closed (code : List Instr) : Prop := ∀ x ∈ code, ∀ l, x.target? = some l → l ∈ labelsIn code

section Plain

variable {code : List Instr}

theorem Plain.labelsIn (h : Plain code) : labelsIn code = [] :=
  List.filterMap_eq_nil_iff.2 h.unlabelled

/-- Plain code does not jump. -/
theorem Plain.target (h : Plain code) {x : Instr} (hx : x ∈ code) : x.target? = none := by
  have := h x hx
  cases x <;> first | rfl | cases this

theorem Plain.name (h : Plain code) {x : Instr} (hx : x ∈ code) : x.name? = none :=
  Instr.name?_of_isPlain (h x hx)

/-- Code that does not jump does not jump elsewhere. -/
theorem Plain.closed (h : Plain code) : Closed code := fun x hx l hl => by
  rw [h.target hx] at hl
  cases hl

/-- Plain code in front changes nothing. -/
theorem Closed.after {pre : List Instr} (h : Closed code) (hpre : Plain pre) :
    Closed (pre ++ code) := by
  intro x hx l hl
  rw [labelsIn_append]
  rcases List.mem_append.1 hx with hx | hx
  · rw [hpre.target hx] at hl
    cases hl
  · exact List.mem_append_right _ (h x hx l hl)

end Plain

/-- Code defines the labels `own` and the next labels of the counter, at most `limit` of them, each as
often as it stands there. -/
inductive Emits (own : List Int) (limit : Nat) (c c' : Counters) (code : List Instr) : Prop where
  | intro (n : Nat) (le : n ≤ limit) (label : c'.labels = nth c.labels n)
      (labels : (labelsIn code).Perm (own ++ drawn c.labels n))

namespace Emits

variable {own own' : List Int} {limit limit' : Nat} {c c₁ c₂ : Counters} {code code' : List Instr}

theorem nil (c : Counters) : Emits [] 0 c c [] := ⟨0, Nat.le_refl _, rfl, List.Perm.refl _⟩

/-- Code behind code, with the labels of both. -/
theorem append (h : Emits own limit c c₁ code) (h' : Emits own' limit' c₁ c₂ code') :
    Emits (own ++ own') (limit + limit') c c₂ (code ++ code') := by
  obtain ⟨n, hle, hlabel, hlabels⟩ := h
  obtain ⟨n', hle', hlabel', hlabels'⟩ := h'
  refine ⟨n + n', by omega, by rw [hlabel', hlabel, nth_add], ?_⟩
  rw [labelsIn_append, drawn_add, ← hlabel]
  refine (hlabels.append hlabels').trans ?_
  -- the labels drawn first move behind those that stand in the second part
  rw [List.append_assoc, List.append_assoc]
  refine List.Perm.append_left _ ?_
  rw [← List.append_assoc, ← List.append_assoc]
  exact List.perm_append_comm.append_right _

theorem mono (h : Emits own limit c c₁ code) (hle : limit ≤ limit') : Emits own limit' c c₁ code := by
  obtain ⟨n, hn, hlabel, hlabels⟩ := h
  exact ⟨n, hn.trans hle, hlabel, hlabels⟩

/-- Labels that are different stay so, when the counter is above them and starts inside 64 bits. -/
theorem nodup (h : Emits own limit c c₁ code) (hown : own.Nodup)
    (hbelow : ∀ l ∈ own, 0 ≤ l ∧ l < c.labels) (hc : wrap64 c.labels = c.labels)
    (hlimit : limit ≤ 9223372036854775808) : (labelsIn code).Nodup := by
  obtain ⟨n, hle, -, hlabels⟩ := h
  rw [hlabels.nodup_iff, List.nodup_append]
  refine ⟨hown, nodup_drawn hc (by omega), fun l hl l' hl' heq => ?_⟩
  subst heq
  obtain ⟨i, hi, hil⟩ := List.mem_map.1 hl'
  rw [List.mem_range] at hi
  -- a drawn number is not below the counter, or it is negative
  obtain ⟨h0, hlt⟩ := hbelow l hl
  rw [nth_eq hc] at hil
  rw [wrap64, Int.bmod_def] at hc hil
  split at hil <;> split at hc <;> omega

end Emits

namespace Lowering

variable {cx : Context} {fresh : Int} {st : Stmt} {code : List Instr} {c c' : Counters}

/-! ## Statements -/

theorem labelsIn_zeroLoop (loop slot span : Int) : labelsIn (zeroLoop loop slot span) = [loop] := by
  rw [zeroLoop_eq, labelsIn_append, (plain_loopHead slot span).labelsIn]
  rfl

/-- The code of a statement defines the label of the statement, and one that is drawn if
it has a loop. -/
theorem Form.labelsIn (h : Form cx fresh st code) :
    labelsIn code = st.label?.toList ++ if drawsLabel cx st then [fresh] else [] := by
  cases h with
  | plain h hl hd => simp [h.labelsIn, hl, hd]
  | label l => rfl
  | jump l => rfl
  | branch h =>
    rw [labelsIn_append, h.labelsIn]
    rfl
  | call h h' =>
    rw [labelsIn_append, h.labelsIn]
    exact h'.labelsIn
  | loop hl hd slot span => simp [labelsIn_zeroLoop, hl, hd]

/-- The code of a statement jumps where the statement jumps, or to the label of its loop. -/
theorem Form.target (h : Form cx fresh st code) {x : Instr} (hx : x ∈ code) {l : Int}
    (hl : x.target? = some l) : st.target? = some l ∨ l ∈ Tac.labelsIn code := by
  have hnone : ∀ {ys : List Instr}, Plain ys → x ∉ ys := fun hys hmem => by
    rw [hys.target hmem] at hl
    cases hl
  cases h with
  | plain h => exact (hnone h hx).elim
  | label =>
    rw [List.mem_singleton.1 hx] at hl
    cases hl
  | jump =>
    rw [List.mem_singleton.1 hx] at hl
    exact Or.inl hl
  | branch h =>
    rcases List.mem_append.1 hx with hx | hx
    · exact (hnone h hx).elim
    · rw [List.mem_singleton.1 hx] at hl
      exact Or.inl hl
  | call h h' =>
    rcases List.mem_append.1 hx with hx | hx
    · exact (hnone h hx).elim
    · rcases List.mem_cons.1 hx with rfl | hx
      · cases hl
      · exact (hnone h' hx).elim
  | loop _ _ slot span =>
    -- the turn of the loop jumps to its label
    rw [labelsIn_zeroLoop]
    rw [zeroLoop_eq] at hx
    rcases List.mem_append.1 hx with hx | hx
    · exact (hnone (plain_loopHead slot span) hx).elim
    · simp only [loopTurn, List.mem_cons, List.not_mem_nil, or_false] at hx
      rcases hx with rfl | rfl | rfl | rfl <;> cases hl
      exact Or.inr (List.mem_singleton_self _)

/-- The only names in the code of a statement are those of callees. -/
theorem Made.name {i : Nat} {x : Instr} (h : Made cx i st x) {f : String} (hf : x.name? = some f) :
    st.callee? = some f := by
  cases h with
  | straight h =>
    rw [Instr.name?_of_isPlain h.isPlain] at hf
    cases hf
  | call => exact hf
  | branch | jump | label | loopLabel | loopEnd => cases hf

/-- The code of a statement takes one label of the counter exactly when it draws it. -/
theorem Form.emits (h : Form cx c.labels st code) :
    Emits (labelsOf [st]) 1 c (advance cx c st) code := by
  have hlabels := h.labelsIn
  rw [advance]
  -- Only a long zero fill draws a label of its own.
  cases hd : drawsLabel cx st with
  | false =>
    rw [hd] at hlabels
    refine ⟨0, by omega, rfl, ?_⟩
    rw [hlabels]
    cases hl : st.label? <;> simp [labelsOf, hl, drawn]
  | true =>
    rw [hd] at hlabels
    refine ⟨1, by omega, rfl, ?_⟩
    rw [hlabels]
    cases hl : st.label? <;> simp [labelsOf, hl, drawn, nth]

/-! ## Functions -/

/-- The code of statements defines their labels and those of their loops. -/
theorem emits_stmts {ss : List Stmt} {i : Nat} {body : List Instr}
    (h : stmts cx c i ss = .ok (body, c')) : Emits (labelsOf ss) ss.length c c' body := by
  -- On the statements, from any counter; each of them may draw one label.
  induction ss generalizing c i body with
  | nil =>
    cases h
    exact .nil _
  | cons s ss ih =>
    obtain ⟨code, rest, hcode, hrest, rfl⟩ := stmts_cons h
    have := (form_of_stmt hcode).emits.append (ih hrest)
    rw [← labelsOf_append, Nat.add_comm] at this
    exact this

/-- An instruction stands in the code of a statement. -/
theorem exists_form_of_mem {ss : List Stmt} {i : Nat} {body : List Instr}
    (h : stmts cx c i ss = .ok (body, c')) {x : Instr} (hx : x ∈ body) :
    ∃ s ∈ ss, ∃ fresh code, Form cx fresh s code ∧ code ⊆ body ∧ x ∈ code := by
  induction ss generalizing c i body with
  | nil =>
    cases h
    cases hx
  | cons s ss ih =>
    obtain ⟨code, rest, hcode, hrest, rfl⟩ := stmts_cons h
    rcases List.mem_append.1 hx with hx | hx
    · exact ⟨s, List.mem_cons_self, _, code, form_of_stmt hcode, List.subset_append_left _ _, hx⟩
    · obtain ⟨t, ht, fresh, code', hform, hsub, hx'⟩ := ih hrest hx
      exact ⟨t, List.mem_cons_of_mem _ ht, fresh, code', hform,
        fun _ hy => List.mem_append_right _ (hsub hy), hx'⟩

theorem labelsIn_subset {code body : List Instr} (h : code ⊆ body) : labelsIn code ⊆ labelsIn body :=
  fun _ hl => mem_labelsIn.2 (h (mem_labelsIn.1 hl))

/-- Statements that jump inside their function have code that does. -/
theorem closed_stmts {ss : List Stmt} {i : Nat} {body : List Instr}
    (h : stmts cx c i ss = .ok (body, c'))
    (hss : ∀ s ∈ ss, ∀ l, s.target? = some l → l ∈ labelsOf ss) : Closed body := by
  intro x hx l hl
  obtain ⟨s, hs, fresh, code, hform, hsub, hx'⟩ := exists_form_of_mem h hx
  rcases hform.target hx' hl with htarget | hmem
  · obtain ⟨n, -, -, hlabels⟩ := emits_stmts h
    exact hlabels.mem_iff.2 (List.mem_append_left _ (hss s hs l htarget))
  · exact labelsIn_subset hsub hmem

end Lowering

/-! ## Hand-written functions -/

namespace Builtin

/-- Hand-written code draws the next labels of the counter. -/
theorem drawLabels_eq (n : Nat) (c : Counters) :
    (drawLabels n c).1 = drawn c.labels n ∧ (drawLabels n c).2.labels = nth c.labels n := by
  -- On the number of labels; the first one is the counter itself.
  induction n generalizing c with
  | zero => exact ⟨rfl, rfl⟩
  | succ n ih =>
    obtain ⟨h1, h2⟩ := ih c.nextLabel
    have hfirst : (drawLabels (n + 1) c).1 = c.labels :: (drawLabels n c.nextLabel).1 := rfl
    rw [hfirst, h1, Nat.add_comm, drawn_add, nth_add]
    exact ⟨rfl, (congrArg (fun k => (drawLabels k c).2.labels) (Nat.add_comm 1 n)).trans h2⟩

/-- Labels that are drawn are different, wherever the counter stands. -/
theorem nodup_drawLabels {n : Nat} (hn : n ≤ 18446744073709551616) (c : Counters) :
    (drawLabels n c).1.Nodup := by
  rw [(drawLabels_eq n c).1]
  exact nodup_drawn_from c.labels hn

/-- There are two hand-written functions. -/
theorem mem_catalog_of_find? {name : String} {b : Builtin} (h : find? name = some b) :
    b = memmove ∨ b = multiply := by
  have := List.mem_of_find?_eq_some h
  simpa [catalog] using this

/-- Hand-written code defines each of its labels once. -/
theorem emits_lower {name : String} {b : Builtin} (h : find? name = some b) (c : Counters) :
    Emits [] 3 c (b.lower c).2 (b.lower c).1.body := by
  obtain ⟨h1, h2⟩ := drawLabels_eq b.labels c
  have hbody : (b.lower c).1.body = b.code (drawn c.labels b.labels) := by
    rw [← h1]
    rfl
  refine ⟨b.labels, ?_, h2, ?_⟩
  · rcases mem_catalog_of_find? h with rfl | rfl <;> decide
  · rw [hbody, List.nil_append]
    rcases mem_catalog_of_find? h with rfl | rfl
    · exact List.Perm.refl _
    · exact List.Perm.refl _

theorem closed_memmoveCode (loop zero : Int) : Closed (memmoveCode loop zero) := by
  simp [Closed, memmoveCode, mem_labelsIn, Instr.target?]

theorem closed_multiplyCode (loop skip done : Int) : Closed (multiplyCode loop skip done) := by
  simp [Closed, multiplyCode, mem_labelsIn, Instr.target?]

/-- Hand-written code jumps inside itself, whatever labels it was given. -/
theorem closed_lower {name : String} {b : Builtin} (h : find? name = some b) (c : Counters) :
    Closed (b.lower c).1.body := by
  rcases mem_catalog_of_find? h with rfl | rfl
  · exact closed_memmoveCode _ _
  · exact closed_multiplyCode _ _ _

/-- Hand-written code calls nothing. -/
theorem name_lower {name : String} {b : Builtin} (h : find? name = some b) (c : Counters) {x : Instr}
    (hx : x ∈ (b.lower c).1.body) : x.name? = none := by
  have hmemmove : ∀ loop zero, ∀ x ∈ memmoveCode loop zero, x.name? = none := by
    simp [memmoveCode, Instr.name?]
  have hmultiply : ∀ loop skip done, ∀ x ∈ multiplyCode loop skip done, x.name? = none := by
    simp [multiplyCode, Instr.name?]
  rcases mem_catalog_of_find? h with rfl | rfl
  · exact hmemmove _ _ x hx
  · exact hmultiply _ _ _ x hx

end Builtin

/-! ## Programs -/

/-- The labels that a function's statements bring into the code; hand-written code takes their
place. -/
def Func.ownLabels (f : Func) : List Int := if f.builtin.isNone then labelsOf f.stmts else []

/-- A function brings no labels but those of its statements. -/
theorem Func.ownLabels_sublist (f : Func) : f.ownLabels.Sublist (labelsOf f.stmts) := by
  unfold Func.ownLabels
  split
  · exact List.Sublist.refl _
  · exact List.nil_sublist _

namespace Lowering

variable {cx : Context} {c c' : Counters} {f : CodeFunc} {vars : VarTable} {sets : ClobberSets}
  {ps : List Placement} {fs : List CodeFunc}

/-- The code of a function, compiled or hand-written, takes labels of the counter and
brings those of its statements. -/
theorem emits_funcOrBuiltin (h : funcOrBuiltin cx c = .ok (f, c')) :
    Emits cx.placed.func.ownLabels (cx.placed.func.stmts.length + 3) c c' f.body := by
  unfold Func.ownLabels
  rcases funcOrBuiltin_cases h with ⟨name, b, hname, hfind, hlower⟩ | ⟨hnone, hfunc⟩
  · rw [hname]
    cases hlower
    exact (Builtin.emits_lower hfind c).mono (by omega)
  · rw [hnone]
    exact (emits_stmts (func_parts hfunc).1).mono (by omega)

/-- The code of a function stays inside the function, if its statements do. -/
theorem closed_funcOrBuiltin (h : funcOrBuiltin cx c = .ok (f, c'))
    (hss : ∀ s ∈ cx.placed.func.stmts, ∀ l, s.target? = some l →
      l ∈ labelsOf cx.placed.func.stmts) : Closed f.body := by
  rcases funcOrBuiltin_cases h with ⟨name, b, -, hfind, hlower⟩ | ⟨-, hfunc⟩
  · cases hlower
    exact Builtin.closed_lower hfind c
  · exact closed_stmts (func_parts hfunc).1 hss

/-- The names in the code of a function are those of its callees. -/
theorem name_funcOrBuiltin (h : funcOrBuiltin cx c = .ok (f, c')) {x : Instr} (hx : x ∈ f.body)
    {g : String} (hg : x.name? = some g) : ∃ s ∈ cx.placed.func.stmts, s.callee? = some g := by
  rcases funcOrBuiltin_cases h with ⟨name, b, -, hfind, hlower⟩ | ⟨-, hfunc⟩
  · cases hlower
    rw [Builtin.name_lower hfind c hx] at hg
    cases hg
  · obtain ⟨k, s, hs, hmade⟩ := exists_made_of_mem (func_parts hfunc).1 hx
    exact ⟨s, List.mem_of_getElem? hs, hmade.name hg⟩

/-- Code has the name of its function, or the one of the hand-written code. -/
theorem codeName_funcOrBuiltin (h : funcOrBuiltin cx c = .ok (f, c')) :
    f.name = cx.placed.func.name ∨ f.name = "memmove" ∨ f.name = "multiply" := by
  rcases funcOrBuiltin_cases h with ⟨name, b, -, hfind, hlower⟩ | ⟨-, hfunc⟩
  · cases hlower
    rcases Builtin.mem_catalog_of_find? hfind with rfl | rfl
    · exact Or.inr (Or.inl rfl)
    · exact Or.inr (Or.inr rfl)
  · exact Or.inl (func_parts hfunc).2.1

/-- The code of all functions takes labels of one counter, which none of them gives back. -/
theorem emits_funcs (h : funcs vars sets c ps = .ok fs) :
    ∃ c', Emits (ps.flatMap fun p => p.func.ownLabels) (ps.map fun p => p.func.stmts.length + 3).sum
      c c' (fs.flatMap CodeFunc.body) := by
  -- On the functions; each of them starts where the counter was left.
  induction ps generalizing c fs with
  | nil =>
    cases h
    exact ⟨c, .nil c⟩
  | cons p ps ih =>
    obtain ⟨f, c₁, rest, hf, hrest, rfl⟩ := funcs_cons h
    obtain ⟨c', hc'⟩ := ih hrest
    refine ⟨c', ?_⟩
    rw [List.flatMap_cons, List.flatMap_cons, List.map_cons, List.sum_cons]
    exact (emits_funcOrBuiltin hf).append hc'

/-- Each function has code of its own. -/
theorem forall₂_of_funcs (h : funcs vars sets c ps = .ok fs) :
    List.Forall₂ (fun f p => ∃ c c', funcOrBuiltin { vars, sets, placed := p } c = .ok (f, c')) fs ps := by
  induction ps generalizing c fs with
  | nil =>
    cases h
    exact .nil
  | cons p ps ih =>
    obtain ⟨f, c₁, rest, hf, hrest, rfl⟩ := funcs_cons h
    exact .cons ⟨c, c₁, hf⟩ (ih hrest)

/-! ## Entry code -/

theorem plain_entry (p : Program) (gs : List (VarId × Var)) : Plain (entry p gs).code :=
  fun _ hx => (offFrame_of_mem_entry hx).isPlain

/-- The code of a function with the entry code in front, if it is `main`. -/
def withEntry (e : Entry) (z : CodeFunc × Bool) : CodeFunc :=
  if z.2 then { z.1 with body := e.code ++ z.1.body } else z.1

/-- A single `main` does not share storage with another one. -/
theorem install_of_single {e : Entry} {zs : List (CodeFunc × Bool)}
    (h : (zs.filter Prod.snd).length ≤ 1) : e.install zs = zs.map (withEntry e) := by
  unfold Entry.install
  refine List.map_congr_left fun ⟨f, main⟩ hz => ?_
  cases main with
  | false => rfl
  | true =>
    have hmem : (f, true) ∈ zs.filter Prod.snd := List.mem_filter.2 ⟨hz, rfl⟩
    -- The only `main` is the one at hand, so nothing of another body is left behind it.
    have hone : zs.filter Prod.snd = [(f, true)] := by
      match hzs : zs.filter Prod.snd, hmem, h with
      | [z], hmem, _ => rw [List.mem_singleton.1 hmem]
      | _ :: _ :: _, _, h => simp at h
    simp only [hone, List.map_singleton, Entry.join_tail_singleton, withEntry, if_true]

theorem withEntry_name (e : Entry) (z : CodeFunc × Bool) : (withEntry e z).name = z.1.name := by
  unfold withEntry
  split <;> rfl

/-- The entry code leaves the labels of a function alone. -/
theorem labelsIn_withEntry {e : Entry} (he : Plain e.code) (z : CodeFunc × Bool) :
    labelsIn (withEntry e z).body = labelsIn z.1.body := by
  unfold withEntry
  split
  · rw [labelsIn_append, he.labelsIn, List.nil_append]
  · rfl

end Lowering

end Tac
