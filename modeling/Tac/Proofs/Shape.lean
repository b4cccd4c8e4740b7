import Mathlib
import Tac.Proofs.Assignment
import Tac.Proofs.Growth

/-!
# The shape of generated code

Generation writes only some of the forms that statements can have, and its operands are constants,
temporaries that it drew and variables in scope.  Jumps go to labels that the same piece of code
defines or to labels that are given to it.  When temporaries of the operands that a piece is given are
written before it, they are written before each read, and those of its results are written behind it.

* **`Built`** — what a piece of generation does between two states.
* **`Makes`** — steps that do this, for operands and labels that they are given.
* **`compiles_expr`, `makes_node`** — expressions and statements.
-/

namespace Tac.Tree.Generate

open Assignment

/-! ## Statements -/

/-- What a function has besides temporaries and locals: its globals and parameters, and whether it
gives no result. -/
structure Frame where
  names : List VarId
  void : Bool

namespace Frame

/-- Operands of a function so far. -/
def Knows (F : Frame) (st : State) : Val → Prop
  | .const _ => True
  | .temp n => n ∈ st.temps.toList
  | .var id => id ∈ F.names ∨ id ∈ st.locals.toList

/-- The forms of statements that are generated. -/
def Forms (F : Frame) (st : State) : Stmt → Prop
  | .binary d _ op r =>
    d.isConst = false ∧ op.isLogical = false ∧ (op = .div ∨ op = .mod → r ≠ .const 0)
  | .unary d op _ => d.isConst = false ∧ op ≠ .plus
  | .move d _ | .load d _ _ | .store d _ _ => d.isConst = false
  | .call r _ _ => ∀ d, r = some d → d.isConst = false
  | .ret v => F.void = true → v = none
  | .zeroFill a => ∃ id v, a = .var id ∧ id ∈ st.locals.toList ∧ st.vars.get? id = some v ∧
    v.isArray = true
  | .branch .. | .jump _ | .label _ => True

/-- Statements that a function may have. -/
structure Allows (F : Frame) (st : State) (s : Stmt) : Prop where
  operands : ∀ v ∈ s.operands, F.Knows st v
  forms : F.Forms st s

/-- The frame has what a function is compiled under. -/
structure Covers (F : Frame) (env : Env) : Prop where
  globals : ∀ (d : DeclId) (id : VarId), env.globals[d]? = some id → id ∈ F.names
  void : env.func.void = F.void

end Frame

/-- Variables other than parameters are numbered in order; parameters have small numbers. -/
structure Numbered (vars : VarTable) (next : Int) : Prop where
  others : ∃ k, (vars.toList.filter fun v => v.cls != .arg).map Var.index = drawn 0 k ∧
    next = nth 0 k
  params : ∀ v ∈ vars.toList, v.cls = .arg → 0 ≤ v.index ∧ v.index < vars.size

/-- A variable that is no parameter takes the next number of the counter, and the counter
moves on. -/
theorem Numbered.push {vars : VarTable} {next : Int} (h : Numbered vars next) {v : Var}
    (hcls : v.cls ≠ .arg) (hindex : v.index = next) :
    Numbered (vars.push v) (wrap64 (next + 1)) := by
  obtain ⟨k, hothers, hnext⟩ := h.others
  refine ⟨⟨k + 1, ?_, ?_⟩, fun w hw hw' => ?_⟩
  · rw [Array.toList_push, List.filter_append, List.map_append, hothers, drawn_add]
    simp [hcls, hindex, hnext, drawn, nth]
  · rw [nth_add, ← hnext]
    rfl
  -- Parameters that were there are below the old size.
  · rw [Array.toList_push, List.mem_append, List.mem_singleton] at hw
    rw [Array.size_push]
    rcases hw with hw | rfl
    · have hold := h.params w hw hw'
      omega
    · exact absurd hw' hcls

/-- A parameter leaves the counter alone, so that numbers of parameters and of others may
be equal. -/
theorem Numbered.push_param {vars : VarTable} {next : Int} (h : Numbered vars next) {v : Var}
    (hcls : v.cls = .arg) (hindex : 0 ≤ v.index ∧ v.index ≤ vars.size) :
    Numbered (vars.push v) next := by
  refine ⟨?_, fun w hw hw' => ?_⟩
  · rw [Array.toList_push, List.filter_append]
    simpa [hcls] using h.others
  · rw [Array.toList_push, List.mem_append, List.mem_singleton] at hw
    rw [Array.size_push]
    rcases hw with hw | rfl
    · have hold := h.params w hw hw'
      omega
    · omega

/-- The variables of a state are those of its frame and locals in the table. -/
structure Ready (F : Frame) (st : State) : Prop where
  scope : ∀ (d : DeclId) (id : VarId), st.scope[d]? = some id → id ∈ F.names ∨ id ∈ st.locals.toList
  locals : ∀ id ∈ st.locals.toList, ∃ v, st.vars.get? id = some v ∧ v.cls = .loc
  numbered : Numbered st.vars st.counters.vars

/-- Temporaries, locals and variables are only added. -/
structure Later (st st' : State) : Prop where
  temps : st.temps.toList <+: st'.temps.toList
  locals : st.locals.toList <+: st'.locals.toList
  vars : st.vars.toList <+: st'.vars.toList

section Later

variable {F : Frame} {st st₁ st₂ : State}

theorem Later.refl (st : State) : Later st st :=
  ⟨List.prefix_refl _, List.prefix_refl _, List.prefix_refl _⟩

theorem Later.trans (h : Later st st₁) (h' : Later st₁ st₂) : Later st st₂ :=
  ⟨h.temps.trans h'.temps, h.locals.trans h'.locals, h.vars.trans h'.vars⟩

/-- A statement leaves temporaries, locals and variables as they are. -/
theorem Later.add (st : State) (s : Stmt) : Later st (st.add s) :=
  ⟨List.prefix_refl _, List.prefix_refl _, List.prefix_refl _⟩

/-- Drawing a label leaves temporaries, locals and variables as they are. -/
theorem Later.drawLabel (st : State) : Later st st.drawLabel :=
  ⟨List.prefix_refl _, List.prefix_refl _, List.prefix_refl _⟩

/-- A definition adds the temporary that it draws and nothing else. -/
theorem Later.define (st : State) (s : Val → Stmt) : Later st (st.define s) :=
  ⟨⟨[_], Array.toList_push.symm⟩, List.prefix_refl _, List.prefix_refl _⟩

/-- A variable stays where it is when variables are added. -/
theorem get?_of_prefix {vars vars' : VarTable} (h : vars.toList <+: vars'.toList) {id : VarId}
    {v : Var} (hv : vars.get? id = some v) : vars'.get? id = some v := by
  unfold VarTable.get? at hv ⊢
  split at hv
  · next hid =>
    rw [if_pos hid]
    rw [← Array.getElem?_toList] at hv ⊢
    obtain ⟨more, hmore⟩ := h
    rw [← hmore, List.getElem?_append_left (List.getElem?_eq_some_iff.1 hv).1]
    exact hv
  · cases hv

/-- Operands of a function are operands of it later on. -/
theorem Later.knows (h : Later st st₁) {v : Val} (hv : F.Knows st v) : F.Knows st₁ v := by
  cases v with
  | const => trivial
  | temp n => exact h.temps.subset hv
  | var id => exact hv.imp_right fun hid => h.locals.subset hid

/-- Statements that a function may have are allowed in it later on. -/
theorem Later.allows (h : Later st st₁) {s : Stmt} (hs : F.Allows st s) : F.Allows st₁ s := by
  refine ⟨fun v hv => h.knows (hs.operands v hv), ?_⟩
  have hforms := hs.forms
  cases s with
  | zeroFill a =>
    obtain ⟨id, v, ha, hid, hv, harray⟩ := hforms
    exact ⟨id, v, ha, h.locals.subset hid, get?_of_prefix h.vars hv, harray⟩
  | binary | unary | move | store | load | branch | jump | label | call | ret => exact hforms

end Later

/-! ## Flow -/

/-- The labels `ls` can be given temporaries such that statements pass the check, for labels `T` from
elsewhere with at most the temporaries that are written before. -/
def Flows (T : List Int) (D : Set Int) (ls : List Int) (code : List Stmt) (D' : Set Int) : Prop :=
  ∃ κ : List (Int × Set Int), κ.map Prod.fst = ls ∧ ∀ Γ : Int → Set Int,
    (∀ e ∈ κ, Γ e.1 = e.2) → (∀ l ∈ T, Γ l ⊆ D) → Passes Γ D code D'

namespace Flows

variable {T U ls ls' : List Int} {D D₁ D₂ E : Set Int} {code code' : List Stmt} {l l' : Int}

/-- No code writes nothing, and whatever is needed behind it has to be written in front of
it. -/
theorem nil (h : E ⊆ D) : Flows T D [] [] E := ⟨[], rfl, fun _ _ _ => .nil h⟩

/-- A single statement passes when its operands are written before it and its target is
given.  A label needs a choice of temporaries and has its own lemma. -/
theorem one {s : Stmt} (hlabel : s.label? = none) (htarget : ∀ l, s.target? = some l → l ∈ T)
    (hreads : ∀ n, .temp n ∈ s.sources → n ∈ D) (hE : E ⊆ D ∪ tempsOf s.dst?.toList) :
    Flows T D [] [s] E := by
  refine ⟨[], rfl, fun Γ _ hT => .cons ⟨hreads, fun l hl => hT l (htarget l hl), ?_⟩ (.nil ?_)⟩
  · rintro l rfl
    cases hlabel
  · refine hE.trans ?_
    -- Behind a jump or a return every set is good, since control does not come there.
    cases s with
    | label => cases hlabel
    | jump | ret => exact Set.subset_univ _
    | binary | unary | move | store | load | branch | call | zeroFill => exact Set.Subset.rfl

/-- Code behind code: the second piece starts from what is written behind the first one,
and each of them chooses the temporaries of its own labels. -/
theorem append (h : Flows T D ls code D₁) (h' : Flows T D₁ ls' code' D₂) (hD : D ⊆ D₁) :
    Flows T D (ls ++ ls') (code ++ code') D₂ := by
  obtain ⟨κ, hκ, hpass⟩ := h
  obtain ⟨κ', hκ', hpass'⟩ := h'
  refine ⟨κ ++ κ', by rw [List.map_append, hκ, hκ'], fun Γ hΓ hT => ?_⟩
  rw [List.forall_mem_append] at hΓ
  exact (hpass Γ hΓ.1 hT).append (hpass' Γ hΓ.2 fun l hl => (hT l hl).trans hD)

/-- More labels from elsewhere do no harm, and fewer temporaries may be asked for behind
the code. -/
theorem mono (h : Flows T D ls code D₁) (hT : T ⊆ U) (hE : E ⊆ D₁) : Flows U D ls code E := by
  obtain ⟨κ, hκ, hpass⟩ := h
  exact ⟨κ, hκ, fun Γ hΓ hU => (hpass Γ hΓ fun l hl => hU l (hT hl)).mono Set.Subset.rfl hE⟩


/-- A label has what is written where it is drawn. -/
theorem bracket (h : Flows (l :: T) D ls code D₁) (hD : D ⊆ D₁) (hE : E ⊆ D) :
    Flows T D (l :: ls) (code ++ [Stmt.label l]) E := by
  obtain ⟨κ, hκ, hpass⟩ := h
  refine ⟨(l, D) :: κ, by rw [List.map_cons, hκ], fun Γ hΓ hT => ?_⟩
  rw [List.forall_mem_cons] at hΓ
  have hl : Γ l = D := hΓ.1
  refine (hpass Γ hΓ.2 (List.forall_mem_cons.2 ⟨hl.le, hT⟩)).append (.cons ⟨nofun, nofun, ?_⟩ (.nil ?_))
  · rintro _ ⟨⟩
    exact hl.le.trans hD
  · exact hE.trans hl.ge

/-- Two ways that meet again: the second one starts where the first one was left, with what is written
there. -/
theorem fork (h : Flows (l :: T) D ls code D₁) (hD : D ⊆ D₁) (h' : Flows T D ls' code' D₂)
    (hD' : D ⊆ D₂) (hE : E ⊆ D) :
    Flows T D (l :: ls ++ l' :: ls') (code ++ [Stmt.jump l', Stmt.label l] ++ code' ++ [Stmt.label l']) E := by
  obtain ⟨κ, hκ, hpass⟩ := h
  obtain ⟨κ', hκ', hpass'⟩ := h'
  refine ⟨(l, D) :: κ ++ (l', D) :: κ', by simp [hκ, hκ'], fun Γ hΓ hT => ?_⟩
  rw [List.forall_mem_append, List.forall_mem_cons, List.forall_mem_cons] at hΓ
  obtain ⟨⟨hl, hκΓ⟩, hl', hκΓ'⟩ := hΓ
  replace hl : Γ l = D := hl
  replace hl' : Γ l' = D := hl'
  -- Behind the first way nothing is known of the label, which the test reached; the jump makes
  -- its set free.
  have hturn : Passes Γ D₁ [.jump l', .label l] D := by
    refine .cons ⟨nofun, ?_, nofun⟩ (.cons ⟨nofun, nofun, ?_⟩ (.nil hl.ge))
    · rintro _ ⟨⟩
      exact hl'.le.trans hD
    · rintro _ ⟨⟩
      exact Set.subset_univ _
  have hlast : Passes Γ D₂ [.label l'] E := by
    refine .cons ⟨nofun, nofun, ?_⟩ (.nil (hE.trans hl'.ge))
    rintro _ ⟨⟩
    exact hl'.le.trans hD'
  exact (((hpass Γ hκΓ (List.forall_mem_cons.2 ⟨hl.le, hT⟩)).append hturn).append
    (hpass' Γ hκΓ' hT)).append hlast

/-- A loop starts and is left with what is written before it. -/
theorem loop (h : Flows (l :: l' :: T) D ls code D₁) (hD : D ⊆ D₁) (hE : E ⊆ D) :
    Flows T D (l :: l' :: ls) (Stmt.label l :: code ++ [Stmt.jump l, Stmt.label l']) E := by
  obtain ⟨κ, hκ, hpass⟩ := h
  refine ⟨(l, D) :: (l', D) :: κ, by simp [hκ], fun Γ hΓ hT => ?_⟩
  rw [List.forall_mem_cons, List.forall_mem_cons] at hΓ
  obtain ⟨hl, hl', hκΓ⟩ := hΓ
  replace hl : Γ l = D := hl
  replace hl' : Γ l' = D := hl'
  -- The head is entered with `D` and returned to with more, so `D` is what it promises.
  have hhead : Passes Γ D [.label l] D := by
    refine .cons ⟨nofun, nofun, ?_⟩ (.nil hl.ge)
    rintro _ ⟨⟩
    exact hl.le
  -- The end is reached by a jump out of the test or the body, at which only `D` is sure.
  have hlast : Passes Γ D₁ [.jump l, .label l'] E := by
    refine .cons ⟨nofun, ?_, nofun⟩ (.cons ⟨nofun, nofun, ?_⟩ (.nil (hE.trans hl'.ge)))
    · rintro _ ⟨⟩
      exact hl.le.trans hD
    · rintro _ ⟨⟩
      exact Set.subset_univ _
  exact (hhead.append (hpass Γ hκΓ (List.forall_mem_cons.2 ⟨hl.le,
    List.forall_mem_cons.2 ⟨hl'.le, hT⟩⟩))).append hlast

end Flows

/-! ## Pieces of code -/

/-- Between two states, code of the generated forms was added.  The operands `us` are given; those of
`vs` are results. -/
inductive Built (F : Frame) (T : List Int) (us : List Val) (st st' : State) (vs : List Val) : Prop where
  | intro (code : List Stmt) (k : Nat) (stmts : st'.stmts.toList = st.stmts.toList ++ code)
      (label : st'.counters.labels = nth st.counters.labels k) (count : k = (labelsOf code).length)
      (later : Later st st') (ready : Ready F st') (known : ∀ v ∈ us ++ vs, F.Knows st' v)
      (allows : ∀ s ∈ code, F.Allows st' s)
      (targets : ∀ s ∈ code, ∀ l, s.target? = some l → l ∈ T ∨ l ∈ labelsOf code)
      (flows : ∀ D, tempsOf us ⊆ D →
        Flows T D (drawn st.counters.labels k) code (D ∪ tempsOf vs))

theorem labelsOf_append (ss ts : List Stmt) : labelsOf (ss ++ ts) = labelsOf ss ++ labelsOf ts :=
  List.filterMap_append

theorem labelsOf_one {s : Stmt} (h : s.label? = none) : labelsOf [s] = [] := by simp [labelsOf, h]

namespace Built

variable {F : Frame} {T U : List Int} {us vs ws : List Val} {st st₁ st₂ st₃ : State} {l : Int}

/-- The table and the scope fit each other behind the code. -/
theorem ready (h : Built F T us st st₁ vs) : Ready F st₁ := by
  obtain ⟨code, k, -, -, -, -, hready, -⟩ := h
  exact hready

/-- Operands that are given and results are operands of the function behind the code. -/
theorem known (h : Built F T us st st₁ vs) : ∀ v ∈ us ++ vs, F.Knows st₁ v := by
  obtain ⟨code, k, -, -, -, -, -, hknown, -⟩ := h
  exact hknown

/-- Operands are only added by the code. -/
theorem later (h : Built F T us st st₁ vs) : Later st st₁ := by
  obtain ⟨code, k, -, -, -, hlater, -⟩ := h
  exact hlater

/-- Nothing is built between a state and itself. -/
theorem refl (hst : Ready F st) (hus : ∀ u ∈ us, F.Knows st u) : Built F T us st st [] := by
  refine ⟨[], 0, (List.append_nil _).symm, rfl, rfl, .refl st, hst, ?_, List.forall_mem_nil _,
    List.forall_mem_nil _, fun D _ => .nil ?_⟩
  · rwa [List.append_nil]
  · simp [tempsOf]

/-- A state in which only operands are new. -/
theorem draw (hst : Ready F st₁) (hus : ∀ u ∈ us, F.Knows st₁ u) (hstmts : st₁.stmts = st.stmts)
    (hlabels : st₁.counters.labels = st.counters.labels) (hlater : Later st st₁) :
    Built F T us st st₁ [] := by
  refine ⟨[], 0, by simp [hstmts], hlabels, rfl, hlater, hst, ?_, List.forall_mem_nil _,
    List.forall_mem_nil _, fun D _ => .nil ?_⟩
  · rwa [List.append_nil]
  · simp [tempsOf]

/-- Code behind code that may use the results of the first piece. -/
theorem trans (h : Built F T us st st₁ vs) (h' : Built F T (us ++ vs) st₁ st₂ ws) :
    Built F T us st st₂ (vs ++ ws) := by
  obtain ⟨c, k, hstmts, hlabel, hcount, hlater, -, -, hallows, htargets, hflows⟩ := h
  obtain ⟨c', k', hstmts', hlabel', hcount', hlater', hready', hknown', hallows', htargets',
    hflows'⟩ := h'
  refine ⟨c ++ c', k + k', ?_, ?_, by rw [labelsOf_append, List.length_append, hcount, hcount'],
    hlater.trans hlater', hready', ?_, ?_, ?_, fun D hD => ?_⟩
  · rw [hstmts', hstmts, List.append_assoc]
  · rw [hlabel', hlabel, nth_add]
  · rwa [← List.append_assoc]
  · exact List.forall_mem_append.2 ⟨fun s hs => hlater'.allows (hallows s hs), hallows'⟩
  -- A target is the label of its own piece or from elsewhere, and stays so in both pieces
  -- together.
  · rw [labelsOf_append]
    refine List.forall_mem_append.2 ⟨fun s hs l hl => ?_, fun s hs l hl => ?_⟩
    · exact (htargets s hs l hl).imp_right (List.mem_append_left _)
    · exact (htargets' s hs l hl).imp_right (List.mem_append_right _)
  · rw [drawn_add, tempsOf_append, ← Set.union_assoc]
    -- The second piece starts with the results of the first one written, next to all that was
    -- written before.
    have hboth : tempsOf (us ++ vs) ⊆ D ∪ tempsOf vs := by
      rw [tempsOf_append]
      exact Set.union_subset_union_left _ hD
    exact (hflows D hD).append (hlabel ▸ hflows' _ hboth) Set.subset_union_left

/-- Fewer results, and more labels from elsewhere. -/
theorem weaken (h : Built F T us st st₁ vs) (hT : T ⊆ U)
    (hws : ∀ w ∈ ws, w ∈ us ++ vs ∨ w.isConst = true) : Built F U us st st₁ ws := by
  obtain ⟨c, k, hstmts, hlabel, hcount, hlater, hready, hknown, hallows, htargets, hflows⟩ := h
  refine ⟨c, k, hstmts, hlabel, hcount, hlater, hready, ?_, hallows, ?_,
    fun D hD => (hflows D hD).mono hT ?_⟩
  · refine List.forall_mem_append.2 ⟨fun u hu => hknown u (List.mem_append_left _ hu), fun w hw => ?_⟩
    -- A result is a given operand, a result from before, or a constant, which needs nothing.
    rcases hws w hw with hmem | hconst
    · exact hknown w hmem
    · cases w with
      | const => trivial
      | temp | var => cases hconst
  · exact fun s hs l hl => (htargets s hs l hl).imp_left fun hmem => hT hmem
  · refine Set.union_subset Set.subset_union_left fun n hn => ?_
    rcases hws _ hn with hmem | hconst
    · rcases List.mem_append.1 hmem with hu | hv
      · exact Or.inl (hD hu)
      · exact Or.inr hv
    · cases hconst

/-- Results that nobody needs. -/
theorem forget (h : Built F T us st st₁ vs) : Built F T us st st₁ [] :=
  h.weaken (List.Subset.refl _) nofun

theorem seq (h : Built F T us st st₁ []) (h' : Built F T us st₁ st₂ vs) : Built F T us st st₂ vs :=
  h.trans (by rwa [List.append_nil])

/-- Behind a piece of code, the operands that were given to it are still known. -/
theorem given (h : Built F T us st st₁ vs) : ∀ u ∈ us, F.Knows st₁ u :=
  fun u hu => h.known u (List.mem_append_left _ hu)

/-- A statement of a form that is generated, over operands that are given, without a label. -/
structure Plain (F : Frame) (T : List Int) (us : List Val) (st : State) (s : Stmt) : Prop where
  label : s.label? = none
  target : ∀ l, s.target? = some l → l ∈ T
  operands : ∀ v ∈ s.operands, v ∈ us ∨ v.isConst = true ∨ F.Knows st v
  reads : ∀ n, .temp n ∈ s.sources → .temp n ∈ us
  forms : F.Forms st s

/-- A plain statement is allowed where its given operands are known. -/
theorem Plain.allows {s : Stmt} (h : Plain F T us st s) (hus : ∀ u ∈ us, F.Knows st u) :
    F.Allows st s := by
  refine ⟨fun v hv => ?_, h.forms⟩
  rcases h.operands v hv with hmem | hconst | hknown
  · exact hus v hmem
  · cases v with
    | const => trivial
    | temp | var => cases hconst
  · exact hknown

theorem ready_drawLabel (hst : Ready F st) : Ready F st.drawLabel :=
  ⟨hst.scope, hst.locals, hst.numbered⟩

theorem ready_add (hst : Ready F st) (s : Stmt) : Ready F (st.add s) :=
  ⟨hst.scope, hst.locals, hst.numbered⟩

/-- A plain statement is a piece of code by itself, whose result is its destination. -/
theorem add {s : Stmt} (hst : Ready F st) (hus : ∀ u ∈ us, F.Knows st u)
    (hs : Plain F T us (st.add s) s) : Built F T us st (st.add s) s.dst?.toList := by
  have hus' : ∀ u ∈ us, F.Knows (st.add s) u := fun u hu => (Later.add st s).knows (hus u hu)
  have hallows := hs.allows hus'
  refine ⟨[s], 0, Array.toList_push, rfl, by rw [labelsOf_one hs.label]; rfl, .add st s,
    ready_add hst s, ?_, ?_, ?_, fun D hD => ?_⟩
  · refine List.forall_mem_append.2 ⟨hus', fun d hd => hallows.operands d ?_⟩
    exact mem_operands_of_dst (Option.mem_toList.1 hd)
  · exact List.forall_mem_singleton.2 hallows
  · exact List.forall_mem_singleton.2 fun l hl => Or.inl (hs.target l hl)
  · exact .one hs.label hs.target (fun n hn => hD (hs.reads n hn)) Set.Subset.rfl

/-- A statement that gives a value to a new temporary. -/
theorem define {s : Val → Stmt} (hst : Ready F st) (hus : ∀ u ∈ us, F.Knows st u)
    (hs : ∀ n, n ∈ (st.define s).temps.toList →
      Plain F T us (st.define s) (s (.temp n)) ∧ (s (.temp n)).dst? = some (.temp n)) :
    Built F T us st (st.define s) [.temp st.counters.temps] := by
  let next : State := { st with counters := st.counters.nextTemp
                                temps := st.temps.push st.counters.temps }
  have hlater : Later st next :=
    ⟨⟨[_], Array.toList_push.symm⟩, List.prefix_refl _, List.prefix_refl _⟩
  have hnext : Ready F next := ⟨hst.scope, hst.locals, hst.numbered⟩
  have hus' : ∀ u ∈ us, F.Knows next u := fun u hu => hlater.knows (hus u hu)
  -- The temporary is drawn before the statement is written, so that the statement is plain in
  -- the state that has both.
  obtain ⟨hplain, hdst⟩ := hs st.counters.temps (by simp [State.define])
  have hadd : Built F T us next (st.define s) (s (.temp st.counters.temps)).dst?.toList :=
    add hnext hus' hplain
  rw [hdst] at hadd
  have hdraw : Built F T us st next [] := draw hnext hus' rfl rfl hlater
  exact hdraw.seq hadd

/-- One more statement, over the operands that were given and those that came out. -/
theorem put (h : Built F T us st st₁ vs) {s : Stmt} (hlabel : s.label? = none)
    (htarget : ∀ l, s.target? = some l → l ∈ T) (hops : ∀ v ∈ s.operands, v ∈ us ++ vs)
    (hforms : F.Forms (st₁.add s) s) : Built F T us st (st₁.add s) vs :=
  (h.trans (add h.ready h.known ⟨hlabel, htarget, fun v hv => Or.inl (hops v hv),
    fun _ hn => hops _ (mem_operands_of_source hn), hforms⟩)).weaken (List.Subset.refl _)
      fun _ hw => Or.inl (List.mem_append_right _ (List.mem_append_left _ hw))

/-- The statement that ends a piece of code, whose results nobody needs behind it. -/
theorem last (h : Built F T us st st₁ vs) {s : Stmt} (hlabel : s.label? = none)
    (htarget : ∀ l, s.target? = some l → l ∈ T) (hops : ∀ v ∈ s.operands, v ∈ us ++ vs)
    (hforms : F.Forms (st₁.add s) s) : Built F T us st (st₁.add s) [] :=
  (h.put hlabel htarget hops hforms).forget

theorem target_label {P : Int → Prop} (l : Int) : ∀ l', (Stmt.label l).target? = some l' → P l' :=
  fun _ h => absurd h (Option.some_ne_none _).symm

theorem allows_label (F : Frame) (st : State) (l : Int) : F.Allows st (.label l) := ⟨nofun, trivial⟩

theorem allows_jump (F : Frame) (st : State) (l : Int) : F.Allows st (.jump l) := ⟨nofun, trivial⟩

/-- A label that is drawn before a piece of code and set behind it: jumps of the code may
go to it. -/
theorem bracket (h : Built F (st.counters.labels :: T) us st.drawLabel st₁ vs) :
    Built F T us st (st₁.add (.label st.counters.labels)) [] := by
  obtain ⟨c, k, hstmts, hlabel, hcount, hlater, hready, hknown, hallows, htargets, hflows⟩ := h
  have hlast := Later.add st₁ (.label st.counters.labels)
  have hall : labelsOf (c ++ [Stmt.label st.counters.labels]) = labelsOf c ++ [st.counters.labels] :=
    labelsOf_append ..
  refine ⟨c ++ [Stmt.label st.counters.labels], 1 + k, ?_, ?_, by simp [hall, hcount, Nat.add_comm],
    ((Later.drawLabel st).trans hlater).trans hlast, ready_add hready _, ?_, ?_, ?_, fun D hD => ?_⟩
  · rw [State.add, Array.toList_push, hstmts, List.append_assoc]
    rfl
  · rw [nth_add]
    exact hlabel
  · rw [List.append_nil]
    exact fun u hu => hlast.knows (hknown u (List.mem_append_left _ hu))
  · exact List.forall_mem_append.2 ⟨fun s hs => hlast.allows (hallows s hs),
      List.forall_mem_singleton.2 (allows_label ..)⟩
  · rw [hall]
    refine List.forall_mem_append.2 ⟨fun s hs l hl => ?_, by simp [Stmt.target?]⟩
    -- A jump to the drawn label stays inside now.
    rcases htargets s hs l hl with hmem | hmem
    · rcases List.mem_cons.1 hmem with rfl | hmem
      · exact Or.inr (List.mem_append_right _ (List.mem_singleton_self _))
      · exact Or.inl hmem
    · exact Or.inr (List.mem_append_left _ hmem)
  · rw [drawn_add]
    refine Flows.bracket (hflows D hD) Set.subset_union_left ?_
    simp [tempsOf]

/-- A test with two ways: its label starts the second way, and a second label that is
drawn behind the first way ends both. -/
theorem fork (h : Built F (st.counters.labels :: T) us st.drawLabel st₁ vs)
    (h' : Built F T us ((st₁.drawLabel.add (.jump st₁.counters.labels)).add
      (.label st.counters.labels)) st₂ ws) :
    Built F T us st (st₂.add (.label st₁.counters.labels)) [] := by
  obtain ⟨c, k, hstmts, hlabel, hcount, hlater, -, -, hallows, htargets, hflows⟩ := h
  obtain ⟨c', k', hstmts', hlabel', hcount', hlater', hready', hknown', hallows', htargets',
    hflows'⟩ := h'
  have hall : labelsOf (c ++ [Stmt.jump st₁.counters.labels, Stmt.label st.counters.labels] ++ c' ++
      [Stmt.label st₁.counters.labels]) =
        labelsOf c ++ st.counters.labels :: (labelsOf c' ++ [st₁.counters.labels]) := by
    simp [labelsOf, Stmt.label?, List.filterMap_cons]
  have hturn := (Later.drawLabel st₁).trans ((Later.add st₁.drawLabel
    (.jump st₁.counters.labels)).trans (Later.add _ (.label st.counters.labels)))
  have hlast := Later.add st₂ (.label st₁.counters.labels)
  refine ⟨c ++ [Stmt.jump st₁.counters.labels, Stmt.label st.counters.labels] ++ c' ++
    [Stmt.label st₁.counters.labels], 1 + k + (1 + k'), ?_, ?_, ?_,
    (((Later.drawLabel st).trans hlater).trans (hturn.trans hlater')).trans hlast,
    ready_add hready' _, ?_, ?_, ?_, fun D hD => ?_⟩
  · rw [State.add, Array.toList_push, hstmts']
    simp only [State.add, State.drawLabel, Array.toList_push, List.append_assoc, hstmts]
    rfl
  -- The numbers of labels: one for the test, those of the first way, one for the end, those of
  -- the second way.
  · rw [nth_add, nth_add _ 1 k, nth_add _ 1 k']
    have hfirst : nth (nth st.counters.labels 1) k = st₁.counters.labels := hlabel.symm
    rw [hfirst]
    exact hlabel'
  · rw [hall, hcount, hcount']
    simp only [List.length_append, List.length_cons, List.length_nil]
    omega
  · rw [List.append_nil]
    exact fun u hu => hlast.knows (hknown' u (List.mem_append_left _ hu))
  · simp only [List.forall_mem_append, List.forall_mem_cons, List.not_mem_nil, false_imp_iff,
      implies_true, and_true]
    exact ⟨⟨⟨fun s hs => ((hturn.trans hlater').trans hlast).allows (hallows s hs), allows_jump ..,
      allows_label ..⟩, fun s hs => hlast.allows (hallows' s hs)⟩, allows_label ..⟩
  -- A jump of the first way that misses goes to the second way; all other jumps stay where
  -- they are or leave both.
  · rw [hall]
    simp only [List.forall_mem_append, List.forall_mem_cons, List.not_mem_nil, false_imp_iff,
      implies_true, and_true]
    refine ⟨⟨⟨fun s hs l hl => ?_, ?_, target_label _⟩, fun s hs l hl => ?_⟩, target_label _⟩
    · rcases htargets s hs l hl with hmem | hmem
      · rcases List.mem_cons.1 hmem with rfl | hmem
        · simp
        · exact Or.inl hmem
      · simp [hmem]
    · rintro l ⟨⟩
      simp
    · rcases htargets' s hs l hl with hmem | hmem
      · exact Or.inl hmem
      · simp [hmem]
  · rw [drawn_add, drawn_add _ 1 k, drawn_add _ 1 k', nth_add _ 1 k]
    have hfirst : nth (nth st.counters.labels 1) k = st₁.counters.labels := hlabel.symm
    rw [hfirst]
    exact Flows.fork (hflows D hD) Set.subset_union_left (hflows' D hD) Set.subset_union_left
      (by simp [tempsOf])

/-- A loop around a piece of code: both labels are drawn before it, the first is set in
front of the test and the second behind the jump back. -/
theorem loop (h : Built F (st.counters.labels :: st.drawLabel.counters.labels :: T) us
      (st.drawLabel.drawLabel.add (.label st.counters.labels)) st₁ vs) :
    Built F T us st ((st₁.add (.jump st.counters.labels)).add
      (.label st.drawLabel.counters.labels)) [] := by
  obtain ⟨c, k, hstmts, hlabel, hcount, hlater, hready, hknown, hallows, htargets, hflows⟩ := h
  have hall : labelsOf (Stmt.label st.counters.labels :: c ++
      [Stmt.jump st.counters.labels, Stmt.label st.drawLabel.counters.labels]) =
        st.counters.labels :: (labelsOf c ++ [st.drawLabel.counters.labels]) := by
    simp [labelsOf, Stmt.label?, List.filterMap_cons]
  have hfirst := (Later.drawLabel st).trans ((Later.drawLabel st.drawLabel).trans
    (Later.add _ (.label st.counters.labels)))
  have hlast := (Later.add st₁ (.jump st.counters.labels)).trans
    (Later.add _ (.label st.drawLabel.counters.labels))
  refine ⟨.label st.counters.labels :: c ++
    [Stmt.jump st.counters.labels, Stmt.label st.drawLabel.counters.labels], 2 + k, ?_, ?_, ?_,
    (hfirst.trans hlater).trans hlast, ready_add (ready_add hready _) _, ?_, ?_, ?_, fun D hD => ?_⟩
  · simp only [State.add, State.drawLabel, Array.toList_push, hstmts, List.append_assoc]
    rfl
  · rw [nth_add]
    exact hlabel
  · rw [hall, hcount]
    simp only [List.length_append, List.length_cons, List.length_nil]
    omega
  · rw [List.append_nil]
    exact fun u hu => hlast.knows (hknown u (List.mem_append_left _ hu))
  · simp only [List.cons_append, List.forall_mem_append, List.forall_mem_cons, List.not_mem_nil,
      false_imp_iff, implies_true, and_true]
    exact ⟨allows_label .., fun s hs => hlast.allows (hallows s hs), allows_jump .., allows_label ..⟩
  · rw [hall]
    simp only [List.cons_append, List.forall_mem_append, List.forall_mem_cons, List.not_mem_nil,
      false_imp_iff, implies_true, and_true]
    -- Jumps to the head or behind the loop stay inside of it.
    refine ⟨target_label _, fun s hs l hl => ?_, ?_, target_label _⟩
    · rcases htargets s hs l hl with hmem | hmem
      · rcases List.mem_cons.1 hmem with rfl | hmem
        · simp
        · rcases List.mem_cons.1 hmem with rfl | hmem
          · simp
          · exact Or.inl hmem
      · simp [hmem]
    · rintro l ⟨⟩
      simp
  · rw [drawn_add]
    exact Flows.loop (hflows D hD) Set.subset_union_left (by simp [tempsOf])

end Built

/-! ## Expressions -/

/-- Steps of generation build code from the operands `us`; the operands of `out` are its results. -/
def Makes {α : Type} (F : Frame) (T : List Int) (us : List Val) (g : Gen α) (out : α → List Val) :
    Prop :=
  ∀ ⦃st a st'⦄, g st = .ok (a, st') → Ready F st → (∀ u ∈ us, F.Knows st u) →
    Built F T us st st' (out a)

section Pieces

open Built

variable {α β : Type} {F : Frame} {T : List Int} {us : List Val} {env : Env} {l r : Coded}

/-- A step that builds nothing may give what it was given or a constant. -/
theorem makes_pure {a : α} {out : α → List Val} (h : ∀ v ∈ out a, v ∈ us ∨ v.isConst = true) :
    Makes F T us (pure a) out := fun st a' st' hrun hst hus => by
  obtain ⟨rfl, rfl⟩ := pure_inv hrun
  exact (Built.refl hst hus).weaken (List.Subset.refl _) (by rwa [List.append_nil])

/-- Steps one after the other; `P` is what is known of what the first ones give. -/
theorem Makes.bind_of {g : Gen α} {f : α → Gen β} {out : α → List Val} {out' : β → List Val}
    {P : α → Prop} (hg : Makes F T us g out) (hP : ∀ st a st', g st = .ok (a, st') → P a)
    (hf : ∀ a, P a → Makes F T (us ++ out a) (f a) out') : Makes F T us (g >>= f) out' :=
  fun st b st' hrun hst hus => by
  obtain ⟨a, st₁, h₁, h₂⟩ := bind_eq_ok hrun
  have hfirst := hg h₁ hst hus
  have hsecond := hf a (hP _ _ _ h₁) h₂ hfirst.ready hfirst.known
  refine (hfirst.trans hsecond).weaken (List.Subset.refl _) fun w hw => Or.inl ?_
  exact List.mem_append_right _ (List.mem_append_right _ hw)

/-- Steps one after the other, where the second ones may use the results of the first
ones. -/
theorem Makes.bind {g : Gen α} {f : α → Gen β} {out : α → List Val} {out' : β → List Val}
    (hg : Makes F T us g out) (hf : ∀ a, Makes F T (us ++ out a) (f a) out') :
    Makes F T us (g >>= f) out' :=
  hg.bind_of (P := fun _ => True) (fun _ _ _ _ => trivial) fun a _ => hf a

theorem makes_refuse {pos : Pos} {cause : GenCause} {out : α → List Val} :
    Makes F T us (refuse env pos cause) out := fun _ _ _ hrun => (refuse_inv hrun).elim

/-- Asking for the fold of an expression builds nothing. -/
theorem makes_folded (c : Folded) : Makes F T us (folded c) fun _ => [] :=
  fun st o st' hrun hst hus => by
  obtain ⟨-, rfl⟩ := folded_inv hrun
  exact Built.refl hst hus

/-- A name in scope is a local that was declared before or a global of the frame. -/
theorem makes_lookup (hF : F.Covers env) (d : DeclId) (pos : Pos) :
    Makes F T us (lookup env d pos) fun id => [.var id] := fun st id st' hrun hst hus => by
  obtain ⟨rfl, hid⟩ := lookup_inv hrun
  have hknown : F.Knows st' (.var id) := by
    rcases hid with hscope | ⟨-, hglobal⟩
    · exact hst.scope d id hscope
    · exact Or.inl (hF.globals d id hglobal)
  refine ⟨[], 0, (List.append_nil _).symm, rfl, rfl, .refl st', hst, ?_, List.forall_mem_nil _,
    List.forall_mem_nil _, fun D _ => .nil ?_⟩
  · exact List.forall_mem_append.2 ⟨hus, List.forall_mem_singleton.2 hknown⟩
  · simp [tempsOf]

/-- The operands of a statement whose form does not depend on what was declared. -/
theorem makes_emit {s : Stmt} (hlabel : s.label? = none) (htarget : ∀ l, s.target? = some l → l ∈ T)
    (hops : ∀ v ∈ s.operands, v ∈ us ∨ v.isConst = true) (hforms : ∀ st, F.Forms st s) :
    Makes F T us (emit s) fun _ => [] := fun st u st' hrun hst hus => by
  obtain rfl := emit_inv hrun
  refine (Built.add hst hus ⟨hlabel, htarget, fun v hv => ?_, fun n hn => ?_, hforms _⟩).forget
  · exact (hops v hv).imp_right Or.inl
  · exact (hops _ (mem_operands_of_source hn)).resolve_right Bool.false_ne_true

/-- A statement whose only destination is a new temporary. -/
structure Defines (F : Frame) (us : List Val) (s : Val → Stmt) : Prop where
  label : ∀ t, (s t).label? = none
  target : ∀ t, (s t).target? = none
  operands : ∀ t, (s t).operands = t :: (s t).sources
  dst : ∀ t, (s t).dst? = some t
  sources : ∀ t, ∀ v ∈ (s t).sources, v ∈ us ∨ v.isConst = true
  forms : ∀ n st, F.Forms st (s (.temp n))

/-- A definition builds its statement and gives the temporary, which no operand mentioned
before. -/
theorem Defines.built {s : Val → Stmt} (hs : Defines F us s) {st : State} (hst : Ready F st)
    (hus : ∀ u ∈ us, F.Knows st u) :
    Built F T us st (st.define s) [.temp st.counters.temps] := by
  refine Built.define hst hus fun n hn => ⟨⟨hs.label _, ?_, fun v hv => ?_, fun m hm => ?_,
    hs.forms n _⟩, hs.dst _⟩
  · intro l hl
    rw [hs.target] at hl
    cases hl
  · rw [hs.operands] at hv
    rcases List.mem_cons.1 hv with rfl | hv
    · exact Or.inr (Or.inr hn)
    · exact (hs.sources _ v hv).imp_right Or.inl
  · exact (hs.sources _ _ hm).resolve_right Bool.false_ne_true

/-- Drawing a temporary and writing the statement that defines it, as steps. -/
theorem makes_define {s : Val → Stmt} (hs : Defines F us s) :
    Makes F T us (do let t ← newTemp; emit (s t); pure t) fun t => [t] :=
  fun st t st' hrun hst hus => by
  cases hrun
  exact hs.built hst hus

/-- Operations that are not logical and do not divide by the constant zero define their
temporary. -/
theorem defines_binary {x y : Val} {op : BinOp} (hx : x ∈ us ∨ x.isConst = true)
    (hy : y ∈ us ∨ y.isConst = true) (hop : op.isLogical = false)
    (hzero : op = .div ∨ op = .mod → y ≠ .const 0) : Defines F us fun t => .binary t x op y where
  label _ := rfl
  target _ := rfl
  operands _ := rfl
  dst _ := rfl
  sources _ := by simpa [Stmt.sources] using ⟨hx, hy⟩
  forms _ _ := ⟨rfl, hop, hzero⟩

/-- An operation of two values, as steps. -/
theorem makes_binaryTemp {x y : Val} {op : BinOp} (hx : x ∈ us ∨ x.isConst = true)
    (hy : y ∈ us ∨ y.isConst = true) (hop : op.isLogical = false)
    (hzero : op = .div ∨ op = .mod → y ≠ .const 0) :
    Makes F T us (binaryTemp x op y) fun t => [t] :=
  makes_define (defines_binary hx hy hop hzero)

/-- Sums and products, which addresses are made of. -/
theorem makes_address_step {x y : Val} {op : BinOp} (hop : op = .add ∨ op = .mul)
    (hx : x ∈ us ∨ x.isConst = true) (hy : y ∈ us ∨ y.isConst = true) :
    Makes F T us (binaryTemp x op y) fun t => [t] := by
  refine makes_binaryTemp hx hy ?_ ?_ <;> rcases hop with rfl | rfl
  · rfl
  · rfl
  · exact nofun
  · exact nofun

/-- Both ways to compile an expression; its value is a constant only if its fold is. -/
structure Compiles (F : Frame) (c : Coded) : Prop where
  value : ∀ T us, Makes F T us c.value fun v => [v]
  jump : ∀ T us label want, label ∈ T → Makes F T us (c.jump label want) fun _ => []
  const : ∀ ⦃st v st'⦄, c.value st = .ok (v, st') → ∀ n, v = .const n → c.const = .ok (some n)

/-- A jump on a value that is computed first: the branch reads it and goes to the given
label. -/
theorem makes_jumpOnValue {value : Gen Val} (h : ∀ T us, Makes F T us value fun v => [v])
    {label : Int} (want : Bool) (hlabel : label ∈ T) :
    Makes F T us (jumpOnValue value label want) fun _ => [] := by
  refine (h T us).bind fun v => makes_emit rfl ?_ ?_ fun _ => trivial
  · rintro _ ⟨⟩
    exact hlabel
  · rintro w hw
    rcases List.mem_cons.1 hw with rfl | hw
    · exact Or.inl (by simp)
    · rw [List.mem_singleton.1 hw]
      exact Or.inr rfl

/-- An expression whose fold is asked for first: a constant needs no code or one jump,
anything else is compiled as it is. -/
theorem compiles_guardConst {c : Folded} {value : Gen Val} {jump : Int → Bool → Gen Unit}
    (hvalue : ∀ T us, Makes F T us value fun v => [v])
    (hjump : ∀ T us label want, label ∈ T → Makes F T us (jump label want) fun _ => [])
    (hconst : c = .ok none → ∀ ⦃st v st'⦄, value st = .ok (v, st') → v.isConst = false) :
    Compiles F (guardConst c value jump) where
  value T us := by
    refine (makes_folded c).bind fun o => ?_
    cases o with
    | some n => exact makes_pure (by simp [Val.isConst])
    | none => exact hvalue _ _
  jump T us label want hlabel := by
    refine (makes_folded c).bind fun o => ?_
    cases o with
    | some n =>
      simp only
      split
      · refine makes_emit rfl ?_ nofun fun _ => trivial
        rintro _ ⟨⟩
        exact hlabel
      · exact makes_pure nofun
    | none => exact hjump _ _ label want hlabel
  -- A constant can only come from the fold, as the code of the other case never gives one.
  const st v st' hrun n hn := by
    obtain ⟨o, st₁, hfold, hrun⟩ := bind_eq_ok hrun
    obtain ⟨hc, -⟩ := folded_inv hfold
    cases o with
    | some m =>
      obtain ⟨rfl, -⟩ := pure_inv hrun
      cases hn
      exact hc
    | none =>
      have hnot := hconst hc hrun
      rw [hn] at hnot
      cases hnot

/-- The offset of an array element: constants go into the number, other indexes into a sum
of products. -/
theorem makes_indexes (name : String) (pos : Pos) (d : Decl) {xs : List Coded}
    (hxs : ∀ x ∈ xs, Compiles F x) (i : Nat) (off : Int) (dyn : Option Val)
    (hdyn : ∀ v, dyn = some v → v ∈ us) :
    Makes F T us (indexes env name pos d i off dyn xs) fun p => p.2.toList := by
  -- On the indexes, for any offset and sum so far; the sum is among the operands that are
  -- given.
  induction xs generalizing us i off dyn with
  | nil =>
    refine makes_pure fun v hv => Or.inl (hdyn v ?_)
    exact Option.mem_toList.1 hv
  | cons x xs ih =>
    rw [List.forall_mem_cons] at hxs
    refine (makes_folded x.const).bind fun o => ?_
    cases o with
    | some c =>
      simp only
      split
      · exact makes_refuse
      · exact ih hxs.2 _ _ _ fun v hv => List.mem_append_left _ (hdyn v hv)
    | none =>
      refine (hxs.1.value T _).bind fun v => ?_
      refine (makes_address_step (Or.inr rfl) (Or.inl (by simp)) (Or.inr rfl)).bind fun t => ?_
      cases dyn with
      | some s =>
        have hs := hdyn s rfl
        refine (makes_address_step (Or.inl rfl) (Or.inl (by simp [hs])) (Or.inl (by simp))).bind
          fun w => ?_
        exact ih hxs.2 _ _ _ (by simp)
      | none =>
        -- The first product is the sum by itself, so no statement is written for it.
        have hsame : ∀ t, Makes F T (us ++ [] ++ [v] ++ [t]) (pure t) fun w => [w] := fun t =>
          makes_pure (by simp)
        exact (hsame t).bind fun w => ih hxs.2 _ _ _ (by simp)

/-- The base of an array element and its offset; the base is the array or a sum of the
array and an index. -/
theorem makes_address (id : VarId) (hid : .var id ∈ us) (pos : Pos) (d : Decl) {xs : List Coded}
    (hxs : ∀ x ∈ xs, Compiles F x) :
    Makes F T us (address env id pos d xs) fun p => [p.1] := by
  refine (makes_indexes _ _ _ hxs _ _ _ (by simp)).bind fun p => ?_
  obtain ⟨off, dyn⟩ := p
  cases dyn with
  | some v =>
    refine (makes_address_step (Or.inl rfl) (Or.inl (by simp [hid])) (Or.inl (by simp))).bind
      fun b => ?_
    exact makes_pure (by simp)
  | none => exact makes_pure (by simp [hid])

/-- The base of an array element is a variable or a temporary. -/
theorem address_not_const {id : VarId} {pos : Pos} {d : Decl} {xs : List Coded} {st st' : State}
    {p : Val × Int} (h : address env id pos d xs st = .ok (p, st')) : p.1.isConst = false := by
  obtain ⟨⟨off, dyn⟩, st₁, -, h⟩ := bind_eq_ok h
  cases dyn with
  | some v =>
    obtain ⟨b, st₂, hb, h⟩ := bind_eq_ok h
    obtain ⟨rfl, -⟩ := binaryTemp_inv hb
    obtain ⟨rfl, -⟩ := pure_inv h
    rfl
  | none =>
    obtain ⟨rfl, -⟩ := pure_inv h
    rfl

/-- The value of a variable or an element: the variable itself, the address of a part of
an array, or a load. -/
theorem makes_lvalValue (hF : F.Covers env) (d : DeclId) (pos : Pos) {xs : List Coded}
    (hxs : ∀ x ∈ xs, Compiles F x) : Makes F T us (lvalValue env d pos xs) fun v => [v] := by
  refine (makes_lookup hF d pos).bind fun id => ?_
  dsimp only
  split
  · exact makes_pure (by simp)
  · split
    · exact makes_refuse
    · refine (makes_address id (by simp) pos _ hxs).bind fun p => ?_
      split
      · split
        · exact makes_pure (by simp)
        · exact makes_address_step (Or.inl rfl) (Or.inl (by simp)) (Or.inr rfl)
      -- Loading an element defines a temporary.
      · exact makes_define (s := fun t => .load t p.1 p.2)
          ⟨fun _ => rfl, fun _ => rfl, fun _ => rfl, fun _ => rfl, by simp [Stmt.sources],
            fun _ _ => rfl⟩

/-- The value of a variable or an element is an operand that is no constant. -/
theorem lvalValue_not_const {d : DeclId} {pos : Pos} {xs : List Coded} {st st' : State} {v : Val}
    (h : lvalValue env d pos xs st = .ok (v, st')) : v.isConst = false := by
  obtain ⟨id, st₁, -, h⟩ := bind_eq_ok h
  dsimp only at h
  -- A scalar, an address or a temporary; none of them is a constant.
  split at h
  · obtain ⟨rfl, -⟩ := pure_inv h
    rfl
  · split at h
    · exact (refuse_inv h).elim
    · obtain ⟨p, st₂, hp, h⟩ := bind_eq_ok h
      split at h
      · split at h
        · obtain ⟨rfl, -⟩ := pure_inv h
          exact address_not_const hp
        · obtain ⟨rfl, -⟩ := binaryTemp_inv h
          rfl
      · cases h
        rfl

/-- The values of arguments, each kept for the call while the next ones are computed. -/
theorem makes_values {xs : List Coded} (hxs : ∀ x ∈ xs, Compiles F x) :
    Makes F T us (values xs) fun vs => vs := by
  induction xs generalizing us with
  | nil => exact makes_pure nofun
  | cons x xs ih =>
    rw [List.forall_mem_cons] at hxs
    refine (hxs.1.value T us).bind fun v => (ih hxs.2).bind fun vs => makes_pure fun w hw => ?_
    rcases List.mem_cons.1 hw with rfl | hw <;> simp [*]

/-- A call whose result is wanted defines the temporary that the result goes to. -/
theorem defines_call (target : String) {vs : List Val} (hvs : ∀ v ∈ vs, v ∈ us) :
    Defines F us fun t => .call (some t) target vs where
  label _ := rfl
  target _ := rfl
  operands _ := by simp [Stmt.operands, Stmt.dst?, Stmt.sources]
  dst _ := rfl
  sources _ v hv := Or.inl (hvs v hv)
  forms := by
    rintro n st _ ⟨⟩
    rfl

/-- A call, whose arguments are its own or the line that the timing functions are given. -/
theorem makes_callValue (name : String) (callee : Option Signature) {args : List Coded}
    (hargs : ∀ x ∈ args, Compiles F x) (pos : Pos) (wanted : Bool) :
    Makes F T us (callValue env name callee args pos wanted) fun v => if wanted then [v] else [] :=
  fun st v st' h hst hus => by
  obtain ⟨target, args', vs, st₁, -, hargs', hvs, hlast⟩ := callValue_inv h
  -- The line is a constant, which compiles like every other expression.
  have hcompiles : ∀ x ∈ args', Compiles F x := by
    rcases hargs' with rfl | rfl
    · exact hargs
    · rw [List.forall_mem_singleton]
      refine compiles_guardConst (fun _ _ => makes_pure ?_) (fun _ _ _ _ _ => makes_pure nofun) nofun
      simp [Val.isConst]
  have hbuilt := makes_values (T := T) hcompiles hvs hst hus
  have hmem : ∀ v ∈ vs, v ∈ us ++ vs := fun v hv => List.mem_append_right _ hv
  rcases hlast with ⟨rfl, rfl, rfl⟩ | ⟨rfl, rfl⟩
  · have hcall := hbuilt.trans ((defines_call target hmem).built hbuilt.ready hbuilt.known)
    exact hcall.weaken (List.Subset.refl _) (by simp)
  · exact hbuilt.last rfl nofun (by simpa [Stmt.operands, Stmt.dst?, Stmt.sources] using hmem) nofun

/-- The result of a call is a temporary. -/
theorem callValue_not_const {name : String} {callee : Option Signature} {args : List Coded}
    {pos : Pos} {v : Val} {st st' : State}
    (h : callValue env name callee args pos true st = .ok (v, st')) : v.isConst = false := by
  obtain ⟨target, args', vs, st₁, -, -, -, ⟨-, rfl, -⟩ | ⟨hfalse, -⟩⟩ := callValue_inv h
  · rfl
  · cases hfalse

/-- A move of a constant defines its temporary. -/
theorem defines_move (n : Int) : Defines F us fun t => .move t (.const n) where
  label _ := rfl
  target _ := rfl
  operands _ := rfl
  dst _ := rfl
  sources _ := by simp [Stmt.sources, Val.isConst]
  forms _ _ := rfl

/-- The value of a logical operator: one move for the early answer, the jumps of both
sides to a label, one move for the other answer. -/
theorem makes_logicalValue (isOr : Bool) (hl : Compiles F l) (hr : Compiles F r) :
    Makes F T us (logicalValue isOr l r) fun v => [v] := fun st v st' h hst hus => by
  obtain ⟨st₁, st₂, rfl, h₁, h₂, rfl⟩ := logicalValue_inv h
  have hmoved : Defines F us fun t => .move t (.const (if isOr then 1 else 0)) := defines_move _
  have hfirst := hmoved.built (T := T) hst hus
  have hready := ready_drawLabel hfirst.ready
  have hknown : ∀ u ∈ us ++ [Val.temp st.counters.temps], F.Knows
      (st.define fun t => .move t (.const (if isOr then 1 else 0))).drawLabel u := fun u hu =>
    (Later.drawLabel _).knows (hfirst.known u hu)
  have hleft := hl.jump (st.counters.labels :: T) _ _ isOr (List.mem_cons_self ..) h₁ hready hknown
  have hright := hr.jump (st.counters.labels :: T) _ _ isOr (List.mem_cons_self ..) h₂ hleft.ready
    hleft.given
  have hmove := Built.add (T := st.counters.labels :: T)
    (s := .move (.temp st.counters.temps) (.const (if isOr then 0 else 1))) hright.ready hright.given
    ⟨rfl, nofun, by simp [Stmt.operands, Stmt.dst?, Stmt.sources, Val.isConst], nofun, rfl⟩
  -- The temporary is written in front of both sides, so it is written at the label whichever
  -- side jumped there.
  have hinner : Built F T (us ++ [Val.temp st.counters.temps])
      (st.define fun t => .move t (.const (if isOr then 1 else 0)))
      ((st₂.add (.move (.temp st.counters.temps) (.const (if isOr then 0 else 1)))).add
        (.label st.counters.labels)) [] :=
    Built.bracket ((hleft.seq hright).seq hmove)
  exact (hfirst.trans hinner).weaken (List.Subset.refl _) (by simp)

/-- A jump on a logical operator: both sides jump to the label, or the left side jumps
over the right one. -/
theorem makes_logicalJump (isOr : Bool) (hl : Compiles F l) (hr : Compiles F r) {label : Int}
    (want : Bool) (hlabel : label ∈ T) :
    Makes F T us (logicalJump isOr l r label want) fun _ => [] := fun st v st' h hst hus => by
  rcases logicalJump_inv h with ⟨-, st₁, st₂, h₁, h₂, rfl⟩ | ⟨-, st₁, h₁, h₂⟩
  · have hknown : ∀ u ∈ us, F.Knows st.drawLabel u := fun u hu => (Later.drawLabel _).knows (hus u hu)
    have hleft := hl.jump (st.counters.labels :: T) us _ (!want) (List.mem_cons_self ..) h₁
      (ready_drawLabel hst) hknown
    have hright := hr.jump (st.counters.labels :: T) us _ want (List.mem_cons_of_mem _ hlabel) h₂
      hleft.ready hleft.given
    exact (hleft.seq hright).bracket
  · have hleft := hl.jump T us _ want hlabel h₁ hst hus
    exact hleft.seq (hr.jump T us _ want hlabel h₂ hleft.ready hleft.given)

/-- A unary operator: a plus gives its operand and no statement. -/
theorem makes_unaryValue (op : UnOp) {x : Coded} (hx : Compiles F x) :
    Makes F T us (unaryValue op x) fun v => [v] := by
  have hdefine : ∀ v : Val, op ≠ .plus → Defines F (us ++ [v]) fun t => .unary t op v := fun v hop =>
    ⟨fun _ => rfl, fun _ => rfl, fun _ => rfl, fun _ => rfl, by simp [Stmt.sources],
      fun _ _ => ⟨rfl, hop⟩⟩
  refine (hx.value T us).bind fun v => ?_
  cases op with
  | plus => exact makes_pure (by simp)
  | neg => exact makes_define (hdefine v nofun)
  | not => exact makes_define (hdefine v nofun)

/-- The value of a unary operator that does not fold is no constant; a plus needs that its
operand does not fold either. -/
theorem unaryValue_not_const {op : UnOp} {x : Coded} (hx : Compiles F x) (hfold : x.const = .ok none)
    {st st' : State} {v : Val} (h : unaryValue op x st = .ok (v, st')) : v.isConst = false := by
  obtain ⟨w, st₁, hw, h⟩ := bind_eq_ok h
  cases op with
  | plus =>
    obtain ⟨rfl, -⟩ := pure_inv h
    -- The plus passes its operand on, which would fold if it were a constant.
    cases v with
    | const n =>
      have hsome := hx.const hw n rfl
      rw [hfold] at hsome
      cases hsome
    | temp | var => rfl
  | neg | not =>
    cases h
    rfl

/-- An operator that is not logical.  A divisor is not the constant zero, since its fold
would be zero and the step refuse. -/
theorem makes_arithValue {op : BinOp} (hop : op.isLogical = false) (hl : Compiles F l)
    (hr : Compiles F r) : Makes F T us (arithValue env op l r) fun v => [v] := by
  -- What the fold gave has to be kept until the value of the right side is known.
  refine (makes_folded r.const).bind_of (P := fun o => r.const = .ok o)
    (fun _ _ _ h => (folded_inv h).1) fun o ho => ?_
  split
  · exact fun st v st' h => (refuse_bind_inv h).elim
  · next hzero =>
    refine (hl.value T _).bind fun a => (hr.value T _).bind_of
      (fun _ b _ h n hb => hr.const h n hb) fun b hb => ?_
    refine makes_binaryTemp (Or.inl (by simp)) (Or.inl (by simp)) hop ?_
    rintro hdiv rfl
    have hsome := hb 0 rfl
    rw [ho] at hsome
    cases hsome
    exact hzero ⟨rfl, hdiv⟩

/-- Lists of expressions, element by element. -/
theorem compiles_exprs {index : List Expr} (h : ∀ e ∈ index, Compiles F (expr env e)) :
    ∀ x ∈ exprs env index, Compiles F x := by
  rw [exprs_eq_map]
  exact List.forall_mem_map.2 h

/-- A unary operator does not fold only if its operand does not. -/
theorem fold_unary {ds : Decls} {op : UnOp} {x : Expr} (h : (Expr.unary op x).fold ds = .ok none) :
    x.fold ds = .ok none := by
  unfold Expr.fold Fold.within at h ⊢
  rw [Fold.expr] at h
  split at h
  · cases h
  · exact h

/-- The fold that is in front of an expression. -/
theorem const_expr (env : Env) (e : Expr) : (expr env e).const = e.fold env.decls := by
  cases e with
  | absent | num | lval | call | unary => rfl
  | binary op => cases op <;> rfl

/-- The value of an operator that is not logical is a temporary. -/
theorem arithValue_not_const {op : BinOp} {st st' : State} {v : Val}
    (h : arithValue env op l r st = .ok (v, st')) : v.isConst = false := by
  obtain ⟨o, st₁, -, h⟩ := bind_eq_ok h
  split at h
  · exact (refuse_bind_inv h).elim
  · obtain ⟨a, st₂, -, h⟩ := bind_eq_ok h
    obtain ⟨b, st₃, -, h⟩ := bind_eq_ok h
    obtain ⟨rfl, -⟩ := binaryTemp_inv h
    rfl

/-- The value of a logical operator is a temporary. -/
theorem logicalValue_not_const {isOr : Bool} {st st' : State} {v : Val}
    (h : logicalValue isOr l r st = .ok (v, st')) : v.isConst = false := by
  obtain ⟨st₁, st₂, rfl, -⟩ := logicalValue_inv h
  rfl

/-- Expressions build code of the generated forms. -/
theorem compiles_expr (hF : F.Covers env) (e : Expr) : Compiles F (expr env e) := by
  -- On the expression; each form has its steps above, and the fold in front of it is the same
  -- for all.
  induction e using Expr.induction with
  | absent | num =>
    exact compiles_guardConst (fun _ _ => makes_pure (by simp [Val.isConst]))
      (fun _ _ _ _ _ => makes_pure nofun) nofun
  | lval d index pos ih =>
    have h : ∀ T us, Makes F T us (lvalValue env d pos (exprs env index)) fun v => [v] :=
      fun _ _ => makes_lvalValue hF d pos (compiles_exprs ih)
    exact compiles_guardConst h (fun _ _ _ want hlabel => makes_jumpOnValue h want hlabel)
      fun _ _ _ _ hrun => lvalValue_not_const hrun
  | call name callee args pos ih =>
    have h : ∀ T us, Makes F T us (callValue env name callee (exprs env args) pos true) fun v => [v] :=
      fun _ _ => makes_callValue name callee (compiles_exprs ih) pos true
    exact compiles_guardConst h (fun _ _ _ want hlabel => makes_jumpOnValue h want hlabel)
      fun _ _ _ _ hrun => callValue_not_const hrun
  | unary op x ih =>
    have h : ∀ T us, Makes F T us (unaryValue op (expr env x)) fun v => [v] :=
      fun _ _ => makes_unaryValue op ih
    refine compiles_guardConst h ?_ fun hnone _ _ _ hrun => ?_
    · cases op with
      | plus | neg => exact fun _ _ _ want hlabel => makes_jumpOnValue h want hlabel
      | not => exact fun _ _ label want hlabel => ih.jump _ _ label (!want) hlabel
    · refine unaryValue_not_const ih ?_ hrun
      rw [const_expr]
      exact fold_unary hnone
  | binary op l r ihl ihr =>
    have h : op.isLogical = false → ∀ T us,
        Makes F T us (arithValue env op (expr env l) (expr env r)) fun v => [v] :=
      fun hop _ _ => makes_arithValue hop ihl ihr
    cases op with
    | and | or =>
      exact compiles_guardConst (fun _ _ => makes_logicalValue _ ihl ihr)
        (fun _ _ _ want hlabel => makes_logicalJump _ ihl ihr want hlabel)
        fun _ _ _ _ hrun => logicalValue_not_const hrun
    | add | sub | mul | div | mod | cmp =>
      exact compiles_guardConst (h rfl)
        (fun _ _ _ want hlabel => makes_jumpOnValue (h rfl) want hlabel)
        fun _ _ _ _ hrun => arithValue_not_const hrun

end Pieces

/-! ## Statements -/

section Statements

open Built

variable {F : Frame} {T : List Int} {us : List Val} {env : Env} {loops : List Loop}

/-- A variable that is added is at the end of the table. -/
theorem get?_push_size (vars : VarTable) (v : Var) :
    VarTable.get? (vars.push v) ((vars.size : Nat) : Int) = some v := by
  rw [VarTable.get?, if_pos (Int.natCast_nonneg _), Int.toNat_natCast, Array.getElem?_push_size]

/-- A local that is declared is in scope, in the list of locals and in the table, under
the next number. -/
theorem ready_newLocal {st : State} (hst : Ready F st) (d : Decl) (id : DeclId) :
    Ready F (st.newLocal d id) where
  scope d' id' h := by
    have h' : (st.scope.insert id (st.vars.size : Int))[d']? = some id' := h
    show id' ∈ F.names ∨ id' ∈ (st.locals.push (st.vars.size : Int)).toList
    rw [Array.toList_push, List.mem_append, List.mem_singleton]
    rw [Std.TreeMap.getElem?_insert] at h'
    -- The new local hides what had its declaration number before.
    split at h'
    · cases h'
      exact Or.inr (Or.inr rfl)
    · exact (hst.scope d' id' h').imp_right Or.inl
  locals id' h := by
    have h' : id' ∈ (st.locals.push (st.vars.size : Int)).toList := h
    rw [Array.toList_push, List.mem_append, List.mem_singleton] at h'
    rcases h' with h' | rfl
    · obtain ⟨v, hv, hcls⟩ := hst.locals id' h'
      exact ⟨v, get?_of_prefix ⟨[_], Array.toList_push.symm⟩ hv, hcls⟩
    · exact ⟨_, get?_push_size _ _, rfl⟩
  numbered := hst.numbered.push nofun rfl

/-- Declaring a local writes no statement and gives the local as an operand. -/
theorem built_newLocal {st : State} (hst : Ready F st) (hus : ∀ u ∈ us, F.Knows st u) (d : Decl)
    (id : DeclId) : Built F T us st (st.newLocal d id) [.var st.vars.size] := by
  have hlater : Later st (st.newLocal d id) :=
    ⟨List.prefix_refl _, ⟨[_], Array.toList_push.symm⟩, ⟨[_], Array.toList_push.symm⟩⟩
  have hknown : F.Knows (st.newLocal d id) (.var st.vars.size) := by
    refine Or.inr ?_
    show _ ∈ (st.locals.push (st.vars.size : Int)).toList
    simp
  refine ⟨[], 0, (List.append_nil _).symm, rfl, rfl, hlater, ready_newLocal hst d id, ?_,
    List.forall_mem_nil _, List.forall_mem_nil _, fun D _ => .nil (by simp [tempsOf])⟩
  exact List.forall_mem_append.2 ⟨fun u hu => hlater.knows (hus u hu),
    List.forall_mem_singleton.2 hknown⟩

/-- The initial values of an array: a store for each value that is not left out and not a
zero that was filled in before. -/
theorem makes_initElements (hF : F.Covers env) (id : VarId) (hid : .var id ∈ us) (zeroed : Bool)
    (k : Int) (es : List Expr) :
    Makes F T us (initElements env id zeroed k es) fun _ => [] := by
  -- On the values that are left, at any index.
  induction es generalizing k with
  | nil => exact makes_pure nofun
  | cons e es ih =>
    by_cases he : e = .absent
    · subst he
      exact ih (k + 1)
    · intro st u st' h hst hus
      obtain ⟨c, st₁, -, hrest, ⟨-, rfl⟩ | ⟨-, v, st₀, hv, rfl⟩⟩ := initElement_inv he h
      · exact ih (k + 1) hrest hst hus
      · have hvalue := (compiles_expr hF e).value T us hv hst hus
        have hboth : Built F T us st (st₀.add (.store (.var id) (4 * k) v)) [] :=
          hvalue.last rfl nofun (by simp [Stmt.operands, Stmt.dst?, Stmt.sources, hid]) rfl
        exact hboth.seq (ih (k + 1) hrest hboth.ready hboth.given)

/-- A variable is an array exactly if its declaration is one, whatever lengths it has. -/
theorem isArray_of_shape {v : Var} {d : Decl} (h : v.dims = shape d) : v.isArray = d.isArray := by
  rw [Var.isArray, h, shape]
  split <;> simp_all

/-- A declaration: a local alone, a local with a value, or an array that is filled with
zeros where its values do not cover it. -/
theorem makes_declare (hF : F.Covers env) (d : DeclId) :
    Makes F T us (declare env d) fun _ => [] := fun st u st' h hst hus => by
  have hlocal := built_newLocal (T := T) hst hus (env.decls.at d) d
  -- No initial value, one for a scalar, or a list for an array.
  rcases declare_inv h with ⟨-, rfl⟩ | ⟨e, es, v, st₁, -, -, hv, rfl⟩ | ⟨init, -, harray, hrest⟩
  · exact hlocal.forget
  · have hvalue := (compiles_expr hF e).value T _ hv hlocal.ready hlocal.known
    exact (hlocal.trans hvalue).last rfl nofun (by simp [Stmt.operands, Stmt.dst?, Stmt.sources]) rfl
  · dsimp only at hrest
    have hmem : Val.var (st.vars.size : Int) ∈ us ++ [Val.var st.vars.size] := by simp
    have hinit := makes_initElements (T := T) hF _ hmem _ _ _ hrest
    split at hinit
    -- The zero fill is for the local that was just added, which is an array.
    · have hlast : (st.vars.size : Int) ∈ (st.locals.push (st.vars.size : Int)).toList := by simp
      have hfill : Built F T us st ((st.newLocal (env.decls.at d) d).add
          (.zeroFill (.var st.vars.size))) [.var st.vars.size] :=
        hlocal.put rfl nofun (by simp [Stmt.operands, Stmt.dst?, Stmt.sources])
          ⟨_, _, rfl, hlast, get?_push_size _ _, (isArray_of_shape rfl).trans harray⟩
      exact (hfill.trans (hinit hfill.ready hfill.known)).forget
    · exact (hlocal.trans (hinit hlocal.ready hlocal.known)).forget

/-- An assignment: the value first, then the variable or the address that it goes to. -/
theorem makes_assign (hF : F.Covers env) (target : DeclId) (index : List Expr) (tp : Pos) (e : Expr)
    (pos : Pos) : Makes F T us (assign env target index tp e pos) fun _ => [] :=
  fun st u st' h hst hus => by
  obtain ⟨v, st₁, id, hv, hid, hlast⟩ := assign_inv h
  have hvalue := (compiles_expr hF e).value T us hv hst hus
  have hlook := makes_lookup hF target tp (T := T) hid hvalue.ready hvalue.known
  rcases hlast with ⟨-, rfl⟩ | ⟨-, -, base, off, st₂, haddr, rfl⟩
  · exact (hvalue.trans hlook).last rfl nofun (by simp [Stmt.operands, Stmt.dst?, Stmt.sources]) rfl
  · have hplace := makes_address (T := T) id (by simp) tp _
      (compiles_exprs fun e _ => compiles_expr hF e) haddr hlook.ready hlook.known
    exact (hvalue.trans (hlook.trans hplace)).last rfl nofun
      (by simp [Stmt.operands, Stmt.dst?, Stmt.sources]) (address_not_const haddr)

/-- A return gives a value only in a function that has one. -/
theorem makes_ret (hF : F.Covers env) (value : Option Expr) (pos : Pos) :
    Makes F T us (ret env value pos) fun _ => [] := fun st u st' h hst hus => by
  obtain ⟨-, -, rfl⟩ | ⟨e, v, st₁, -, hvoid, hv, rfl⟩ := ret_inv h
  · exact Built.add hst hus ⟨rfl, nofun, nofun, nofun, fun _ => rfl⟩
  · refine ((compiles_expr hF e).value T us hv hst hus).last rfl nofun
      (by simp [Stmt.operands, Stmt.dst?, Stmt.sources]) fun htrue => ?_
    rw [← hF.void, hvoid] at htrue
    cases htrue

/-- An expression for its effects: a call whose result is not wanted, or a value that is
dropped. -/
theorem makes_effect (hF : F.Covers env) (x : Expr) : Makes F T us (effect env x) fun _ => [] :=
  fun st u st' h hst hus => by
  obtain ⟨name, callee, args, pos, v, -, hv⟩ | ⟨-, v, hv⟩ := effect_inv h
  · exact makes_callValue name callee (compiles_exprs fun e _ => compiles_expr hF e) pos false hv hst hus
  · exact ((compiles_expr hF x).value T us hv hst hus).forget

/-- A jump to a label that is given. -/
theorem makes_jump {l : Int} (hl : l ∈ T) : Makes F T us (emit (.jump l)) fun _ => [] := by
  refine makes_emit rfl ?_ nofun fun _ => trivial
  rintro _ ⟨⟩
  exact hl

/-- Labels of loops are labels that jumps may go to. -/
def Around (T : List Int) (loops : List Loop) : Prop := ∀ l ∈ loops, l.head ∈ T ∧ l.done ∈ T

theorem Around.mono {U : List Int} (h : Around T loops) (hT : T ⊆ U) : Around U loops := fun l hl =>
  ⟨hT (h l hl).1, hT (h l hl).2⟩

/-- What a statement does inside any loops. -/
def Builds (F : Frame) (env : Env) (s : Node) : Prop :=
  ∀ T us loops, Around T loops → Makes F T us (node env loops s) fun _ => []

/-- A conditional with one way or two. -/
theorem builds_cond (hF : F.Covers env) {c : Expr} {yes no : Node} (hyes : Builds F env yes)
    (hno : Builds F env no) : Builds F env (.cond c yes no) :=
  fun T us loops hT st u st' h hst hus => by
  obtain ⟨st₁, st₂, hjump, h₂, hrest⟩ := cond_inv h
  have hT' : Around (st.counters.labels :: T) loops := hT.mono (List.subset_cons_self ..)
  have hknown : ∀ u ∈ us, F.Knows st.drawLabel u := fun u hu => (Later.drawLabel _).knows (hus u hu)
  have htest := (compiles_expr hF c).jump (st.counters.labels :: T) us _ false (List.mem_cons_self ..)
    hjump (ready_drawLabel hst) hknown
  have hfirst := htest.seq (hyes _ us loops hT' h₂ htest.ready htest.given)
  -- With one branch the label is put behind it, with two a jump forks the code.
  rcases hrest with ⟨rfl, rfl⟩ | ⟨st₃, h₃, rfl⟩
  · exact hfirst.bracket
  · have hlater := (Later.drawLabel st₂).trans ((Later.add _ (.jump st₂.counters.labels)).trans
      (Later.add _ (.label st.counters.labels)))
    exact hfirst.fork (hno T us loops hT h₃
      (ready_add (ready_add (ready_drawLabel hfirst.ready) _) _)
      fun u hu => hlater.knows (hfirst.given u hu))

/-- A loop, whose body may also jump to its head and behind it. -/
theorem builds_loop (hF : F.Covers env) {c : Expr} {body : Node} (hbody : Builds F env body) :
    Builds F env (.loop c body) := fun T us loops hT st u st' h hst hus => by
  obtain ⟨st₁, st₂, hjump, h₂, rfl⟩ := loop_inv h
  have hlater := (Later.drawLabel st).trans ((Later.drawLabel st.drawLabel).trans
    (Later.add _ (.label st.counters.labels)))
  have htest := (compiles_expr hF c).jump
    (st.counters.labels :: st.drawLabel.counters.labels :: T) us _ false (by simp) hjump
    (ready_add (ready_drawLabel (ready_drawLabel hst)) _) fun u hu => hlater.knows (hus u hu)
  refine (htest.seq (hbody _ us _ ?_ h₂ htest.ready htest.given)).loop
  refine List.forall_mem_cons.2 ⟨by simp, hT.mono fun l hl => ?_⟩
  exact List.mem_cons_of_mem _ (List.mem_cons_of_mem _ hl)

/-- Statements one after the other, inside the same loops. -/
theorem builds_nodes {items : List Node} (h : ∀ s ∈ items, Builds F env s) (hT : Around T loops) :
    Makes F T us (nodes env loops items) fun _ => [] := by
  -- On the statements; none of them gives a result, so the given operands stay the same.
  induction items generalizing us with
  | nil => exact makes_pure nofun
  | cons s ss ih =>
    rw [List.forall_mem_cons] at h
    rw [nodes]
    exact (h.1 T us loops hT).bind fun _ => ih h.2

/-- Statements build code of the generated forms. -/
theorem builds_node (hF : F.Covers env) (s : Node) : Builds F env s := by
  -- On the statement, for all loops around it at once, since a body has one loop more.
  induction s using Node.induction with
  | skip => exact fun T us loops hT => makes_pure nofun
  | block items ih =>
    intro T us loops hT
    rw [node]
    exact builds_nodes ih hT
  | declare d => exact fun T us loops hT => makes_declare hF d
  | assign target index tp e pos => exact fun T us loops hT => makes_assign hF target index tp e pos
  | eval x => exact fun T us loops hT => makes_effect hF x
  | cond c yes no ihyes ihno => exact builds_cond hF ihyes ihno
  | loop c body ih => exact builds_loop hF ih
  | leave pos =>
    intro T us loops hT
    cases loops with
    | nil => exact makes_refuse
    | cons l ls => exact makes_jump (hT l (List.mem_cons_self ..)).2
  | again pos =>
    intro T us loops hT
    cases loops with
    | nil => exact makes_refuse
    | cons l ls => exact makes_jump (hT l (List.mem_cons_self ..)).1
  | ret value pos => exact fun T us loops hT => makes_ret hF value pos

end Statements

end Tac.Tree.Generate
