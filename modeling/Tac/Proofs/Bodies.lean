import Mathlib
import Tac.Proofs.Expressions

/-!
# Statements

The code of a statement does what its evaluation does, and goes on where the statement leads: behind
itself, to one of the labels of the loop around it, or out of the function.

A turn of a loop passes the label at its head, so an evaluation that spends its turns belongs to a
run of at least as many steps.

* **`Scene.Settles`** — where the run is after a statement.
* **`Scene.executes_node`** — every statement is compiled to what its evaluation does.
-/

namespace Tac.Tree.Generate.Scene

open Run (Reach Status World)
open Meaning (Act Control Eval Locals Store)

variable {S : Scene} {n : Nat}

/-- Locals have their values in their variables, and what is outside is the same. -/
structure Matches (S : Scene) (store : Store) (s : Run.State Unit) : Prop where
  agrees : S.Agrees store.loc s
  world : s.world = store.world

/-- The run is behind some code, where it matches the evaluation. -/
def Passes (S : Scene) (st' : State) (store : Store) (status : Status Unit) : Prop :=
  ∃ t, status = .running st'.stmts.size t ∧ S.Matches store t

/-- The run is where a statement leads, when the labels of the loop around it are at `head` and
`done`. -/
def Settles (S : Scene) (head done : Nat) (st' : State) (c : Control) (store : Store)
    (status : Status Unit) : Prop :=
  match c with
  | .next => S.Passes st' store status
  | .broke => ∃ t, status = .running done t ∧ S.Matches store t
  | .continued => ∃ t, status = .running head t ∧ S.Matches store t
  | .returned x => status = .ended store.world.trace (.returned x store.world.mem ())

/-- The labels of the innermost loop are at `head` and `done`. -/
def Within (S : Scene) (loops : List Loop) (head done : Nat) : Prop :=
  ∀ l ∈ loops.head?, (Flow.labelTable S.code)[l.head]? = some head ∧
    (Flow.labelTable S.code)[l.done]? = some done

/-! ## Expressions in statements -/

section Values

variable {st st' : State} {store : Store} {s : Run.State Unit} {i : Nat}

/-- An expression in a body leaves the locals as they are. -/
theorem follows_evaluate {α : Type} {x : Locals → Eval α} {Q : α → World Unit → Status Unit → Prop}
    (h : S.Follows n i s (x store.loc store.world) Q) :
    S.Follows n i s (Meaning.evaluate x store) fun a store' status =>
      Q a store'.world status ∧ store'.loc = store.loc := by
  unfold Meaning.evaluate
  cases hx : x store.loc store.world with
  | ok p =>
    rw [hx] at h
    obtain ⟨status, hreach, hQ⟩ := h
    exact ⟨status, hreach, hQ, rfl⟩
  | error stop =>
    rw [hx] at h
    exact h

/-- The value of an expression inside something that reads `frozen`. -/
theorem follows_value (hS : S.Sound) {e : Expr} (he : Meaning.Fits e) {frozen : List DeclId}
    (hfrozen : Meaning.mentions e ⊆ frozen) {v : Val}
    (h : (expr S.env e).value st = .ok (v, st')) (hst : S.Starts st) (hlead : S.Leads st')
    (hm : S.Matches store s) :
    S.Follows n st.stmts.size s
      (Meaning.evaluate (fun loc => Meaning.expr S.C loc frozen e) store) fun x store' status =>
        ∃ t, status = .running st'.stmts.size t ∧ S.Matches store' t ∧
          S.Holds frozen st'.temps.size v x t := by
  have hfollows := (renders_expr (n := n) hS e he hfrozen).value h hst hlead hm.agrees
  rw [hm.world] at hfollows
  refine Follows.imp (follows_evaluate hfollows) ?_
  rintro x store' status ⟨⟨t, rfl, hw, hq, hx⟩, hloc⟩
  exact ⟨t, rfl, ⟨hloc ▸ hm.agrees.quiet hq, hw⟩, hx⟩

/-- The jump on a condition that does not hold. -/
theorem follows_test (hS : S.Sound) {e : Expr} (he : Meaning.Fits e) {label : Int}
    (h : (expr S.env e).jump label false st = .ok ((), st')) (hst : S.Starts st)
    (hlead : S.Leads st') {j : Nat} (hj : (Flow.labelTable S.code)[label]? = some j)
    (hm : S.Matches store s) :
    S.Follows n st.stmts.size s (Meaning.value S.C e store) fun x store' status =>
      ∃ t, status = .running (if x = 0 then j else st'.stmts.size) t ∧ S.Matches store' t := by
  have hfollows := (renders_expr (n := n) hS e he (List.Subset.refl _)).jump h hst hlead hj hm.agrees
  rw [hm.world] at hfollows
  refine Follows.imp (follows_evaluate hfollows) ?_
  rintro x store' status ⟨⟨t, rfl, hw, hq⟩, hloc⟩
  exact ⟨t, by simp only [bne_eq_false_iff_eq], hloc ▸ hm.agrees.quiet hq, hw⟩

end Values

/-! ## Writing -/

section Writing

variable {st st' : State} {store : Store} {s : Run.State Unit} {i : Nat} {d : DeclId} {id : VarId}

/-- The match is about the locals and holds in any world the two share. -/
theorem Matches.inWorld (h : S.Matches store s) (w : World Unit) :
    S.Matches { store with world := w } (s.inWorld w) :=
  ⟨h.agrees, rfl⟩

/-- A local without a value says nothing of its variable. -/
theorem Matches.forget (h : S.Matches store s) (d : DeclId) :
    S.Matches { store with loc := Function.update store.loc d none } s := by
  refine ⟨fun d' id x hlook hplace hx => h.agrees hlook hplace ?_, h.world⟩
  dsimp only at hx
  by_cases hd : d' = d
  · subst hd
    rw [Function.update_self] at hx
    cases hx
  · rwa [Function.update_of_ne hd] at hx

/-- No other local has the variable that is assigned. -/
theorem Matches.setVar (hS : S.Sound) (h : S.Matches store s) (hlook : S.look d = some id)
    (hplace : S.C.place d = .held) (x : Word) :
    S.Matches { store with loc := Function.update store.loc d (some x) }
      { s with var := Function.update s.var id x } := by
  refine ⟨fun d' id' y hlook' hplace' hy => ?_, h.world⟩
  dsimp only at hy ⊢
  -- Another local that is held has another variable, since the scene keeps them apart.
  by_cases hd : d' = d
  · subst hd
    rw [hlook] at hlook'
    cases hlook'
    rw [Function.update_self] at hy
    cases hy
    exact Function.update_self ..
  · rw [Function.update_of_ne hd] at hy
    have hid : id' ≠ id := by
      rintro rfl
      exact hd (hS.apart hlook hlook' hplace).symm
    rw [Function.update_of_ne hid]
    exact h.agrees hlook' hplace' hy

/-- A move to the variable of a held local. -/
theorem follows_setLocal (hS : S.Sound) {v : Val} {x : Word}
    (hlead : S.Leads (st.add (.move (.var id) v))) (hlook : S.look d = some id)
    (hplace : S.C.place d = .held) (hm : S.Matches store s) (hx : s.eval S.X v = some x) :
    S.Follows n st.stmts.size s (Meaning.setLocal d (some x) store) fun _ =>
      S.Passes (st.add (.move (.var id) v)) := by
  have hvar : S.X.place? id = some .held := by rw [(hS.place hlook).1, hplace]
  have hexec : Run.exec S.X s (.move (.var id) v) = _ :=
    (Run.exec_move hx).trans (Run.deliver_value (Run.State.assign_held hvar))
  exact .of_ok rfl (hlead.reach hexec) ⟨_, rfl, hm.setVar hS hlook hplace x⟩

/-- A word that can be written is written. -/
theorem follows_put {a x : Word} {Q : Unit → Store → Status Unit → Prop}
    (h : ∀ w, store.world.store S.C.host a x = some w →
      ∃ status, Reach S.X S.code 0 i s status ∧ Q () { store with world := w } status) :
    S.Follows n i s (Meaning.put S.C a x store) Q := by
  unfold Meaning.put
  cases hw : store.world.store S.C.host a x with
  | none => exact follows_fault
  | some w => exact h w hw

/-- A store to the address that a base and an offset give. -/
theorem follows_store (hS : S.Sound) {base v : Val} {off : Int} {b x : Word}
    (hlead : S.Leads (st.add (.store base off v))) (hm : S.Matches store s)
    (hb : s.eval S.X base = some b) (hx : s.eval S.X v = some x) :
    S.Follows n st.stmts.size s (Meaning.put S.C (b + word off) x store) fun _ =>
      S.Passes (st.add (.store base off v)) := by
  refine follows_put fun w hw => ?_
  rw [← hS.host, ← hm.world] at hw
  exact ⟨_, (hlead.reach (Run.exec_store hb hx hw)).eventually, _, rfl, hm.inWorld w⟩

/-- A move to a variable in memory. -/
theorem follows_putScalar (hS : S.Sound) {v : Val} {x : Word}
    (hlead : S.Leads (st.add (.move (.var id) v))) (hlook : S.look d = some id)
    (hplace : S.C.place d = .memory) (hm : S.Matches store s) (hx : s.eval S.X v = some x) :
    S.Follows n st.stmts.size s (Meaning.put S.C (S.C.addr d) x store) fun _ =>
      S.Passes (st.add (.move (.var id) v)) := by
  obtain ⟨hvar, haddr⟩ := hS.place hlook
  rw [hplace] at hvar
  refine follows_put fun w hw => ?_
  rw [← hS.host, ← hm.world, ← haddr] at hw
  -- A scalar in memory is assigned by a store at its address.
  have hassign : s.assign S.X x (.var id) = some (s.inWorld w) := by
    rw [Run.State.assign_memory hvar, hw]
    rfl
  have hexec : Run.exec S.X s (.move (.var id) v) = _ :=
    (Run.exec_move hx).trans (Run.deliver_value hassign)
  exact ⟨_, (hlead.reach hexec).eventually, _, rfl, hm.inWorld w⟩

/-- An assignment to a scalar. -/
theorem follows_setScalar (hS : S.Sound) {v : Val} {x : Word}
    (hlead : S.Leads (st.add (.move (.var id) v))) (hlook : S.look d = some id)
    (hscalar : (S.C.decls.at d).isArray = false) (hm : S.Matches store s)
    (hx : s.eval S.X v = some x) :
    S.Follows n st.stmts.size s
      ((match S.C.place d with
        | .held => Meaning.setLocal d (some x)
        | _ => Meaning.put S.C (S.C.addr d) x) store) fun _ =>
      S.Passes (st.add (.move (.var id) v)) := by
  -- A scalar is held or lies in memory; an array is no scalar.
  cases hp : S.C.place d with
  | held => exact follows_setLocal hS hlead hlook hp hm hx
  | memory => exact follows_putScalar hS hlead hlook hp hm hx
  | array => exact absurd hp (place_ne_array hscalar)

/-- An assignment: the value, then the address, then the store. -/
theorem follows_assign (hS : S.Sound) {index : List Expr} {e : Expr} (hindex : Meaning.FitAll index)
    (he : Meaning.Fits e) {tp pos : Pos} (h : assign S.env d index tp e pos st = .ok ((), st'))
    (hst : S.Starts st) (hlead : S.Leads st') (hm : S.Matches store s) :
    S.Follows n st.stmts.size s (Meaning.assign S.C d index e store) fun _ => S.Passes st' := by
  have hcode : Adds S.env.decls [] (expr S.env e).value := (codeOnly_expr _ _ e).value
  obtain ⟨v, st₁, id, hv, hid, hcases⟩ := assign_inv h
  unfold Meaning.assign
  have hsub := List.subset_append_left (Meaning.mentions e) (Meaning.mentionsAll index)
  rcases hcases with ⟨hscalar, rfl⟩ | ⟨harray, -, base, off, st₂, haddr, rfl⟩
  -- To a scalar: the value, then a move or a store.
  · rw [← hS.decls] at hscalar
    refine Follows.bind (follows_value hS he hsub hv hst hlead.of_add hm) ?_
    rintro x store' - ⟨t, rfl, hm', hx⟩
    refine ⟨_, t, rfl, ?_⟩
    rw [hscalar]
    exact follows_setScalar hS hlead (hlead.of_add.look hS hid) hscalar hm' hx.1
  -- To an element: the value comes first, and has to survive the code of the address.
  · have haddr' : Adds S.env.decls [] (address S.env id tp (S.env.decls.at d) (exprs S.env index)) :=
      adds_address _ _ _ (codeOnly_exprs fun e _ => codeOnly_expr _ _ e)
    have hlead₁ : S.Leads st₁ := hlead.of_add.of_adds haddr' haddr
    rw [← hS.decls] at harray
    refine Follows.bind (follows_value hS he hsub hv hst hlead₁ hm) ?_
    rintro x store' - ⟨t, rfl, hm', hx⟩
    refine ⟨_, t, rfl, ?_⟩
    rw [harray]
    have hrender : ∀ e' ∈ index, S.Rendered n (Meaning.mentions e ++ Meaning.mentionsAll index)
        store'.loc e' := fun e' hmem => renders_expr hS e' (Meaning.fits_of_mem hindex hmem)
      (List.Subset.trans (mentions_of_mem hmem) (List.subset_append_right _ _))
    have hfollows := follows_address hS (hlead₁.look hS hid) harray hindex hrender haddr
      (hst.of_adds hcode hv) hlead.of_add hm'.agrees
    rw [hm'.world] at hfollows
    refine Follows.bind (follows_evaluate hfollows) ?_
    rintro a store'' - ⟨⟨b, ⟨t', rfl, hw, hq, hb⟩, rfl⟩, hloc⟩
    have hm'' : S.Matches store'' t' := ⟨hloc ▸ hm'.agrees.quiet hq, hw⟩
    exact ⟨_, t', rfl, follows_store hS hlead hm'' hb.1 (hx.quiet hS hq).1⟩

end Writing

/-! ## Declarations -/

section Declarations

variable {st st' : State} {store : Store} {s : Run.State Unit} {d : DeclId} {id : VarId}

/-- A variable that was declared is found later on. -/
theorem get?_of_prefix {vars vars' : VarTable} {v : Var}
    (h : (vars.push v).toList <+: vars'.toList) : vars'.get? (vars.size : Int) = some v := by
  obtain ⟨more, hmore⟩ := h
  rw [VarTable.get?, if_pos (Int.natCast_nonneg _), Int.toNat_natCast, ← Array.getElem?_toList,
    ← hmore]
  simp

/-- The variable that a declaration gets. -/
theorem Leads.newLocal (h : S.Leads (st.newLocal (S.env.decls.at d) d)) :
    S.look d = some (st.vars.size : Int) ∧ ∃ v, S.X.vars.get? st.vars.size = some v ∧ v.cls = .loc ∧
      v.dims = shape (S.env.decls.at d) := by
  constructor
  · have hscope : (st.newLocal (S.env.decls.at d) d).scope[d]? = some (st.vars.size : Int) :=
      Std.TreeMap.getElem?_insert_self
    rw [Scene.look, h.scope hscope, Option.some_or]
  · exact ⟨_, get?_of_prefix h.vars, rfl, rfl⟩

theorem isArray_of_shape {v : Var} {x : Decl} (h : v.dims = shape x) : v.isArray = x.isArray := by
  rw [Var.isArray, h, shape]
  cases x.isArray <;> rfl

/-- Declarations of the same shape have as many elements. -/
theorem elems_of_shape {v : Var} {x : Decl} (h : v.dims = shape x) (hx : x.isArray = true) :
    v.elems = x.elems := by
  rw [Var.elems, h, shape, hx]
  rfl

/-- A declared array is in memory, a declared scalar is held. -/
theorem Leads.place_newLocal (hS : S.Sound) (h : S.Leads (st.newLocal (S.env.decls.at d) d)) :
    S.C.place d = if (S.env.decls.at d).isArray then .array else .held := by
  obtain ⟨hlook, v, hv, hcls, hdims⟩ := h.newLocal
  have hplace := (hS.place hlook).1
  rw [Run.Setting.place?, hv] at hplace
  simp only [Option.map_some, hcls, isArray_of_shape hdims] at hplace
  cases harray : (S.env.decls.at d).isArray <;> simpa [harray] using hplace.symm

/-- Whether an initial value is zero is known from its folding. -/
theorem follows_isZero (hS : S.Sound) {e : Expr} (he : Meaning.Fits e) {c : Option Int}
    (hc : e.fold S.env.decls = .ok c) (i : Nat) :
    S.Follows n i s (Meaning.isZero S.C.decls e store) fun b store' status =>
      b = decide (c = some 0) ∧ store' = store ∧ status = .running i s := by
  have hfolds := Meaning.folds_constant hS.fits he
  rw [hc] at hfolds
  unfold Meaning.isZero
  rw [hS.decls]
  -- Folding and the meaning agree on which initial values are constants, and on whether they
  -- are zero.
  cases hk : Meaning.constant S.env.decls e with
  | error e => exact follows_fault
  | ok o =>
    rw [hk] at hfolds
    cases hfolds with
    | varying hne =>
      refine .of_ok rfl (.refl i s) ⟨?_, rfl, rfl⟩
      rw [decide_eq_false fun hzero => hne 0 (by rw [hzero])]
      rfl
    | value hsmall =>
      refine .of_ok rfl (.refl i s) ⟨?_, rfl, rfl⟩
      rw [Bool.eq_iff_iff, beq_iff_eq, decide_eq_true_eq, Option.some_inj, Option.some_inj]
      exact Meaning.word_eq_zero hsmall

/-- Initial values are stored from element `k` on. -/
theorem follows_storeInits (hS : S.Sound) (hlook : S.look d = some id)
    (hplace : S.C.place d = .array) {zeroed : Bool} {es : List Expr} (hes : Meaning.FitAll es) {k : Int}
    (h : initElements S.env id zeroed k es st = .ok ((), st')) (hst : S.Starts st)
    (hlead : S.Leads st') (hm : S.Matches store s) :
    S.Follows n st.stmts.size s (Meaning.storeInits S.C (S.C.addr d) zeroed k es store) fun _ =>
      S.Passes st' := by
  obtain ⟨hvar, haddr⟩ := hS.place hlook
  rw [hplace] at hvar
  -- On the initial values, with the offset of the first.
  induction es generalizing k st store s with
  | nil =>
    obtain ⟨-, rfl⟩ := pure_inv h
    exact .of_ok rfl (.refl _ s) ⟨s, rfl, hm⟩
  | cons e es ih =>
    -- An element without an initial value is skipped, by both.
    by_cases he : e = .absent
    · subst he
      exact ih hes.2 h hst hm
    obtain ⟨c, st₁, hc, hrest, hcases⟩ := initElement_inv he h
    have hadds : Adds S.env.decls [] (initElements S.env id zeroed (k + 1) es) :=
      adds_initElements _ _ _ _ _
    have hlead₁ := hlead.of_adds hadds hrest
    rw [const_expr] at hc
    rw [Meaning.storeInits]
    · refine Follows.bind (follows_isZero hS hes.1 hc _) ?_
      rintro b store' - ⟨rfl, rfl, rfl⟩
      refine ⟨_, s, rfl, ?_⟩
      dsimp only
      -- A zero is not stored where everything was cleared before.
      rcases hcases with ⟨⟨hzero, hzeroed⟩, rfl⟩ | ⟨hzero, v, st₀, hv, rfl⟩
      · rw [if_pos (by rw [hzero, hzeroed]; rfl)]
        exact ih hes.2 hrest hst hm
      · rw [if_neg (by rwa [Bool.and_eq_true, decide_eq_true_eq, and_comm])]
        refine Follows.bind (follows_value hS hes.1 (List.Subset.refl _) hv hst hlead₁.of_add hm) ?_
        rintro x store₁ - ⟨t₁, rfl, hm₁, hx⟩
        have hbase : t₁.eval S.X (.var id) = some (S.C.addr d) := by
          rw [Run.State.eval_array hvar, haddr]
        refine ⟨_, t₁, rfl, Follows.bind (follows_store hS hlead₁ hm₁ hbase hx.1) ?_⟩
        rintro - store₂ - ⟨t₂, rfl, hm₂⟩
        have hst₀ := hst.of_adds (codeOnly_expr S.env.decls S.env e).value hv
        exact ⟨_, t₂, rfl, ih hes.2 hrest (hst₀.grown (.add st₀ rfl)) hm₂⟩
    · exact he

/-- The zero fill of an array that was just declared. -/
theorem follows_clear (hS : S.Sound) (hlocal : S.Leads (st.newLocal (S.env.decls.at d) d))
    (harray : (S.env.decls.at d).isArray = true)
    (hlead : S.Leads ((st.newLocal (S.env.decls.at d) d).add (.zeroFill (.var st.vars.size))))
    (hm : S.Matches store s) :
    S.Follows n (st.newLocal (S.env.decls.at d) d).stmts.size s
      (Meaning.clear S.C (S.C.addr d) (S.env.decls.at d).elems.toNat store) fun _ =>
        S.Passes ((st.newLocal (S.env.decls.at d) d).add (.zeroFill (.var st.vars.size))) := by
  -- The local that was just added is the one that is cleared.
  obtain ⟨hlook, v, hv, hcls, hdims⟩ := hlocal.newLocal
  unfold Meaning.clear
  cases hw : store.world.clear S.C.host (S.C.addr d) (S.env.decls.at d).elems.toNat with
  | none => exact follows_fault
  | some w =>
    rw [← hS.host, ← hm.world, ← (hS.place hlook).2, ← elems_of_shape hdims harray] at hw
    have hexec := Run.exec_zeroFill hv ⟨hcls, (isArray_of_shape hdims).trans harray⟩ hw
    exact .of_ok rfl (hlead.reach hexec) ⟨_, rfl, hm.inWorld w⟩

/-- The initial values of an array that was just declared. -/
theorem follows_inits (hS : S.Sound) (harray : (S.env.decls.at d).isArray = true) {zeroed : Bool}
    {init : List Expr} (hinit : Meaning.FitAll init)
    (h : initElements S.env st.vars.size zeroed 0 init
      (if zeroed then (st.newLocal (S.env.decls.at d) d).add (.zeroFill (.var st.vars.size))
        else st.newLocal (S.env.decls.at d) d) = .ok ((), st'))
    (hst : S.Starts (st.newLocal (S.env.decls.at d) d)) (hlead : S.Leads st')
    (hm : S.Matches store s) :
    S.Follows n (st.newLocal (S.env.decls.at d) d).stmts.size s
      ((if zeroed then do
          Meaning.clear S.C (S.C.addr d) (S.env.decls.at d).elems.toNat
          Meaning.storeInits S.C (S.C.addr d) zeroed 0 init
        else Meaning.storeInits S.C (S.C.addr d) zeroed 0 init) store) fun _ => S.Passes st' := by
  have hadds : Adds S.env.decls [] (initElements S.env st.vars.size zeroed 0 init) :=
    adds_initElements _ _ _ _ _
  have hlead₀ := hlead.of_adds hadds h
  have hlocal : S.Leads (st.newLocal (S.env.decls.at d) d) := by
    -- If most of the array is zero it is cleared at once, and only the rest is stored.
    cases zeroed with
    | false => exact hlead₀
    | true => exact hlead₀.of_add
  have hlook := hlocal.newLocal.1
  have hplace := hlocal.place_newLocal hS
  rw [harray] at hplace
  cases zeroed with
  | false => exact follows_storeInits hS hlook hplace hinit h hst hlead hm
  | true =>
    refine Follows.bind (follows_clear hS hlocal harray hlead₀ hm) ?_
    rintro - store' - ⟨t, rfl, hm'⟩
    exact ⟨_, t, rfl, follows_storeInits hS hlook hplace hinit h (hst.grown (.add _ rfl)) hlead hm'⟩

/-- A declaration forgets the old value and sets the initial ones. -/
theorem follows_declare (hS : S.Sound) (h : declare S.env d st = .ok ((), st')) (hst : S.Starts st)
    (hlead : S.Leads st') (hm : S.Matches store s) :
    S.Follows n st.stmts.size s (Meaning.declare S.C d store) fun _ => S.Passes st' := by
  have hm₀ := hm.forget d
  have hst₀ : S.Starts (st.newLocal (S.env.decls.at d) d) := hst
  have hsize : (st.newLocal (S.env.decls.at d) d).stmts.size = st.stmts.size := rfl
  unfold Meaning.declare
  refine Follows.bind (Q := fun _ store' status => store' = _ ∧ status = .running st.stmts.size s)
    (.of_ok rfl (.refl _ s) ⟨rfl, rfl⟩) ?_
  rintro - - - ⟨rfl, rfl⟩
  refine ⟨_, s, rfl, ?_⟩
  dsimp only
  rw [hS.decls, ← hsize]
  -- No initial value, one for a scalar, or a list for an array.
  rcases declare_inv h with ⟨hinit, rfl⟩ | ⟨e, es, v, st₁, hinit, hscalar, hv, rfl⟩ |
    ⟨init, hinit, harray, hrest⟩
  · rw [hinit]
    exact .of_ok rfl (.refl _ s) ⟨s, rfl, hm₀⟩
  · rw [hinit]
    simp only [hscalar, Bool.not_false, if_true]
    have hcode : Adds S.env.decls [] (expr S.env e).value := (codeOnly_expr _ _ e).value
    have hlocal := hlead.of_add.of_adds hcode hv
    have hplace := hlocal.place_newLocal hS
    rw [hscalar] at hplace
    have he : Meaning.Fits e := (hS.fits d _ hinit).1
    refine Follows.bind (follows_value hS he (List.Subset.refl _) hv hst₀ hlead.of_add hm₀) ?_
    rintro x store' - ⟨t, rfl, hm', hx⟩
    exact ⟨_, t, rfl, follows_setLocal hS hlead hlocal.newLocal.1 hplace hm' hx.1⟩
  · rw [hinit]
    simp only [harray, Bool.not_true, Bool.false_eq_true, if_false]
    exact follows_inits hS harray (hS.fits d _ hinit) hrest hst₀ hlead hm₀

end Declarations

/-! ## Control -/

section Control

variable {st st' st₁ : State} {store : Store} {s : Run.State Unit} {i head done : Nat}

/-- Code behind a statement that only moves on. -/
theorem Follows.passOn {r : Except Meaning.Stop (Control × Store)}
    (h : S.Follows n i s r (S.Settles head done st₁))
    (hreach : ∀ t, Reach S.X S.code 0 st₁.stmts.size t (.running st'.stmts.size t)) :
    S.Follows n i s r (S.Settles head done st') := by
  cases r with
  | error stop => exact h
  | ok p =>
    obtain ⟨c, store'⟩ := p
    -- Only a body that goes on comes to what is behind it.
    cases c with
    | next =>
      obtain ⟨-, hgo, t, rfl, hm⟩ := h
      exact ⟨_, hgo.trans (hreach t), t, rfl, hm⟩
    | broke | continued | returned => exact h

/-- A statement after another: it is reached only if that one goes on. -/
theorem Follows.andThen {x : Act Control} {f : Control → Act Control}
    (hx : S.Follows n i s (x store) (S.Settles head done st₁))
    (hnext : ∀ store' t, S.Matches store' t →
      S.Follows n st₁.stmts.size t (f .next store') (S.Settles head done st'))
    (hother : ∀ c store', c ≠ .next → f c store' = .ok (c, store')) :
    S.Follows n i s ((x >>= f) store) (S.Settles head done st') := by
  refine hx.chain fun c store' status hsettles => ?_
  -- A body that leaves the loop or returns ends the whole.
  cases c with
  | next =>
    obtain ⟨t, rfl, hm⟩ := hsettles
    exact Or.inl ⟨_, t, rfl, hnext store' t hm⟩
  | broke => exact Or.inr ⟨.broke, store', hother _ _ nofun, hsettles⟩
  | continued => exact Or.inr ⟨.continued, store', hother _ _ nofun, hsettles⟩
  | returned v => exact Or.inr ⟨.returned v, store', hother _ _ nofun, hsettles⟩

/-- The turns of a loop with its head at `p`, its test at `a`, its body at `b` and its end at `q`.
Each turn passes the head, so `m` turns are at least `m` steps. -/
theorem follows_turns {test : Act Word} {body : Act Control} {p a b q : Nat}
    (hhead : ∀ t, Reach S.X S.code 1 p t (.running a t))
    (htest : ∀ store t, S.Matches store t → S.Follows n a t (test store)
      fun x store' status => ∃ u, status = .running (if x = 0 then q else b) u ∧
        S.Matches store' u)
    (hbody : ∀ store t, S.Matches store t →
      S.Follows n b t (body store) (S.Settles p q st₁))
    (hback : ∀ t, Reach S.X S.code 0 st₁.stmts.size t (.running p t))
    (hend : ∀ t, Reach S.X S.code 0 q t (.running st'.stmts.size t)) {m : Nat} (hmn : m ≤ n)
    (hm : S.Matches store s) :
    S.Follows m p s (Meaning.turns test body m store) (S.Settles head done st') := by
  -- On the turns the evaluation is given; a loop that needs more has no meaning here.
  induction m generalizing store s with
  | zero => exact ⟨p, s, .refl p s, by rw [hm.world]⟩
  | succ m ih =>
    have hmn' : m ≤ n := Nat.le_of_succ_le hmn
    refine (Follows.after (hhead s) (Follows.bind ((htest store s hm).fewer hmn') ?_)).fewer
      (Nat.le_of_eq (Nat.add_comm m 1))
    rintro x store₁ - ⟨u, rfl, hm₁⟩
    refine ⟨_, u, rfl, ?_⟩
    -- The test fails and the loop is left, or there is one more turn.
    by_cases hx : x = 0
    · rw [if_pos hx, if_pos hx]
      exact .of_ok rfl (hend u) ⟨u, rfl, hm₁⟩
    · rw [if_neg hx, if_neg hx]
      refine Follows.chain ((hbody store₁ u hm₁).fewer hmn') fun c store₂ status hc => ?_
      -- Each way the body can end is a place in the code: its end, the head of the loop, or
      -- the label behind it.
      cases c with
      | next =>
        obtain ⟨t, rfl, hm₂⟩ := hc
        exact Or.inl ⟨_, t, rfl, ((ih hmn' hm₂).after (hback t)).fewer (Nat.le_add_left _ _)⟩
      | continued =>
        obtain ⟨t, rfl, hm₂⟩ := hc
        exact Or.inl ⟨_, t, rfl, ih hmn' hm₂⟩
      | broke =>
        obtain ⟨t, rfl, hm₂⟩ := hc
        exact Or.inl ⟨_, t, rfl, .of_ok rfl (hend t) ⟨t, rfl, hm₂⟩⟩
      | returned v => exact Or.inr ⟨.returned v, store₂, rfl, hc⟩

end Control

/-! ## All statements -/

/-- The code of a piece of tree that declares `ds` does what its evaluation does. -/
def Executes (S : Scene) (n : Nat) (g : List Loop → Gen Unit) (ds : List DeclId)
    (x : Act Control) : Prop :=
  ∀ ⦃loops st st'⦄, g loops st = .ok ((), st') → S.Starts st → S.Leads st' → Fresh ds st →
    ∀ ⦃head done⦄, S.Within loops head done → ∀ ⦃store s⦄, S.Matches store s →
    S.Follows n st.stmts.size s (x store) (S.Settles head done st')

/-- The same of one statement. -/
def Executed (S : Scene) (n : Nat) (nd : Node) : Prop :=
  S.Executes n (fun loops => node S.env loops nd) (declared nd) (Meaning.node S.C n nd)

section Statements

variable {c : Expr} {yes no body : Node}

/-- A statement that only goes on. -/
theorem follows_next {st' : State} {x : Act Unit} {store : Store} {s : Run.State Unit} {i : Nat}
    (h : S.Follows n i s (x store) fun _ => S.Passes st') (head done : Nat) :
    S.Follows n i s ((x >>= fun _ => pure .next : Act Control) store) (S.Settles head done st') := by
  refine Follows.bind h ?_
  rintro - store' - ⟨t, rfl, hm⟩
  exact ⟨_, t, rfl, .of_ok rfl (.refl _ t) ⟨t, rfl, hm⟩⟩

/-- The code of a conditional does what its two branches do. -/
theorem executes_cond (hS : S.Sound) (hc : Meaning.Fits c) (hyes : S.Executed n yes)
    (hno : S.Executed n no) : S.Executed n (.cond c yes no) := by
  intro loops st st' h hst hlead hfresh head done hloops store s hm
  obtain ⟨st₁, st₂, hjump, h₂, hrest⟩ := cond_inv h
  obtain ⟨hgrown₁, hdecl₁⟩ := (codeOnly_expr S.env.decls S.env c).jump _ _ hjump
  obtain ⟨hgrown₂, hdecl₂⟩ := adds_node S.env yes loops h₂
  have hst₁ : S.Starts st₁ := hst.drawLabel.grown hgrown₁
  have hfresh₁ : Fresh (declared yes ++ declared no) st₁ := by
    have hdraw : Declared S.env.decls [] st st.drawLabel := .none rfl rfl rfl
    exact hfresh.of_declared (hdraw.trans hdecl₁)
  rw [Meaning.node]
  -- Without a second branch the code has one label, with it two and a jump between the
  -- branches.
  rcases hrest with ⟨rfl, rfl⟩ | ⟨st₃, h₃, rfl⟩
  · have hlead₂ : S.Leads st₂ := hlead.of_add
    have hlabel : ∀ t, Reach S.X S.code 0 st₂.stmts.size t
        (.running (st₂.add (.label st.counters.labels)).stmts.size t) := fun t =>
      (hlead.reach_label t).eventually
    refine Follows.bind (follows_test hS hc hjump hst.drawLabel
      (hlead₂.back hgrown₂ hdecl₂ hfresh₁.left) (hS.labelTable_add hlead) hm) ?_
    rintro x store' - ⟨t, rfl, hm'⟩
    refine ⟨_, t, rfl, ?_⟩
    by_cases hx : x = 0
    · rw [if_pos hx, if_pos hx]
      exact .of_ok rfl (hlabel t) ⟨t, rfl, hm'⟩
    · rw [if_neg hx, if_neg hx]
      exact (hyes h₂ hst₁ hlead₂ hfresh₁.left hloops hm').passOn hlabel
  · obtain ⟨hgrown₃, hdecl₃⟩ := adds_node S.env no loops h₃
    have hmiddle : Declared S.env.decls [] st₂ ((st₂.drawLabel.add (.jump st₂.counters.labels)).add
      (.label st.counters.labels)) := .none rfl rfl rfl
    have hfresh₃ := (hfresh₁.right hdecl₂).of_declared hmiddle
    have hlead₃ : S.Leads st₃ := hlead.of_add
    have hlead_els := hlead₃.back hgrown₃ hdecl₃ hfresh₃
    -- From the end of the code back to its beginning, piece by piece.
    have hlead₂ : S.Leads st₂ := hlead_els.of_add.of_add.of_drawLabel
    have hlabel : ∀ t, Reach S.X S.code 0 st₃.stmts.size t
        (.running (st₃.add (.label st₂.counters.labels)).stmts.size t) := fun t =>
      (hlead.reach_label t).eventually
    refine Follows.bind (follows_test hS hc hjump hst.drawLabel
      (hlead₂.back hgrown₂ hdecl₂ hfresh₁.left) (hS.labelTable_add hlead_els) hm) ?_
    rintro x store' - ⟨t, rfl, hm'⟩
    refine ⟨_, t, rfl, ?_⟩
    by_cases hx : x = 0
    · rw [if_pos hx, if_pos hx]
      have hst_no := ((hst₁.grown hgrown₂).drawLabel.grown
        (Grown.add st₂.drawLabel (s := .jump st₂.counters.labels) rfl))
      -- The first branch is passed over, so the steps of its code are not taken.
      refine ((hno h₃ hst_no hlead₃ hfresh₃ hloops hm').after (hlead_els.reach_label t)).fewer
        (Nat.le_add_left _ _) |>.passOn hlabel
    · rw [if_neg hx, if_neg hx]
      refine (hyes h₂ hst₁ hlead₂ hfresh₁.left hloops hm').passOn fun t => ?_
      exact ((hlead_els.of_add.reach_goto rfl (hS.labelTable_add hlead)).trans
        (hlead.reach_label t)).eventually

/-- The code of a loop does what its turns do. -/
theorem executes_loop (hS : S.Sound) (hc : Meaning.Fits c) (hbody : S.Executed n body) :
    S.Executed n (.loop c body) := by
  intro loops st st' h hst hlead hfresh head done hloops store s hm
  obtain ⟨st₁, st₂, hjump, h₂, rfl⟩ := loop_inv h
  obtain ⟨hgrown₁, hdecl₁⟩ := (codeOnly_expr S.env.decls S.env c).jump _ _ hjump
  obtain ⟨hgrown₂, hdecl₂⟩ := adds_node S.env body _ h₂
  have hdraw : Declared S.env.decls [] st
    (st.drawLabel.drawLabel.add (.label st.counters.labels)) := .none rfl rfl rfl
  have hfresh₁ := hfresh.of_declared (hdraw.trans hdecl₁)
  have hlead₂ : S.Leads st₂ := hlead.of_add.of_add
  have hlead₁ : S.Leads st₁ := hlead₂.back hgrown₂ hdecl₂ hfresh₁
  have hlead₀ : S.Leads (st.drawLabel.drawLabel.add (.label st.counters.labels)) :=
    hlead₁.before hgrown₁ hdecl₁
  have hst₀ : S.Starts (st.drawLabel.drawLabel.add (.label st.counters.labels)) := hst
  have hhead := hS.labelTable_add hlead₀
  have hdone := hS.labelTable_add hlead
  -- Inside the body, leaving and going on refer to the two labels of this loop.
  have hinside : S.Within ({ head := st.counters.labels, done := st.drawLabel.counters.labels } ::
      loops) st.drawLabel.drawLabel.stmts.size (st₂.add (.jump st.counters.labels)).stmts.size := by
    rintro l ⟨⟩
    exact ⟨hhead, hdone⟩
  rw [Meaning.node]
  -- Every piece of the code is one of the assumptions of `follows_turns`.
  exact follows_turns (fun t => hlead₀.reach_label t)
    (fun _ _ hm => follows_test hS hc hjump hst₀ hlead₁ hdone hm)
    (fun _ _ hm => hbody h₂ (hst₀.grown hgrown₁) hlead₂ hfresh₁ hinside hm)
    (fun t => (hlead.of_add.reach_goto rfl hhead).eventually)
    (fun t => (hlead.reach_label t).eventually) (Nat.le_refl n) hm

/-- The code of a return evaluates the result and ends the run. -/
theorem executes_ret (hS : S.Sound) {value : Option Expr} {pos : Pos}
    (hfits : Meaning.NodeFits (.ret value pos)) : S.Executed n (.ret value pos) := by
  intro loops st st' h hst hlead hfresh head done hloops store s hm
  obtain ⟨rfl, -, rfl⟩ | ⟨e, v, st₁, rfl, -, hv, rfl⟩ := ret_inv h
  · rw [Meaning.node]
    refine .of_ok rfl (hlead.reach_ended rfl) ?_
    rw [Settles, ← hm.world]
  · rw [Meaning.node]
    refine Follows.chain (follows_value hS hfits (List.Subset.refl _) hv hst hlead.of_add hm) ?_
    rintro x store' - ⟨t, rfl, hm', hx⟩
    refine Or.inl ⟨_, t, rfl, .of_ok rfl (hlead.reach_ended (Run.exec_ret hx.1)) ?_⟩
    rw [Settles, ← hm'.world]

/-- The code of an expression that stands by itself evaluates it. -/
theorem executes_effect (hS : S.Sound) {e : Expr} (he : Meaning.Fits e) : S.Executed n (.eval e) := by
  intro loops st st' h hst hlead hfresh head done hloops store s hm
  rw [Meaning.node]
  refine follows_next ?_ head done
  obtain ⟨name, callee, args, pos, v, rfl, hv⟩ | ⟨-, v, hv⟩ := effect_inv h
  · -- a call for its effect has no place for its result
    have hargs : ∀ e ∈ args, S.Rendered n (Meaning.mentionsAll args) store.loc e := fun e hmem =>
      renders_expr hS e (Meaning.fits_of_mem he hmem) (mentions_of_mem hmem)
    have hcall := follows_call hS hargs hv hst hlead hm.agrees
    rw [hm.world] at hcall
    refine Follows.bind (follows_evaluate (x := fun loc => Meaning.call S.C
      (Meaning.mentionsAll args) name (Meaning.exprs S.C loc (Meaning.mentionsAll args) args))
      hcall) ?_
    rintro x store' - ⟨⟨t, rfl, hw, hq, -⟩, hloc⟩
    exact ⟨_, t, rfl, .of_ok rfl (.refl _ t) ⟨t, rfl, hloc ▸ hm.agrees.quiet hq, hw⟩⟩
  -- Any other expression is computed and its value forgotten.
  · refine Follows.bind (follows_value hS he (List.Subset.refl _) hv hst hlead hm) ?_
    rintro x store' - ⟨t, rfl, hm', -⟩
    exact ⟨_, t, rfl, .of_ok rfl (.refl _ t) ⟨t, rfl, hm'⟩⟩

/-- The code of a list of statements does what they do one after the other. -/
theorem executes_nodes {items : List Node} (h : ∀ nd ∈ items, S.Executed n nd) :
    S.Executes n (fun loops => nodes S.env loops items) (declaredAll items)
      (Meaning.nodes S.C n items) := by
  -- On the list; a statement that leaves it goes to where it says, past the code of the
  -- others.
  induction items with
  | nil =>
    intro loops st st' hrun hst hlead hfresh head done hloops store s hm
    obtain ⟨-, rfl⟩ := pure_inv hrun
    exact .of_ok rfl (.refl _ s) ⟨s, rfl, hm⟩
  | cons nd items ih =>
    intro loops st st' hrun hst hlead hfresh head done hloops store s hm
    rw [List.forall_mem_cons] at h
    obtain ⟨⟨⟩, st₁, h₁, h₂⟩ := bind_eq_ok hrun
    obtain ⟨hgrown₁, hdecl₁⟩ := adds_node S.env nd loops h₁
    obtain ⟨hgrown₂, hdecl₂⟩ := adds_nodes (fun nd _ => adds_node S.env nd) loops h₂
    rw [declaredAll] at hfresh
    have hfresh₂ := hfresh.right hdecl₁
    rw [Meaning.nodes]
    refine (h.1 h₁ hst (hlead.back hgrown₂ hdecl₂ hfresh₂) hfresh.left hloops hm).andThen
      (fun store' t hm' => ih h.2 h₂ (hst.grown hgrown₁) hlead hfresh₂ hloops hm') ?_
    intro c store' hc
    -- Only a statement that goes on leads to the next one.
    cases c with
    | next => exact absurd rfl hc
    | broke | continued | returned => rfl

/-- The code of every statement does what its evaluation does. -/
theorem executes_node (hS : S.Sound) (nd : Node) (hfits : Meaning.NodeFits nd) :
    S.Executed n nd := by
  -- On the tree, one case for each kind of statement.
  induction nd using Node.induction with
  | skip =>
    intro loops st st' h hst hlead hfresh head done hloops store s hm
    obtain ⟨-, rfl⟩ := pure_inv h
    exact .of_ok rfl (.refl _ s) ⟨s, rfl, hm⟩
  -- A block has no code besides that of its statements.
  | block items ih =>
    have hitems : ∀ nd ∈ items, S.Executed n nd := fun nd hmem =>
      ih nd hmem (Meaning.nodeFits_of_mem hfits hmem)
    intro loops st st' h hst hlead hfresh head done hloops store s hm
    rw [Meaning.node]
    exact executes_nodes hitems h hst hlead hfresh hloops hm
  | declare d =>
    intro loops st st' h hst hlead hfresh head done hloops store s hm
    rw [Meaning.node]
    exact follows_next (follows_declare hS h hst hlead hm) head done
  | assign target index tp e pos =>
    intro loops st st' h hst hlead hfresh head done hloops store s hm
    rw [Meaning.node]
    exact follows_next (follows_assign hS hfits.1 hfits.2 h hst hlead hm) head done
  | eval e => exact executes_effect hS hfits
  | cond c yes no ihyes ihno =>
    exact executes_cond hS hfits.1 (ihyes hfits.2.1) (ihno hfits.2.2)
  | loop c body ih => exact executes_loop hS hfits.1 (ih hfits.2)
  -- Leaving and going on need a loop around them, without which generation refuses.
  | leave pos =>
    intro loops st st' h hst hlead hfresh head done hloops store s hm
    cases loops with
    | nil => exact (refuse_inv h).elim
    | cons l ls =>
      obtain rfl := emit_inv h
      exact .of_ok rfl (hlead.reach_goto rfl (hloops l rfl).2) ⟨s, rfl, hm⟩
  | again pos =>
    intro loops st st' h hst hlead hfresh head done hloops store s hm
    cases loops with
    | nil => exact (refuse_inv h).elim
    | cons l ls =>
      obtain rfl := emit_inv h
      exact .of_ok rfl (hlead.reach_goto rfl (hloops l rfl).1) ⟨s, rfl, hm⟩
  | ret value pos => exact executes_ret hS hfits

/-- The code of a function with a return at its end does what the evaluation of the function does. -/
theorem follows_function (hS : S.Sound) {f : FuncDef} (hfits : Meaning.NodesFit f.body)
    {st st₁ : State} (h : nodes S.env [] f.body st = .ok ((), st₁)) (hst : S.Starts st)
    (hlead : S.Leads (st₁.add (.ret (if f.void then none else some (.const 0)))))
    (hfresh : Fresh (declaredAll f.body) st) {store : Store} {s : Run.State Unit}
    (hm : S.Matches store s) :
    S.Follows n st.stmts.size s (Meaning.function S.C f n store) fun v store' status =>
      status = .ended store'.world.trace (.returned v store'.world.mem ()) := by
  have hbody : ∀ nd ∈ f.body, S.Executed n nd := fun nd hmem =>
    executes_node hS nd (Meaning.nodeFits_of_mem hfits hmem)
  have houtside : S.Within [] 0 0 := nofun
  refine Follows.chain (executes_nodes hbody h hst hlead.of_add hfresh houtside hm)
    fun c store' status hc => ?_
  -- A body that runs to its end returns zero, or nothing at all.
  cases c with
  | next =>
    obtain ⟨t, rfl, hm'⟩ := hc
    refine Or.inl ⟨_, t, rfl, ?_⟩
    have hexec : Run.exec S.X t (.ret (if f.void then none else some (.const 0))) =
        .ended store'.world.trace
          (.returned (if f.void then none else some 0) store'.world.mem ()) := by
      rw [← hm'.world]
      cases f.void <;> rfl
    exact .of_ok rfl (hlead.reach_ended hexec) rfl
  | returned v => exact Or.inr ⟨v, store', rfl, hc⟩
  -- Outside of loops nothing can be left.
  | broke | continued =>
    obtain ⟨t, rfl, -⟩ := hc
    exact Or.inl ⟨_, t, rfl, follows_fault⟩

end Statements

end Tac.Tree.Generate.Scene
