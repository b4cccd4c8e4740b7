import Mathlib
import Tac.Proofs.Execution
import Tac.Proofs.Semantics

/-!
# The two meanings of statements are one

Lowering is about statements on virtual registers and words of memory (`Semantics.step`), and stops at
calls, which it leaves to the callee.  Generation, fusion and the hand-written functions are about
statements on operands and addresses in a world that answers calls (`Run.step`).  Where the layout of
the one and the setting of the other put the variables in the same places, and no two operands share a
virtual register, both are the same meaning: from states that mirror each other one step comes to the
same end, or to states that mirror each other again.

* **`Layout.Suits`** — a layout and a setting agree on the operands of statements.
* **`State.Mirrors`** — two states agree on the values of operands and on memory; `exists_mirrors`
  finds one for each state.
* **`eval_eq`, `load_eq`, `store_rel`, `clear_rel`, `assign_rel`** — so they agree on what operands are
  worth and after what is written.
* **`comes_step`** — one step, of any statement.
* **`accords_steps`**, **`returns_iff`** — steps up to the first call, and whole runs without calls.
-/

namespace Tac

/-! ## Calls -/

namespace Run

variable {α : Type} (X : Setting α)

/-- Where a call at statement `i` leads: to the next statement, with the answer at its destination, or
to the end, where the callee does not come back. -/
def answered (i : Nat) (t : State α) (callee : String) (xs : List Word) (ret : Option Val) :
    Status α :=
  match (t.world.enter callee xs (t.seen X)).back X.toHost with
  | none => .ended (t.world.enter callee xs (t.seen X)).trace .lost
  | some (x, w) =>
    match ret with
    | none => .running (i + 1) (t.inWorld w)
    | some d =>
      match (t.inWorld w).assign X x d with
      | some t => .running (i + 1) t
      | none => .ended w.trace .fault

variable {X} {A : List Stmt} {i : Nat} {t : State α}

/-- A call whose arguments have values goes where the answer leads. -/
theorem step_call {ret : Option Val} {callee : String} {args : List Val} {xs : List Word}
    (hst : A[i]? = some (.call ret callee args)) (hxs : args.mapM (t.eval X) = some xs) :
    step X A i t = answered X i t callee xs ret := by
  have hout := callOut_eq (X := X) (s := t) (g := callee) hxs
  unfold answered
  cases ret with
  | none =>
    simp only [step, hst, exec, hout]
    cases (t.world.enter callee xs (t.seen X)).back X.toHost with
    | none => rfl
    | some p => rfl
  | some d =>
    simp only [step, hst, exec, compute, hout]
    cases (t.world.enter callee xs (t.seen X)).back X.toHost with
    | none => rfl
    | some p =>
      obtain ⟨x, w⟩ := p
      -- the answer goes to its destination in the world that the callee left
      simp only [deliver]
      cases (t.inWorld w).assign X x d with
      | none => rfl
      | some t' => rfl

end Run

/-! ## Places of variables -/

section Places

variable {α : Type} {X : Run.Setting α} {id : VarId}

/-- A variable with a virtual register holds its value. -/
theorem Run.Setting.place?_of_vreg {u : VReg} (h : X.vars.vreg? (.var id) = some u) :
    X.place? id = some .held := by
  obtain ⟨n, hn, -⟩ := Option.bind_eq_some_iff.1 h
  obtain ⟨x, hx, hnum⟩ := Option.bind_eq_some_iff.1 hn
  unfold Var.number? at hnum
  split at hnum
  · cases hnum
  · next hcls =>
    split at hnum
    · cases hnum
    · next harr => rw [X.place?_loc hx hcls, if_neg harr]
  · next hcls => exact X.place?_arg hx hcls

/-- A numbered temporary has a virtual register. -/
theorem VarTable.exists_vreg?_temp {vars : VarTable} {n : Int}
    (h : vars.isNumbered (.temp n) = true) : ∃ u, vars.vreg? (.temp n) = some u := by
  have h0 : 0 ≤ wrap64 (3 * n) := by
    simpa [VarTable.isNumbered, VarTable.resolves, VarTable.number?] using h
  exact ⟨_, by simp only [VarTable.vreg?, VarTable.number?, Option.bind_some, if_pos h0]; rfl⟩

/-- Where a numbered variable is: in a virtual register, among the globals or among the local
arrays. -/
inductive VarTable.Seat (vars : VarTable) (id : VarId) (x : Var) : Prop where
  | vreg {u : VReg} (hu : vars.vreg? (.var id) = some u)
  | global (hu : vars.vreg? (.var id) = none) (hcls : x.cls = .global)
  | array (hu : vars.vreg? (.var id) = none) (hcls : x.cls = .loc) (harr : x.isArray = true)

/-- A numbered variable has a seat in the table. -/
theorem VarTable.exists_seat {vars : VarTable} (h : vars.isNumbered (.var id) = true) :
    ∃ x, vars.get? id = some x ∧ vars.Seat id x := by
  simp only [VarTable.isNumbered, VarTable.resolves, Bool.and_eq_true, Option.isSome_iff_exists] at h
  obtain ⟨⟨x, hx⟩, hnum⟩ := h
  refine ⟨x, hx, ?_⟩
  have hnumber : vars.number? (.var id) = x.number? := by
    rw [VarTable.number?, hx, Option.bind_some]
  rw [hnumber] at hnum
  -- A number that is not negative is a virtual register.
  have hvreg : ∀ n, x.number? = some n → ∃ u, vars.vreg? (.var id) = some u := fun n hn => by
    rw [hn] at hnum
    have h0 : 0 ≤ n := by simpa using hnum
    exact ⟨n.toNat, by rw [VarTable.vreg?, hnumber, hn, Option.bind_some, if_pos h0]⟩
  have hnone : x.number? = none → vars.vreg? (.var id) = none := fun hn => by
    rw [VarTable.vreg?, hnumber, hn, Option.bind_none]
  -- Globals and local arrays have no number, all others have one.
  cases hcls : x.cls with
  | global => exact .global (hnone (by simp only [Var.number?, hcls])) hcls
  | loc =>
    cases harr : x.isArray with
    | true => exact .array (hnone (by simp [Var.number?, hcls, harr])) hcls harr
    | false =>
      obtain ⟨u, hu⟩ := hvreg _ (by simp only [Var.number?, hcls, harr]; rfl)
      exact .vreg hu
  | arg =>
    obtain ⟨u, hu⟩ := hvreg _ (by simp only [Var.number?, hcls]; rfl)
    exact .vreg hu

end Places

namespace Semantics

/-! ## Agreement -/

/-- The operands of statements. -/
def Mentions (A : List Stmt) (v : Val) : Prop := ∃ st ∈ A, v ∈ st.operands

/-- A layout and a setting agree on the operands of statements: operands have numbers, different ones
that compete for registers have different ones, globals and local arrays are at the same addresses, and
the same addresses can be accessed. -/
structure Layout.Suits {α : Type} (L : Layout) (X : Run.Setting α) (A : List Stmt) : Prop where
  numbered : ∀ st ∈ A, st.isNumbered X.vars = true
  apart : ∀ v w u, Mentions A v → Mentions A w → X.vars.vreg? v = some u → X.vars.vreg? w = some u →
    v = w
  globals : ∀ id x, Mentions A (.var id) → X.vars.get? id = some x → x.cls = .global →
    L.globalAddr x.index = some (X.addr id)
  arrays : ∀ id p, Mentions A (.var id) → (L.array id = some p ↔ ∃ x, X.vars.get? id = some x ∧
    x.cls = .loc ∧ x.isArray = true ∧ p = (X.addr id, x.elems.toNat))
  valid : ∀ a, X.valid a = (L.index? a).isSome

/-- Two states agree: operands in virtual registers have the same values, and memory has the same
words behind addresses. -/
structure State.Mirrors {α : Type} (L : Layout) (X : Run.Setting α) (A : List Stmt) (s : State)
    (t : Run.State α) : Prop where
  held : ∀ v u, Mentions A v → X.vars.vreg? v = some u → t.eval X v = some (s.env u)
  mem : ∀ a k, L.index? a = some k → s.mem k = t.world.mem a

/-- An address that the layout knows is data. -/
theorem Layout.data_of_index? {L : Layout} {a : Word} {k : Nat} (h : L.index? a = some k) :
    L.data k = true := by
  unfold Layout.index? at h
  split at h
  · next hcond =>
    cases h
    exact hcond.2.2
  · cases h

/-- A word has one address. -/
theorem Layout.index?_injective {L : Layout} {a b : Word} {k : Nat} (ha : L.index? a = some k)
    (hb : L.index? b = some k) : a = b := by
  unfold Layout.index? at ha hb
  split at ha
  · split at hb
    · cases ha
      have hk := Option.some.inj hb
      exact Int32.toInt_inj.1 (by omega)
    · cases hb
  · cases ha

/-- An operand with a virtual register has a value. -/
theorem exists_eval_of_vreg {α : Type} {X : Run.Setting α} {v : Val} {u : VReg}
    (hu : X.vars.vreg? v = some u) (t : Run.State α) : ∃ w, t.eval X v = some w := by
  cases v with
  | const n => cases hu
  | temp n => exact ⟨t.temp n, rfl⟩
  | var id => exact ⟨_, Run.State.eval_held (X.place?_of_vreg hu)⟩

/-- Every state is mirrored; what it does not tell is taken from a given state. -/
theorem exists_mirrors {α : Type} {L : Layout} {X : Run.Setting α} {A : List Stmt}
    (h : L.Suits X A) (s₀ : State) (t : Run.State α) : ∃ s : State, s.Mirrors L X A t ∧
      (∀ u, (∀ v, Mentions A v → X.vars.vreg? v ≠ some u) → s.env u = s₀.env u) ∧
      ∀ k, (∀ a, L.index? a ≠ some k) → s.mem k = s₀.mem k := by
  classical
  -- a virtual register gets the value of the operand that it belongs to
  refine ⟨{ env := fun u =>
              if h : ∃ v, Mentions A v ∧ X.vars.vreg? v = some u then (t.eval X h.choose).getD 0
              else s₀.env u
            mem := fun k =>
              if h : ∃ a, L.index? a = some k then t.world.mem h.choose else s₀.mem k },
    ⟨fun v u hv hu => ?_, fun a k hk => ?_⟩, fun u hu => ?_, fun k hk => ?_⟩
  · have hex : ∃ v, Mentions A v ∧ X.vars.vreg? v = some u := ⟨v, hv, hu⟩
    obtain ⟨w, hw⟩ := exists_eval_of_vreg hu t
    have hchoose : hex.choose = v :=
      h.apart _ _ _ hex.choose_spec.1 hv hex.choose_spec.2 hu
    simp only [dif_pos hex, hchoose, hw, Option.getD_some]
  · have hex : ∃ a, L.index? a = some k := ⟨a, hk⟩
    simp only [dif_pos hex, Layout.index?_injective hex.choose_spec hk]
  · have hno : ¬ ∃ v, Mentions A v ∧ X.vars.vreg? v = some u := fun ⟨v, hv, hvu⟩ => hu v hv hvu
    simp only [dif_neg hno]
  · have hno : ¬ ∃ a, L.index? a = some k := fun ⟨a, ha⟩ => hk a ha
    simp only [dif_neg hno]

section Agreement

variable {α : Type} {L : Layout} {X : Run.Setting α} {A : List Stmt} {s : State} {t : Run.State α}
  {v : Val}

/-- What a virtual register holds does not depend on the world. -/
theorem eval_inWorld {u : VReg} (hu : X.vars.vreg? v = some u) (w : Run.World α) :
    (t.inWorld w).eval X v = t.eval X v := by
  cases v with
  | const n => rfl
  | temp n => rfl
  | var id =>
    have hplace := X.place?_of_vreg hu
    rw [Run.State.eval_held hplace, Run.State.eval_held hplace]
    rfl

/-- States that mirror each other still do after memory was changed alike. -/
theorem State.Mirrors.inWorld (hs : s.Mirrors L X A t) {mem : Nat → Word} {w : Run.World α}
    (hmem : ∀ a k, L.index? a = some k → mem k = w.mem a) :
    State.Mirrors L X A { s with mem } (t.inWorld w) :=
  ⟨fun v u hv hu => by rw [eval_inWorld hu]; exact hs.held v u hv hu, hmem⟩

variable (h : L.Suits X A) (hs : s.Mirrors L X A t)

include h

/-- What a statement reads is mentioned and numbered. -/
theorem Layout.Suits.source {st : Stmt} (hst : st ∈ A) (hv : v ∈ st.sources) :
    Mentions A v ∧ X.vars.isNumbered v = true := by
  have hnum := h.numbered st hst
  rw [Stmt.isNumbered, Bool.and_eq_true] at hnum
  refine ⟨⟨st, hst, ?_⟩, List.all_eq_true.1 hnum.2 v hv⟩
  exact List.mem_append_left _ (List.mem_append_right _ hv)

/-- What a statement writes is mentioned and numbered. -/
theorem Layout.Suits.dst {st : Stmt} (hst : st ∈ A) (hv : st.dst? = some v) :
    Mentions A v ∧ X.vars.isNumbered v = true := by
  have hnum := h.numbered st hst
  rw [Stmt.isNumbered, Bool.and_eq_true, hv] at hnum
  refine ⟨⟨st, hst, ?_⟩, hnum.1⟩
  unfold Stmt.operands
  rw [hv]
  exact List.mem_append_left _ (List.mem_append_left _ (List.mem_singleton_self v))

include hs

/-! ## Reading -/

/-- Loads read the same word on both sides. -/
theorem load_eq (a : Word) : s.load L a = t.world.load X.toHost a := by
  rw [State.load, Run.World.load, h.valid a]
  cases hk : L.index? a with
  | none => rfl
  | some k => rw [Option.map_some, hs.mem a k hk, Option.isSome_some, if_pos rfl]

/-- Operands have the same values. -/
theorem eval_eq (hv : Mentions A v) (hnum : X.vars.isNumbered v = true) :
    s.eval L X.vars v = t.eval X v := by
  cases v with
  | const n => rfl
  | temp n =>
    obtain ⟨u, hu⟩ := VarTable.exists_vreg?_temp hnum
    rw [State.eval_of_vreg hu, hs.held _ u hv hu]
  | var id =>
    obtain ⟨x, hx, hseat⟩ := VarTable.exists_seat hnum
    cases hseat with
    | @vreg u hu => rw [State.eval_of_vreg hu, hs.held _ u hv hu]
    | global hu hcls =>
      have hplace := X.place?_global hx hcls
      simp only [State.eval, hu, hx, Option.bind_eq_bind, Option.bind_some, if_pos hcls,
        h.globals id x hv hx hcls]
      -- an array is its address, a scalar is the word behind it
      cases harr : x.isArray with
      | true =>
        rw [harr] at hplace
        exact (Run.State.eval_array hplace).symm
      | false =>
        rw [harr] at hplace
        rw [if_neg (by decide), load_eq h hs]
        exact (Run.State.eval_memory hplace).symm
    | array hu hcls harr =>
      have hplace := X.place?_loc hx hcls
      rw [if_pos harr] at hplace
      have hnot : ¬ x.cls = .global := by
        rw [hcls]
        decide
      simp only [State.eval, hu, hx, Option.bind_eq_bind, Option.bind_some, if_neg hnot,
        (h.arrays id _ hv).2 ⟨x, hx, hcls, harr, rfl⟩, Option.map_some]
      exact (Run.State.eval_array hplace).symm

/-- A source of a statement has the same value. -/
theorem eval_source {st : Stmt} (hst : st ∈ A) (hv : v ∈ st.sources) :
    s.eval L X.vars v = t.eval X v :=
  eval_eq h hs (h.source hst hv).1 (h.source hst hv).2

omit h hs in
/-- So have all arguments of a call. -/
theorem mapM_eval_eq {args : List Val}
    (hargs : ∀ v ∈ args, s.eval L X.vars v = t.eval X v) :
    args.mapM (s.eval L X.vars) = args.mapM (t.eval X) := by
  induction args with
  | nil => rfl
  | cons v vs ih =>
    obtain ⟨hv, hvs⟩ := List.forall_mem_cons.1 hargs
    rw [List.mapM_cons, List.mapM_cons, hv, ih hvs]

/-! ## Writing -/

/-- A store is possible in both states or in none, and writes the same word. -/
theorem store_rel (a x : Word) :
    Option.Rel (fun s' w => State.Mirrors L X A s' (t.inWorld w)) (s.store L a x)
      (t.world.store X.toHost a x) := by
  rw [State.store, Run.World.store, h.valid a]
  cases hk : L.index? a with
  | none => exact .none
  | some k =>
    refine .some (hs.inWorld fun b j hj => ?_)
    -- the word has one address, so it is the one that is written
    by_cases hb : b = a
    · subst hb
      obtain rfl := Option.some.inj (hj.symm.trans hk)
      simp only [Function.update_self]
    · have hne : j ≠ k := by
        rintro rfl
        exact hb (Layout.index?_injective hj hk)
      simp only [Function.update_of_ne hb, Function.update_of_ne hne, hs.mem b j hj]

/-- An array is cleared in both states or in none. -/
theorem clear_rel (a : Word) (n : Nat) :
    Option.Rel (fun s' w => State.Mirrors L X A s' (t.inWorld w)) (s.clear L a n)
      (t.world.clear X.toHost a n) := by
  -- word by word, each store from the states after the one before
  induction n with
  | zero => exact .some hs
  | succ n ih =>
    simp only [State.clear, Run.World.clear, Option.bind_eq_bind]
    generalize s.clear L a n = s₁ at ih ⊢
    generalize t.world.clear X.toHost a n = w₁ at ih ⊢
    cases ih with
    | none => exact .none
    | some hs₁ => exact store_rel h hs₁ (a + word (4 * n)) 0

/-- An operand with a virtual register is given a value in both states. -/
theorem mirrors_update {u : VReg} {w : Word} {t' : Run.State α} (hv : Mentions A v)
    (hu : X.vars.vreg? v = some u) (hself : t'.eval X v = some w)
    (hother : ∀ v' u', v' ≠ v → X.vars.vreg? v' = some u' → t'.eval X v' = t.eval X v')
    (hworld : t'.world = t.world) :
    State.Mirrors L X A { s with env := Function.update s.env u w } t' := by
  refine ⟨fun v' u' hv' hu' => ?_, fun a k hk => by rw [hworld]; exact hs.mem a k hk⟩
  by_cases heq : v' = v
  · subst heq
    obtain rfl := Option.some.inj (hu.symm.trans hu')
    exact hself.trans (congrArg some (Function.update_self u w s.env).symm)
  · -- another operand has another virtual register
    have hne : u' ≠ u := by
      rintro rfl
      exact heq (h.apart v' v u' hv' hv hu' hu)
    rw [hother v' u' heq hu', hs.held v' u' hv' hu']
    exact congrArg some (Function.update_of_ne hne ..).symm

/-- An assignment is possible in both states or in none, and gives the operand the same value. -/
theorem assign_rel (hv : Mentions A v) (hnum : X.vars.isNumbered v = true) (w : Word) :
    Option.Rel (State.Mirrors L X A) (s.assign L X.vars v w) (t.assign X w v) := by
  cases v with
  | const n => exact .none
  | temp n =>
    obtain ⟨u, hu⟩ := VarTable.exists_vreg?_temp hnum
    simp only [State.assign, hu, Run.State.assign]
    refine .some (mirrors_update h hs hv hu ?_ (fun v' u' hne hu' => ?_) rfl)
    · rw [Run.State.eval_temp, Run.State.temp_setTemp_self]
    · cases v' with
      | const m => rfl
      | temp m =>
        have hm : m ≠ n := fun heq => hne (by rw [heq])
        rw [Run.State.eval_temp, Run.State.eval_temp, Run.State.temp_setTemp_of_ne hm]
      | var id =>
        have hplace := X.place?_of_vreg hu'
        rw [Run.State.eval_held hplace, Run.State.eval_held hplace]
        rfl
  | var id =>
    obtain ⟨x, hx, hseat⟩ := VarTable.exists_seat hnum
    cases hseat with
    | @vreg u hu =>
      have hplace := X.place?_of_vreg hu
      rw [Run.State.assign_held hplace]
      simp only [State.assign, hu]
      refine .some (mirrors_update h hs hv hu ?_ (fun v' u' hne hu' => ?_) rfl)
      · rw [Run.State.eval_held hplace]
        exact congrArg some (Function.update_self ..)
      · cases v' with
        | const m => rfl
        | temp m => rfl
        | var id' =>
          have hid : id' ≠ id := fun heq => hne (by rw [heq])
          have hplace' := X.place?_of_vreg hu'
          rw [Run.State.eval_held hplace', Run.State.eval_held hplace']
          exact congrArg some (Function.update_of_ne hid ..)
    | global hu hcls =>
      have hplace := X.place?_global hx hcls
      simp only [State.assign, hu, hx, Option.bind_eq_bind, Option.bind_some, hcls, true_and]
      cases harr : x.isArray with
      | true =>
        rw [harr] at hplace
        simp only [Run.State.assign, hplace]
        exact .none
      | false =>
        -- a global scalar is written in memory
        rw [harr] at hplace
        rw [Run.State.assign_memory hplace]
        simp only [h.globals id x hv hx hcls, Option.bind_some]
        have hstore := store_rel h hs (X.addr id) w
        generalize s.store L (X.addr id) w = s₁ at hstore ⊢
        generalize t.world.store X.toHost (X.addr id) w = w₁ at hstore ⊢
        cases hstore with
        | none => exact .none
        | some hs₁ => exact .some hs₁
    | array hu hcls harr =>
      have hplace := X.place?_loc hx hcls
      rw [if_pos harr] at hplace
      simp only [State.assign, hu, hx, Option.bind_eq_bind, Option.bind_some, hcls,
        Run.State.assign, hplace]
      exact .none

end Agreement

/-! ## Steps -/

/-- What a step from mirrored states comes to in both meanings.  A return and a call leave the state
as it is. -/
inductive Comes {α : Type} (L : Layout) (X : Run.Setting α) (A : List Stmt) (i : Nat) (s : State)
    (t : Run.State α) : Option Outcome → Run.Status α → Prop where
  | fault (trace : List (Run.Event α)) : Comes L X A i s t none (.ended trace .fault)
  | next {j : Nat} {s' : State} {t' : Run.State α} (h : s'.Mirrors L X A t') :
      Comes L X A i s t (some (.next j s')) (.running j t')
  | ret (x : Option Word) : Comes L X A i s t (some (.ret x s))
      (.ended t.world.trace (.returned x t.world.mem (t.seen X)))
  | call {callee : String} {xs : List Word} {ret : Option Val} :
      Comes L X A i s t (some (.call callee xs ret s)) (Run.answered X i t callee xs ret)

section Steps

variable {α : Type} {L : Layout} {X : Run.Setting α} {A : List Stmt} {s : State} {t : Run.State α}
  {i : Nat} (h : L.Suits X A) (hs : s.Mirrors L X A t)

include h hs

/-- A computed value goes to its destination in both meanings. -/
theorem comes_deliver {d : Val} (hd : Mentions A d ∧ X.vars.isNumbered d = true)
    (o : Option Word) :
    Comes L X A i s t
      (o.bind fun w => (s.assign L X.vars d w).bind fun s' => some (.next (i + 1) s'))
      (Run.follow A i (Run.deliver X d (.of t o))) := by
  cases o with
  | none => exact .fault _
  | some w =>
    have hassign := assign_rel h hs hd.1 hd.2 w
    simp only [Option.bind_some, Run.Computed.of, Run.deliver]
    generalize s.assign L X.vars d w = s₁ at hassign ⊢
    generalize t.assign X w d = t₁ at hassign ⊢
    -- Both sides can write the destination, or neither can.
    cases hassign with
    | none => exact .fault _
    | some h₁ => exact .next h₁

omit h hs in
/-- A change of memory leads to the next statement in both meanings. -/
theorem comes_write {o : Option State} {w : Option (Run.World α)}
    (hw : Option.Rel (fun s' w => State.Mirrors L X A s' (t.inWorld w)) o w) :
    Comes L X A i s t (o.bind fun s' => some (.next (i + 1) s'))
      (Run.follow A i (match (motive := Option (Run.World α) → Run.Effect α) w with
        | some w => .next (t.inWorld w)
        | none => t.fault)) := by
  cases hw with
  | none => exact .fault _
  | some h₁ => exact .next h₁

omit h in
/-- A jump leads to the same statement in both meanings. -/
theorem comes_goto (l : Int) :
    Comes L X A i s t ((Flow.labelTable A)[l]?.bind fun j => some (.next j s))
      (Run.follow A i (.goto l t)) := by
  simp only [Run.follow]
  cases (Flow.labelTable A)[l]? with
  | none => exact .fault _
  | some j => exact .next hs

/-- One step from states that mirror each other. -/
theorem comes_step {st : Stmt} (hst : A[i]? = some st) :
    Comes L X A i s t (step L X.vars (Flow.labelTable A) i s st) (Run.step X A i t) := by
  have hmem := List.mem_of_getElem? hst
  have heval : ∀ v ∈ st.sources, s.eval L X.vars v = t.eval X v := fun v hv =>
    eval_source h hs hmem hv
  have hstep : Run.step X A i t = Run.follow A i (Run.exec X t st) := by
    simp only [Run.step, hst]
  cases st with
  | binary d l op r =>
    have hcomes := comes_deliver (i := i) h hs (h.dst hmem rfl) ((t.eval X l).bind fun x =>
      (t.eval X r).bind fun y => (Machine.binary op x y).toOption)
    simp only [step, heval l (by simp [Stmt.sources]), heval r (by simp [Stmt.sources]),
      Option.bind_eq_bind]
    rw [hstep]
    simp only [Option.bind_assoc] at hcomes
    exact hcomes
  | unary d op v =>
    have hcomes := comes_deliver (i := i) h hs (h.dst hmem rfl)
      ((t.eval X v).map (Machine.unary op))
    simp only [step, heval v (by simp [Stmt.sources]), Option.bind_eq_bind]
    rw [hstep]
    simp only [Option.bind_map, Function.comp_def] at hcomes
    exact hcomes
  | move d v =>
    simp only [step, heval v (by simp [Stmt.sources]), Option.bind_eq_bind]
    rw [hstep]
    exact comes_deliver h hs (h.dst hmem rfl) (t.eval X v)
  | load d b off =>
    have hcomes := comes_deliver (i := i) h hs (h.dst hmem rfl) ((t.eval X b).bind fun a =>
      t.world.load X.toHost (a + word off))
    simp only [step, heval b (by simp [Stmt.sources]), Option.bind_eq_bind, load_eq h hs]
    rw [hstep]
    simp only [Option.bind_assoc] at hcomes
    exact hcomes
  | store b off v =>
    simp only [step, heval b (by simp [Stmt.sources]), heval v (by simp [Stmt.sources]),
      Option.bind_eq_bind]
    rw [hstep]
    simp only [Run.exec]
    cases t.eval X b with
    | none => exact .fault _
    | some a =>
      cases t.eval X v with
      | none => exact .fault _
      | some x => exact comes_write (store_rel h hs (a + word off) x)
  | branch l rel r target =>
    simp only [step, heval l (by simp [Stmt.sources]), heval r (by simp [Stmt.sources]),
      Option.bind_eq_bind]
    rw [hstep]
    simp only [Run.exec]
    cases t.eval X l with
    | none => exact .fault _
    | some x =>
      cases t.eval X r with
      | none => exact .fault _
      | some y =>
        simp only [Option.bind_some]
        split
        · exact comes_goto hs target
        · exact .next hs
  | jump target =>
    rw [hstep]
    exact comes_goto hs target
  | label l =>
    rw [hstep]
    exact .next hs
  | call ret callee args =>
    have hargs : args.mapM (s.eval L X.vars) = args.mapM (t.eval X) := mapM_eval_eq heval
    simp only [step, hargs, Option.bind_eq_bind]
    cases hxs : args.mapM (t.eval X) with
    | none =>
      -- an argument without a value
      rw [hstep]
      cases ret with
      | none =>
        simp only [Run.exec, Run.callOut, hxs]
        exact .fault _
      | some d =>
        simp only [Run.exec, Run.compute, Run.callOut, hxs]
        exact .fault _
    | some xs =>
      rw [Run.step_call hst hxs]
      exact .call
  | ret v =>
    rw [hstep]
    cases v with
    | none => exact .ret none
    | some v =>
      simp only [step, heval v (by simp [Stmt.sources]), Option.bind_eq_bind, Run.exec]
      cases t.eval X v with
      | none => exact .fault _
      | some x => exact .ret (some x)
  | zeroFill v =>
    rw [hstep]
    cases v with
    | const n => exact .fault _
    | temp n => exact .fault _
    | var id =>
      have hid : Mentions A (.var id) := ⟨_, hmem, by simp [Stmt.operands]⟩
      simp only [step, Option.bind_eq_bind, Run.exec]
      -- the layout knows exactly the local arrays
      cases harray : L.array id with
      | some p =>
        obtain ⟨x, hx, hcls, harr, rfl⟩ := (h.arrays id p hid).1 harray
        simp only [hx, hcls, harr, and_self, if_true, Option.bind_some]
        exact comes_write (clear_rel h hs (X.addr id) x.elems.toNat)
      | none =>
        cases hx : X.vars.get? id with
        | none => exact .fault _
        | some x =>
          have hnot : ¬ (x.cls = .loc ∧ x.isArray = true) := by
            rintro ⟨hcls, harr⟩
            rw [(h.arrays id _ hid).2 ⟨x, hx, hcls, harr, rfl⟩] at harray
            cases harray
          simp only [if_neg hnot]
          exact .fault _

end Steps

/-! ## Runs -/

/-- What up to `n` steps from statement `i` come to in both meanings: they go the same way up to the
first call, and there the world answers. -/
inductive Accords {α : Type} (L : Layout) (X : Run.Setting α) (A : List Stmt) (n i : Nat)
    (t : Run.State α) : Option Outcome → Prop where
  | fault {trace : List (Run.Event α)} (h : Run.run X A n i t = .ended trace .fault) :
      Accords L X A n i t none
  | next {j : Nat} {s' : State} {t' : Run.State α} (h : Run.run X A n i t = .running j t')
      (hs : s'.Mirrors L X A t') : Accords L X A n i t (some (.next j s'))
  | ret {x : Option Word} {s' : State} {t' : Run.State α}
      (h : Run.run X A n i t =
        .ended t'.world.trace (.returned x t'.world.mem (t'.seen X)))
      (hs : s'.Mirrors L X A t') : Accords L X A n i t (some (.ret x s'))
  | call {m j : Nat} {callee : String} {xs : List Word} {ret : Option Val} {s' : State}
      {t' : Run.State α} (hm : m < n) (h : Run.run X A m i t = .running j t')
      (hstep : Run.step X A j t' = Run.answered X j t' callee xs ret) (hs : s'.Mirrors L X A t') :
      Accords L X A n i t (some (.call callee xs ret s'))

section Runs

variable {α : Type} {L : Layout} {X : Run.Setting α} {A : List Stmt} {s : State} {t : Run.State α}
  {n i : Nat}

/-- A step before. -/
theorem Accords.cons {j : Nat} {t₁ : Run.State α} {o : Option Outcome}
    (hstep : Run.step X A i t = .running j t₁) (h : Accords L X A n j t₁ o) :
    Accords L X A (n + 1) i t o := by
  cases h with
  | fault h => exact .fault ((Run.run_of_running n hstep).trans h)
  | next h hs => exact .next ((Run.run_of_running n hstep).trans h) hs
  | ret h hs => exact .ret ((Run.run_of_running n hstep).trans h) hs
  | @call m _ _ _ _ _ _ hm h hcall hs =>
    exact .call (Nat.succ_lt_succ hm) ((Run.run_of_running m hstep).trans h) hcall hs

/-- Up to the first call the runs of the two meanings accord. -/
theorem accords_steps (h : L.Suits X A) (hs : s.Mirrors L X A t) :
    Accords L X A n i t (steps L X.vars A n i s) := by
  -- On the number of steps; a call ends the part the two have in common.
  induction n generalizing i s t with
  | zero => exact .next rfl hs
  | succ n ih =>
    rw [steps]
    cases hst : A[i]? with
    | none =>
      have hend : Run.step X A i t = .ended t.world.trace .fault := by simp only [Run.step, hst]
      exact .fault (Run.run_of_ended n hend)
    | some st =>
      have hcomes := comes_step h hs hst
      simp only [Option.bind_eq_bind, Option.bind_some]
      generalize step L X.vars (Flow.labelTable A) i s st = o at hcomes ⊢
      generalize hr : Run.step X A i t = r at hcomes
      cases hcomes with
      | fault trace => exact .fault (Run.run_of_ended n hr)
      | next hs' => exact (ih hs').cons hr
      | ret x => exact .ret (Run.run_of_ended n hr) hs
      | call => exact .call (Nat.succ_pos n) rfl hr hs

/-- Only a statement with a callee comes to a call. -/
theorem callee_of_step {labels : Std.TreeMap Int Nat} {st : Stmt} {callee : String} {xs : List Word}
    {ret : Option Val} {s' : State}
    (h : step L X.vars labels i s st = some (.call callee xs ret s')) : st.callee? = some callee := by
  cases st with
  | call ret args =>
    obtain ⟨ys, -, h⟩ := Option.bind_eq_some_iff.1 h
    cases h
    rfl
  | branch l rel r target =>
    simp only [step, Option.bind_eq_bind, Option.bind_eq_some_iff] at h
    obtain ⟨x, -, y, -, h⟩ := h
    split at h <;> simp [Option.bind_eq_some_iff] at h
  | ret v => cases v <;> simp [step, Option.bind_eq_some_iff] at h
  | zeroFill v => cases v <;> simp [step, Option.bind_eq_some_iff] at h
  | binary | unary | move | store | load | jump | label =>
    simp [step, Option.bind_eq_some_iff] at h

/-- So steps that come to a call met one. -/
theorem exists_of_steps_call {callee : String} {xs : List Word} {ret : Option Val} {s' : State}
    (h : steps L X.vars A n i s = some (.call callee xs ret s')) :
    ∃ st ∈ A, st.callee? = some callee := by
  -- On the number of steps up to the call.
  induction n generalizing i s with
  | zero => cases h
  | succ n ih =>
    obtain ⟨st, hst, h⟩ := Option.bind_eq_some_iff.1 h
    obtain ⟨o, hstep, h⟩ := Option.bind_eq_some_iff.1 h
    cases o with
    | next j s₁ => exact ih h
    | ret => cases h
    | call =>
      cases h
      exact ⟨st, List.mem_of_getElem? hst, callee_of_step hstep⟩

/-- A function without calls returns in one meaning when it does in the other, with the same value. -/
theorem returns_iff (h : L.Suits X A) (hs : s.Mirrors L X A t)
    (hcalls : ∀ st ∈ A, st.callee? = none) (x : Option Word) :
    (∃ n s', steps L X.vars A n i s = some (.ret x s')) ↔
      ∃ trace mem seen, Run.Ends X A i t trace (.returned x mem seen) := by
  constructor
  · rintro ⟨n, s', hsteps⟩
    have haccords := accords_steps (n := n) (i := i) h hs
    rw [hsteps] at haccords
    cases haccords with
    | ret hrun _ => exact ⟨_, _, _, n, hrun⟩
  -- Without calls a run that has an end has one on both sides, and they accord.
  · rintro ⟨trace, mem, seen, n, hrun⟩
    have haccords := accords_steps (n := n) (i := i) h hs
    cases hsteps : steps L X.vars A n i s with
    | none =>
      rw [hsteps] at haccords
      cases haccords with
      | fault h' => cases hrun.symm.trans h'
    | some o =>
      rw [hsteps] at haccords
      cases haccords with
      | next h' => cases hrun.symm.trans h'
      | ret h' =>
        cases hrun.symm.trans h'
        exact ⟨n, _, hsteps⟩
      | call =>
        obtain ⟨st, hst, hcallee⟩ := exists_of_steps_call hsteps
        rw [hcalls st hst] at hcallee
        cases hcallee

end Runs

end Semantics

end Tac
