import Mathlib
import Tac.Proofs.Calls
import Tac.Proofs.Meanings
import Tac.Proofs.Simulation

/-!
# Lowered code realizes runs

A run of statements in a world that answers calls is realized by the machine that runs the lowered code,
through its calls and up to its end, when the machine answers calls as the world does.  How it does that
is up to the callees: functions of the program, functions of the environment, or functions written by
hand.  They may depend on all that happened before, so a relation between traces and machines says what
the machine still knows of the past, such as how far its input was read.

* **`Goes`, `Finishes`** — the machine gets from place to place, or to a return, maybe through calls.
* **`Carries`** — the machine answers the calls of a function as the world does.
* **`Setup`** — what holds of a function that was placed, lowered and loaded.
* **`Realizes`** — where the machine is, for a run that goes on or has returned.
* **`realizes_step`, `realizes_run`** — one step, and any number of them.
* **`finishes_of_ends`** — a run that returns is realized by a return.
-/

namespace Tac

namespace Machine

/-! ## Through calls -/

/-- Under the given bounds the machine gets from place `pc` of the function to place `pc'`, maybe through
calls. -/
def Goes (im : Image) (lim : Limits) (f : LoadedFunc) (m : Machine) (pc : Nat) (m' : Machine)
    (pc' : Nat) : Prop :=
  ∃ n, ∀ (rest : List Frame) (fuel : Nat),
    runSteps im lim (fuel + n) m ⟨f, pc⟩ rest = runSteps im lim fuel m' ⟨f, pc'⟩ rest

/-- Under the given bounds the machine gets from place `pc` of the function to a return, maybe through
calls. -/
def Finishes (im : Image) (lim : Limits) (f : LoadedFunc) (m : Machine) (pc : Nat) (m' : Machine) :
    Prop :=
  ∃ n, ∀ (rest : List Frame) (fuel : Nat),
    runSteps im lim (fuel + n) m ⟨f, pc⟩ rest = resume im lim fuel m' rest

section Going

variable {im : Image} {lim : Limits} {f g : LoadedFunc} {m m₁ m₂ : Machine} {pc pc₁ pc₂ : Nat}

theorem Goes.refl : Goes im lim f m pc m pc := ⟨0, fun _ _ => rfl⟩

/-- Going on from where one has got. -/
theorem Goes.trans (h₁ : Goes im lim f m pc m₁ pc₁) (h₂ : Goes im lim f m₁ pc₁ m₂ pc₂) :
    Goes im lim f m pc m₂ pc₂ := by
  obtain ⟨n₁, hr₁⟩ := h₁
  obtain ⟨n₂, hr₂⟩ := h₂
  refine ⟨n₁ + n₂, fun rest fuel => ?_⟩
  rw [show fuel + (n₁ + n₂) = fuel + n₂ + n₁ by omega, hr₁, hr₂]

/-- A run that goes somewhere finishes as it does from there. -/
theorem Goes.finishes (h₁ : Goes im lim f m pc m₁ pc₁) (h₂ : Finishes im lim f m₁ pc₁ m₂) :
    Finishes im lim f m pc m₂ := by
  obtain ⟨n₁, hr₁⟩ := h₁
  obtain ⟨n₂, hr₂⟩ := h₂
  refine ⟨n₁ + n₂, fun rest fuel => ?_⟩
  rw [show fuel + (n₁ + n₂) = fuel + n₂ + n₁ by omega, hr₁, hr₂]

variable (hlim : lim.steps = 0)

include hlim

/-- What the straight-line proofs call reaching is going there under any limits. -/
theorem Reaches.goes (h : Reaches im f m pc m₁ pc₁) : Goes im lim f m pc m₁ pc₁ := by
  obtain ⟨n, -, -, hr⟩ := h
  exact ⟨n, fun rest fuel => hr lim rest fuel (Or.inl hlim)⟩

/-- What they call returning finishes. -/
theorem Returns.finishes (h : Returns im f m pc m₁) : Finishes im lim f m pc m₁ := by
  obtain ⟨n, -, -, hr⟩ := h
  exact ⟨n, fun rest fuel => hr lim rest fuel (Or.inl hlim)⟩

/-- A call of a function of the environment goes on behind itself. -/
theorem goes_runtime {callee : String} (hx : f.body[pc]? = some (.call callee))
    (henter : m.tick.enter im lim callee = .returned m₁) :
    Goes im lim f m pc m₁.resetZero (pc + 1) := by
  refine ⟨1, fun rest fuel => ?_⟩
  rw [runSteps, step_of_allows hx (Or.inl hlim)]
  simp only [stepInstr, exec, henter]

/-- A call of a function that finishes goes on behind itself. -/
theorem goes_call {callee : String} (hx : f.body[pc]? = some (.call callee))
    (henter : m.tick.enter im lim callee = .entered m₁ g) (h : Finishes im lim g m₁ 0 m₂) :
    Goes im lim f m pc m₂ (pc + 1) := by
  obtain ⟨n, hr⟩ := h
  -- the caller waits on top of the frames around the callee
  refine ⟨n + 1, fun rest fuel => ?_⟩
  rw [show fuel + (n + 1) = fuel + n + 1 by omega, runSteps, step_of_allows hx (Or.inl hlim)]
  simp only [stepInstr, exec, henter]
  exact hr (⟨f, pc⟩ :: rest) fuel

end Going

end Machine

/-- Values that were computed one by one are at the places of what they were computed from. -/
theorem getElem?_of_mapM {β γ : Type} {f : β → Option γ} {xs : List β} {ys : List γ}
    (h : xs.mapM f = some ys) : ys.length = xs.length ∧
      ∀ (k : Nat) (x : β), xs[k]? = some x → ∃ y, f x = some y ∧ ys[k]? = some y := by
  induction xs generalizing ys with
  | nil =>
    cases h
    exact ⟨rfl, fun k x hx => by simp at hx⟩
  | cons x xs ih =>
    rw [List.mapM_cons] at h
    obtain ⟨y, hy, h⟩ := Option.bind_eq_some_iff.1 h
    obtain ⟨ys, hys, h⟩ := Option.bind_eq_some_iff.1 h
    cases h
    obtain ⟨hlen, hget⟩ := ih hys
    refine ⟨congrArg (· + 1) hlen, fun k z hz => ?_⟩
    -- The first entry, or one of those behind it.
    cases k with
    | zero =>
      cases hz
      exact ⟨y, hy, rfl⟩
    | succ k => exact hget k z hz

/-! ## Stores and traces -/

namespace Run

variable {α : Type} {X : Setting α}

/-- A property of traces that goes on holding when words are stored. -/
def Endures (P : List (Event α) → Prop) : Prop :=
  ∀ trace a x, P trace → P (trace ++ [.store a x])

section Endures

variable {P : List (Event α) → Prop} (hP : Endures P) {s s' : State α} {w w' : World α}

include hP

/-- A store keeps what is stable under more of the trace. -/
theorem World.endures_store {a x : Word} (h : w.store X.toHost a x = some w') (hw : P w.trace) :
    P w'.trace := by
  unfold World.store at h
  split at h
  · cases h
    exact hP _ a x hw
  · cases h

/-- Clearing keeps what is stable under more of the trace. -/
theorem World.endures_clear {a : Word} {n : Nat} (h : w.clear X.toHost a n = some w')
    (hw : P w.trace) : P w'.trace := by
  induction n generalizing w' with
  | zero =>
    cases h
    exact hw
  | succ n ih =>
    obtain ⟨w₁, h₁, h₂⟩ := Option.bind_eq_some_iff.1 h
    exact World.endures_store hP h₂ (ih h₁)

/-- An assignment keeps what is stable under more of the trace. -/
theorem State.endures_assign {x : Word} {d : Val} (h : s.assign X x d = some s')
    (hs : P s.world.trace) : P s'.world.trace := by
  unfold State.assign at h
  split at h
  · cases h
    exact hs
  · split at h
    · obtain ⟨w, hw, rfl⟩ := Option.map_eq_some_iff.1 h
      exact World.endures_store hP hw hs
    · cases h
      exact hs
    · cases h
  · cases h

/-- A computed value that is delivered shows a store at most. -/
theorem endures_deliver {d : Val} (o : Option Word) (hs : P s.world.trace) :
    P (deliver X d (.of s o)).trace := by
  cases o with
  | none => exact hs
  | some x =>
    simp only [Computed.of, deliver]
    split
    · next h => exact State.endures_assign hP h hs
    · exact hs

/-- A statement that is no call shows stores at most. -/
theorem endures_exec {st : Stmt} (hcall : st.callee? = none) (hs : P s.world.trace) :
    P (exec X s st).trace := by
  -- Only stores and clearing write to memory; the others leave the trace as it is.
  cases st with
  | binary d l op r => exact endures_deliver hP _ hs
  | unary d op v => exact endures_deliver hP _ hs
  | move d v => exact endures_deliver hP _ hs
  | load d b off => exact endures_deliver hP _ hs
  | call => cases hcall
  | jump | label => exact hs
  | store b off v =>
    simp only [exec]
    split
    · split
      · next h => exact World.endures_store hP h hs
      · exact hs
    · exact hs
  | branch l rel r t =>
    simp only [exec]
    split
    · split <;> exact hs
    · exact hs
  | ret v =>
    cases v with
    | none => exact hs
    | some v =>
      simp only [exec]
      split <;> exact hs
  | zeroFill v =>
    cases v with
    | const | temp => exact hs
    | var id =>
      simp only [exec]
      split
      · split
        · split
          · next h => exact World.endures_clear hP h hs
          · exact hs
        · exact hs
      · exact hs

/-- A step that is no call keeps what is stable under more of the trace. -/
theorem endures_step {A : List Stmt} {i : Nat} {st : Stmt} (hst : A[i]? = some st)
    (hcall : st.callee? = none) (hs : P s.world.trace) : P (step X A i s).trace := by
  simp only [step, hst, trace_follow]
  exact endures_exec hP hcall hs

end Endures

end Run

namespace Activation

open Machine Lowering

variable {α : Type}

/-! ## Setups -/

/-- The machine answers the calls of the function as the world does.  The relation says what machines
still know of traces; the function itself does not disturb it, and callees keep it up. -/
structure Carries (A : Activation) (lim : Limits) (X : Run.Setting α)
    (Knows : List (Run.Event α) → Machine → Prop) : Prop where
  stays : ∀ {trace m m'}, Knows trace m → Stays m m' → Knows trace m'
  store : ∀ m, Run.Endures (Knows · m)
  answers : ∀ {trace m pc callee destroy xs mem seen x mem'}, A.func.body[pc]? = some (.call callee) →
    A.cx.sets[callee]? = some destroy → A.Running m →
    (∀ k x, xs[k]? = some x → m.val (Reg.a k) = x) →
    (∀ a k, A.layout.index? a = some k → m.mem.get k = mem a) → Knows trace m →
    X.reply (trace ++ [.call callee xs mem seen]) = some (x, mem') →
    ∃ m', Goes A.im lim A.func m pc m' (pc + 1) ∧ A.Returned destroy m m' ∧ m'.val (Reg.a 0) = x ∧
      (∀ a k, A.layout.index? a = some k → m'.mem.get k = mem' a) ∧
      Knows (trace ++ [.call callee xs mem seen]) m'

/-- The address of a variable: that of a global in the image, that of a local array in the frame. -/
def addrOf (A : Activation) (id : VarId) : Word :=
  match A.cx.vars.get? id with
  | some x =>
    if x.cls = .global then (A.layout.globalAddr x.index).getD 0
    else ((A.layout.array id).map Prod.fst).getD 0
  | none => 0

/-- The setting of an activation: its words and addresses, with callees from outside. -/
def setting (A : Activation) (reply : List (Run.Event α) → Option (Word × (Word → Word)))
    (look : (Int → Word) → (VarId → Word) → α) : Run.Setting α where
  valid a := (A.layout.index? a).isSome
  reply := reply
  vars := A.cx.vars
  addr := A.addrOf
  look := look

/-- The setting of an activation suits it, when operands can be told apart and the frame has the local
arrays among them and no others. -/
theorem suits_setting {A : Activation} {stmts : List Stmt}
    {reply : List (Run.Event α) → Option (Word × (Word → Word))}
    {look : (Int → Word) → (VarId → Word) → α}
    (hnum : ∀ st ∈ stmts, st.isNumbered A.cx.vars = true)
    (hapart : ∀ v w u, Semantics.Mentions stmts v → Semantics.Mentions stmts w →
      A.cx.vars.vreg? v = some u → A.cx.vars.vreg? w = some u → v = w) (hg : A.GlobalsPlaced)
    (hframe : ∀ id l, A.cx.placed.arrays[id]? = some l → ∃ x, A.cx.vars.get? id = some x ∧
      x.cls = .loc ∧ x.isArray = true ∧ l.span = x.elems)
    (hown : ∀ id x, Semantics.Mentions stmts (.var id) → A.cx.vars.get? id = some x → x.cls = .loc →
      x.isArray = true → ∃ l, A.cx.placed.arrays[id]? = some l) :
    A.layout.Suits (A.setting reply look) stmts := by
  refine ⟨hnum, hapart, fun id x _ hx hcls => ?_, fun id p hv => ?_, fun _ => rfl⟩
  · have hx' : A.cx.vars.get? id = some x := hx
    obtain ⟨a, ha, -⟩ := hg id x hx hcls
    have haddr : A.layout.globalAddr x.index = some a := ha
    simp only [setting, addrOf, hx', if_pos hcls, haddr, Option.getD_some]
  · -- a local array has the address and the size that its location has
    have hlocal : ∀ x l, A.cx.vars.get? id = some x → x.cls = .loc →
        A.cx.placed.arrays[id]? = some l → l.span = x.elems →
          A.layout.array id = some ((A.setting reply look).addr id, x.elems.toNat) := by
      intro x l hx hcls hl hspan
      have harray : A.layout.array id = some (A.sp + word (4 * l.slot), x.elems.toNat) := by
        simp only [layout, hl, Option.map_some, hspan]
      have hnot : ¬ x.cls = .global := by
        rw [hcls]
        decide
      rw [harray]
      simp only [setting, addrOf, hx, if_neg hnot, harray, Option.map_some, Option.getD_some]
    constructor
    · intro h
      obtain ⟨l, hl, -⟩ := Option.map_eq_some_iff.1 h
      obtain ⟨x, hx, hcls, harr, hspan⟩ := hframe id l hl
      rw [hlocal x l hx hcls hl hspan] at h
      exact ⟨x, hx, hcls, harr, (Option.some.inj h).symm⟩
    · rintro ⟨x, hx, hcls, harr, rfl⟩
      obtain ⟨l, hl⟩ := hown id x hv hx hcls harr
      obtain ⟨y, hy, -, -, hspan⟩ := hframe id l hl
      obtain rfl := Option.some.inj (hy.symm.trans hx)
      exact hlocal y l hx hcls hl hspan

/-- A function that was placed, lowered and loaded, with the setting that its statements run in. -/
structure Setup (A : Activation) (fl : Flow) (c : Counters) (pre : List Instr) (X : Run.Setting α) :
    Prop where
  sound : A.cx.placed.Sound A.cx.vars fl
  loaded : A.Loaded c pre
  roomy : A.Roomy
  globals : A.GlobalsPlaced
  vars : X.vars = A.cx.vars
  suits : A.layout.Suits X A.cx.placed.func.stmts
  /-- Callees destroy the registers that pass their arguments. -/
  arguments : ∀ ret callee args destroy, .call ret callee args ∈ A.cx.placed.func.stmts →
    A.cx.sets[callee]? = some destroy →
      ∀ k, k < args.length → destroy.contains (Reg.a k) = true

/-- The machine is where a run is: the values of its state are in their places, at the code of the next
statement. -/
structure At (A : Activation) (c : Counters) (pre : List Instr) (X : Run.Setting α)
    (Knows : List (Run.Event α) → Machine → Prop) (i : Nat) (t : Run.State α) (m : Machine)
    (pc : Nat) : Prop where
  code : A.AtCode c pre i pc
  values : ∃ s, A.Related (A.cx.placed.Live i) s m ∧ s.Mirrors A.layout X A.cx.placed.func.stmts t
  knows : Knows t.world.trace m

/-- A running machine is where a run is, when the live values and the memory are as in the run. -/
theorem at_of_running {A : Activation} {c : Counters} {pre : List Instr} {X : Run.Setting α}
    {Knows : List (Run.Event α) → Machine → Prop} {i : Nat} {t : Run.State α} {m : Machine}
    {pc : Nat} (hsuits : A.layout.Suits X A.cx.placed.func.stmts) (hcode : A.AtCode c pre i pc)
    (hrun : A.Running m) (hvalues : ∀ v u l, Semantics.Mentions A.cx.placed.func.stmts v →
      X.vars.vreg? v = some u → A.cx.placed.Live i u → A.cx.placed.locs[u]? = some l →
        t.eval X v = some (A.valueAt m l))
    (hmem : ∀ a k, A.layout.index? a = some k → m.mem.get k = t.world.mem a)
    (hknows : Knows t.world.trace m) : A.At c pre X Knows i t m pc := by
  obtain ⟨s, hs, henv, hrest⟩ := Semantics.exists_mirrors hsuits (A.view m) t
  have hrel := hrun.related (A.cx.placed.Live i)
  refine ⟨hcode, ⟨s, ⟨hrel.zero, hrel.sp_eq, hrel.fits, fun u l hu hl => ?_, fun k hk => ?_⟩, hs⟩,
    hknows⟩
  -- A value that some statement mentions is given by the assumption; any other may be chosen.
  · by_cases h : ∃ v, Semantics.Mentions A.cx.placed.func.stmts v ∧ X.vars.vreg? v = some u
    · obtain ⟨v, hv, hvu⟩ := h
      have heval := hvalues v u l hv hvu hu hl
      rw [hs.held v u hv hvu] at heval
      exact (Option.some.inj heval).symm
    · rw [henv u fun v hv hvu => h ⟨v, hv, hvu⟩]
      exact hrel.values u l hu hl
  · by_cases h : ∃ a, A.layout.index? a = some k
    · obtain ⟨a, ha⟩ := h
      rw [hs.mem a k ha, hmem a k ha]
    · rw [hrest k fun a ha => h ⟨a, ha⟩]
      exact hrel.words_eq k hk

/-- What the machine does for a run that got to a status: it gets to the same place, or it returns with
the value, the memory and the stack of the caller.  A fault, and a callee that does not come back, leave
it open. -/
def Realizes (A : Activation) (c : Counters) (pre : List Instr) (lim : Limits) (X : Run.Setting α)
    (Knows : List (Run.Event α) → Machine → Prop) (m : Machine) (pc : Nat) : Run.Status α → Prop
  | .running i t => ∃ m' pc', Goes A.im lim A.func m pc m' pc' ∧ A.At c pre X Knows i t m' pc'
  | .ended trace (.returned v mem _) => ∃ m₁ m', Finishes A.im lim A.func m pc m' ∧
      (∀ x, v = some x → m'.val (Reg.a 0) = x) ∧ m'.sp = A.sp + A.func.frame ∧
      (∀ a k, A.layout.index? a = some k → m'.mem.get k = mem a) ∧
      Knows trace m₁ ∧ Stays { m₁ with depth := m₁.depth - 1 } m'
  | .ended _ _ => True

variable {A : Activation} {fl : Flow} {c : Counters} {pre : List Instr} {lim : Limits}
  {X : Run.Setting α} {Knows : List (Run.Event α) → Machine → Prop} {i pc pc' : Nat}
  {t : Run.State α} {m m' : Machine}

/-- The machine may go some steps first. -/
theorem Realizes.of_goes {status : Run.Status α} (hgoes : Goes A.im lim A.func m pc m' pc')
    (h : A.Realizes c pre lim X Knows m' pc' status) : A.Realizes c pre lim X Knows m pc status := by
  cases status with
  | running j t =>
    obtain ⟨m₁, pc₁, hgoes₁, hat⟩ := h
    exact ⟨m₁, pc₁, hgoes.trans hgoes₁, hat⟩
  | ended trace o =>
    cases o with
    | returned v mem seen =>
      obtain ⟨m₁, m₂, hfin, hrest⟩ := h
      exact ⟨m₁, m₂, hgoes.finishes hfin, hrest⟩
    | fault | lost => trivial

/-! ## Steps -/

/-- A memory that has the data words of one state has those of the other behind addresses. -/
theorem mem_eq_of_mirrors {s : Semantics.State} (hs : s.Mirrors A.layout X A.cx.placed.func.stmts t)
    (hmem : ∀ k, A.data k = true → m.mem.get k = s.mem k) (a : Word) (k : Nat)
    (hk : A.layout.index? a = some k) : m.mem.get k = t.world.mem a := by
  rw [hmem k (Semantics.Layout.data_of_index? hk), hs.mem a k hk]

section Steps

variable (hsetup : A.Setup fl c pre X) (hcarries : A.Carries lim X Knows) (hlim : lim.steps = 0)

include hsetup hcarries hlim

/-- A statement that is no call. -/
theorem realizes_stmt {st : Stmt} (hst : A.cx.placed.func.stmts[i]? = some st)
    (hcall : st.callee? = none) (h : A.At c pre X Knows i t m pc) :
    A.Realizes c pre lim X Knows m pc (Run.step X A.cx.placed.func.stmts i t) := by
  obtain ⟨s, hrel, hs⟩ := h.values
  have htrace : Knows (Run.step X A.cx.placed.func.stmts i t).trace m :=
    Run.endures_step (hcarries.store m) hst hcall h.knows
  have hcomes := Semantics.comes_step hsetup.suits hs hst
  rw [hsetup.vars] at hcomes
  have hfollows : ∀ o, Semantics.step A.layout A.cx.vars (Flow.labelTable A.cx.placed.func.stmts) i s st =
      some o → A.Follows c pre m pc o :=
    fun o => follows_stmt hsetup.sound hsetup.loaded hrel hst hcall h.code
  -- Both steps are now just outcomes that accord with each other.
  generalize Semantics.step A.layout A.cx.vars (Flow.labelTable A.cx.placed.func.stmts) i s st = o
    at hcomes hfollows
  generalize Run.step X A.cx.placed.func.stmts i t = status at hcomes htrace ⊢
  cases hcomes with
  | fault => trivial
  | next hs' =>
    obtain ⟨m', pc', hreach, hat, hrel'⟩ := hfollows _ rfl
    exact ⟨m', pc', hreach.goes hlim, hat, ⟨_, hrel', hs'⟩, hcarries.stays htrace hreach.stays⟩
  | ret x =>
    obtain ⟨m', hret, hval, hsp, hmem⟩ := hfollows _ rfl
    exact ⟨m, m', hret.finishes hlim, hval, hsp, mem_eq_of_mirrors hs hmem, htrace, hret.stays⟩
  | call => exact (hfollows _ rfl).elim

omit hlim in
/-- From the answer on: the result is in its place in both meanings, unless nobody reads it. -/
theorem realizes_answer {ret : Option Val} {callee : String} {args : List Val} {x : Word}
    {s₁ s' : Semantics.State} {t₁ : Run.State α} {m₃ : Machine}
    (hst : A.cx.placed.func.stmts[i]? = some (.call ret callee args))
    (hs₁ : s₁.Mirrors A.layout X A.cx.placed.func.stmts t₁) (htakes : A.Takes i ret x s₁ s')
    (hrel : A.Related (A.cx.placed.Live (i + 1)) s' m₃) (hcode : A.AtCode c pre (i + 1) pc')
    (hknows : Knows t₁.world.trace m₃) (hgoes : Goes A.im lim A.func m pc m₃ pc') :
    A.Realizes c pre lim X Knows m pc (match ret with
      | none => .running (i + 1) t₁
      | some d => match t₁.assign X x d with
        | some t' => .running (i + 1) t'
        | none => .ended t₁.world.trace .fault) := by
  cases ret with
  | none =>
    obtain rfl := htakes.same rfl
    exact ⟨m₃, pc', hgoes, hcode, ⟨_, hrel, hs₁⟩, hknows⟩
  | some d =>
    obtain ⟨hd, hnum⟩ := hsetup.suits.dst (List.mem_of_getElem? hst) (v := d) rfl
    have hassign := Semantics.assign_rel hsetup.suits hs₁ hd hnum x
    rw [hsetup.vars] at hassign
    simp only
    cases ht : t₁.assign X x d with
    | none => trivial
    | some t' =>
      have hknows' : Knows t'.world.trace m₃ :=
        Run.State.endures_assign (hcarries.store m₃) ht hknows
      rw [ht] at hassign
      generalize hs₂ : s₁.assign A.layout A.cx.vars d x = s₂ at hassign
      cases hassign with
      | some hmirrors =>
        refine ⟨m₃, pc', hgoes, hcode, ⟨_, ?_, hmirrors⟩, hknows'⟩
        cases hread : unread A.cx i d with
        | false =>
          have hw : wanted A.cx i (some d) = some d := by simp [wanted, Option.filter, hread]
          rw [htakes.assign d hw] at hs₂
          cases hs₂
          exact hrel
        | true =>
          -- the code drops the result; the statement puts it where nobody looks
          have hw : wanted A.cx i (some d) = none := by simp [wanted, Option.filter, hread]
          obtain rfl := htakes.same hw
          obtain ⟨u, hu, hmeet⟩ := (Option.any_eq_true _ _).1 hread
          simp only [Semantics.State.assign, hu] at hs₂
          cases hs₂
          refine hrel.unseen (fun hlive => ?_) x
          rw [← meet_iff_live hsetup.sound hst (fun _ _ => rfl) u, Placement.Meet] at hlive
          rw [hlive] at hmeet
          cases hmeet

/-- A call. -/
theorem realizes_call {ret : Option Val} {callee : String} {args : List Val}
    (hst : A.cx.placed.func.stmts[i]? = some (.call ret callee args))
    (h : A.At c pre X Knows i t m pc) :
    A.Realizes c pre lim X Knows m pc (Run.step X A.cx.placed.func.stmts i t) := by
  obtain ⟨s, hrel, hs⟩ := h.values
  have hmem := List.mem_of_getElem? hst
  cases hxs : args.mapM (t.eval X) with
  | none =>
    -- an argument without a value
    have hfault : Run.step X A.cx.placed.func.stmts i t = .ended t.world.trace .fault := by
      simp only [Run.step, hst]
      cases ret with
      | none => simp only [Run.exec, Run.callOut, hxs, Run.follow]
      | some d => simp only [Run.exec, Run.compute, Run.callOut, hxs, Run.deliver, Run.follow]
    rw [hfault]
    trivial
  | some xs =>
    rw [Run.step_call hst hxs, Run.answered]
    cases hback : (t.world.enter callee xs (t.seen X)).back X.toHost with
    | none => trivial
    | some p =>
      obtain ⟨x, w⟩ := p
      obtain ⟨⟨x, mem'⟩, hreply, hp⟩ := Option.map_eq_some_iff.1 hback
      cases hp
      -- the arguments, first in the operands and then in their registers
      have hvalue : args.mapM (s.eval A.layout A.cx.vars) = some xs := by
        rw [← hsetup.vars, Semantics.mapM_eval_eq fun v hv =>
          Semantics.eval_source hsetup.suits hs hmem (by simpa [Stmt.sources] using hv), hxs]
      obtain ⟨hlen, hget⟩ := getElem?_of_mapM hvalue
      have hcode := hsetup.loaded.lowered i _ hst
      rw [Lowering.stmt, if_neg (by simp [elided, Stmt.callee?])] at hcode
      obtain ⟨destroy, pass, result, hset, hcount, -⟩ := call_parts hcode
      have hargs := hsetup.arguments ret callee args destroy hmem hset
      have hplain : ∀ l, Stmt.call ret callee args ≠ .label l := by
        intro l hl
        cases hl
      rw [h.code.first hst hplain]
      obtain ⟨m₁, pc₁, hreach₁, hcall, hrun, hpassed, hdata, hreturn⟩ :=
        hrel.calls hsetup.sound hsetup.roomy hst hsetup.globals hcount hset hargs hcode
          (hsetup.loaded.codeAt hst) hget
      obtain ⟨m₂, hgoes₂, hret, hx, hmem₂, hknows₂⟩ := hcarries.answers hcall hset hrun
        (fun k y hy => hpassed k y (by
          obtain ⟨hlt, _⟩ := List.getElem?_eq_some_iff.1 hy
          omega) hy)
        (mem_eq_of_mirrors hs hdata) (hcarries.stays h.knows hreach₁.stays) hreply
      obtain ⟨s', m₃, hreach₃, hrel₃, htakes⟩ := hreturn m₂ hret
      rw [hx] at htakes
      have hs₁ : Semantics.State.Mirrors A.layout X A.cx.placed.func.stmts
          { s with mem := m₂.mem.get }
          (t.inWorld { t.world.enter callee xs (t.seen X) with mem := mem' }) :=
        hs.inWorld hmem₂
      refine realizes_answer hsetup hcarries hst hs₁ htakes hrel₃ (Or.inl ?_)
        (hcarries.stays hknows₂ hreach₃.stays)
        (((hreach₁.goes hlim).trans hgoes₂).trans (hreach₃.goes hlim))
      rw [start_succ, add_assoc]

/-- One step of any statement. -/
theorem realizes_step (h : A.At c pre X Knows i t m pc) :
    A.Realizes c pre lim X Knows m pc (Run.step X A.cx.placed.func.stmts i t) := by
  cases hst : A.cx.placed.func.stmts[i]? with
  | none =>
    simp only [Run.step, hst]
    trivial
  | some st =>
    cases hcall : st.callee? with
    | none => exact realizes_stmt hsetup hcarries hlim hst hcall h
    | some g =>
      cases st with
      | call => exact realizes_call hsetup hcarries hlim hst h
      | jump | branch | label | binary | unary | move | store | load | zeroFill | ret => cases hcall

/-! ## Runs -/

/-- Any number of steps. -/
theorem realizes_run (n : Nat) (h : A.At c pre X Knows i t m pc) :
    A.Realizes c pre lim X Knows m pc (Run.run X A.cx.placed.func.stmts n i t) := by
  -- On the number of steps of the run; each is one round of the machine.
  induction n generalizing i t m pc with
  | zero => exact ⟨m, pc, .refl, h⟩
  | succ n ih =>
    have hstep := realizes_step hsetup hcarries hlim h
    cases hs : Run.step X A.cx.placed.func.stmts i t with
    | running j t' =>
      rw [hs] at hstep
      obtain ⟨m', pc', hgoes, hat⟩ := hstep
      rw [Run.run_of_running n hs]
      exact (ih hat).of_goes hgoes
    | ended trace o =>
      rw [hs] at hstep
      rwa [Run.run_of_ended n hs]

/-- A run that returns is realized by a return, with the value in its register and the memory that the
run left. -/
theorem finishes_of_ends (h : A.At c pre X Knows i t m pc) {trace : List (Run.Event α)}
    {v : Option Word} {mem : Word → Word} {seen : α}
    (hends : Run.Ends X A.cx.placed.func.stmts i t trace (.returned v mem seen)) :
    ∃ m', Finishes A.im lim A.func m pc m' ∧ (∀ x, v = some x → m'.val (Reg.a 0) = x) ∧
      m'.sp = A.sp + A.func.frame ∧ ∀ a k, A.layout.index? a = some k → m'.mem.get k = mem a := by
  obtain ⟨n, hrun⟩ := hends
  have hreal := realizes_run hsetup hcarries hlim n h
  rw [hrun] at hreal
  obtain ⟨-, m', hfin, hval, hsp, hmem, -⟩ := hreal
  exact ⟨m', hfin, hval, hsp, hmem⟩

end Steps

/-! ## A run to its end -/

/-- The world of the function that clears its array: nobody is called in it. -/
def clearedSetting : Run.Setting Unit := cleared.setting (fun _ => none) fun _ _ => ()

/-- The only variable of the function is its array. -/
theorem eq_of_get?_cleared {id : VarId} {x : Var} (h : clearedVars.get? id = some x) :
    id = 0 ∧ x = ⟨"A", .loc, 0, some [20]⟩ := by
  unfold VarTable.get? at h
  split at h
  · next h0 =>
    obtain ⟨hlt, hx⟩ := Array.getElem?_eq_some_iff.1 h
    have hid : id.toNat = 0 := Nat.lt_one_iff.1 hlt
    refine ⟨Int.le_antisymm (Int.toNat_eq_zero.1 hid) h0, ?_⟩
    rw [← hx]
    simp only [hid]
    rfl
  · cases h

/-- The function has no globals. -/
theorem globalsPlaced_cleared : cleared.GlobalsPlaced := by
  intro id x hx hcls
  obtain ⟨-, rfl⟩ := eq_of_get?_cleared hx
  cases hcls

/-- The only array of the frame is the one that is cleared. -/
theorem eq_of_array_cleared {id : VarId} {l : Loc} (h : clearedContext.placed.arrays[id]? = some l) :
    id = 0 ∧ l = .stack 0 20 := by
  have hone : clearedContext.placed.arrays.toList = [(0, Loc.stack 0 20)] := by decide
  have hmem := Std.TreeMap.mem_toList_iff_getElem?_eq_some.2 h
  rw [hone, List.mem_singleton, Prod.mk.injEq] at hmem
  exact hmem

/-- The function is placed, lowered and loaded as its runs need it. -/
theorem setup_cleared : cleared.Setup clearedFlow {} [] clearedSetting := by
  obtain ⟨c', hlower⟩ := lowered_cleared
  refine ⟨sound_cleared, loaded_of_func hlower unlabelled_nil rfl fresh_cleared, ⟨by decide, ?_⟩,
    globalsPlaced_cleared, rfl, ?_, ?_⟩
  · simp only [cleared, clearedContext, analyze_cleared]
    decide
  · -- the operands are few, so that their numbers are compared one by one
    have hapart : ∀ v ∈ clearedFunc.stmts.flatMap Stmt.operands,
        ∀ w ∈ clearedFunc.stmts.flatMap Stmt.operands, ∀ u ∈ clearedVars.vreg? v,
          clearedVars.vreg? w = some u → v = w := by decide
    refine suits_setting (by decide) (fun v w u hv hw hvu hwu => ?_) globalsPlaced_cleared
      (fun id l hl => ?_) fun id x _ hx _ _ => ?_
    · exact hapart v (List.mem_flatMap.2 hv) w (List.mem_flatMap.2 hw) u hvu hwu
    · obtain ⟨rfl, rfl⟩ := eq_of_array_cleared hl
      exact ⟨_, rfl, rfl, rfl, rfl⟩
    · obtain ⟨rfl, -⟩ := eq_of_get?_cleared hx
      exact ⟨.stack 0 20, by decide⟩
  · intro ret callee args destroy hmem
    simp [cleared, clearedContext, clearedFunc] at hmem

/-- Nothing has to be known about callees that do not exist. -/
theorem carries_cleared : cleared.Carries { steps := 0 } clearedSetting fun _ _ => True := by
  refine ⟨fun _ _ => trivial, fun _ _ _ _ _ => trivial, ?_⟩
  intro trace m pc callee destroy xs mem seen x mem' _ hset
  have hnone : cleared.cx.sets[callee]? = none := by simp [cleared, clearedContext]
  rw [hnone] at hset
  cases hset

/-- The run starts from the memory of the machine. -/
def clearedStart : Run.State Unit where
  temp _ := 0
  var _ := 0
  world := { mem := fun a => (cleared.layout.index? a).elim 0 clearedMachine.mem.get, trace := [] }

/-- The machine is where the run starts, since nothing is live there. -/
theorem at_cleared :
    cleared.At {} [] clearedSetting (fun _ _ => True) 0 clearedStart clearedMachine 0 := by
  refine at_of_running setup_cleared.suits (Or.inl (by decide))
    ⟨related_cleared.zero, related_cleared.sp_eq, related_cleared.fits⟩ (fun v u l _ _ hu _ => ?_)
    (fun a k hk => ?_) trivial
  · have hnone : (clearedContext.placed.live.getD 0 BitSet.empty).toList = [] := by
      simp only [clearedContext, analyze_cleared]
      decide
    have hmem : u ∈ (clearedContext.placed.live.getD 0 BitSet.empty).toList :=
      (BitSet.mem_toList _ _).2 hu
    rw [hnone] at hmem
    cases hmem
  · simp only [clearedStart, hk, Option.elim_some]

/-- The value that a run has returned. -/
def returned? : Run.Status Unit → Option Word
  | .ended _ (.returned v _ _) => v
  | _ => none

/-- A value was returned by a run that has ended. -/
theorem exists_of_returned? {status : Run.Status Unit} {x : Word} (h : returned? status = some x) :
    ∃ trace mem, status = .ended trace (.returned (some x) mem ()) := by
  cases status with
  | running => cases h
  | ended trace o =>
    cases o with
    | returned v mem seen =>
      cases h
      exact ⟨trace, mem, rfl⟩
    | fault | lost => cases h

/-- The run adds a cleared element to the value beside the array, and returns the value. -/
theorem ends_cleared : ∃ trace mem, Run.Ends clearedSetting clearedFunc.stmts 0 clearedStart trace
    (.returned (some 7) mem ()) := by
  have hvalue : returned? (Run.run clearedSetting clearedFunc.stmts 5 0 clearedStart) = some 7 := by
    decide
  obtain ⟨trace, mem, hrun⟩ := exists_of_returned? hvalue
  exact ⟨trace, mem, 5, hrun⟩

/-- The machine returns the value of the run. -/
theorem finishes_of_ends_cleared : ∃ m', Finishes cleared.im { steps := 0 } cleared.func clearedMachine 0
    m' ∧ m'.val (Reg.a 0) = 7 := by
  obtain ⟨trace, mem, hends⟩ := ends_cleared
  obtain ⟨m', hfin, hval, -, -⟩ :=
    finishes_of_ends setup_cleared carries_cleared rfl at_cleared hends
  exact ⟨m', hfin, hval 7 rfl⟩

end Activation

end Tac
