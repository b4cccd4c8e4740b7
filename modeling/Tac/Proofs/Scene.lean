import Mathlib
import Tac.Proofs.Folding
import Tac.Proofs.Growth

/-!
# A tree beside its code

The code of a piece of tree starts where the statements end before the piece is generated and ends
where they end after it.  Since generation only adds, each of these places is the same in the whole
function.  A run of the code is followed from place to place and compared with the evaluation of the
piece.

* **`Scene`** — a function with the end of its generation, what it runs in and what its tree is
  evaluated in; `Scene.Sound` says how these belong together.
* **`Scene.Follows`** — the run goes where an evaluation leads, or stops as it stops.
* **`Scene.Holds`, `Scene.Quiet`** — an operand has a value, and running the code of an expression
  does not change it: its temporaries are older, variables are not assigned and the global scalars
  that it reads are kept by every call.
-/

namespace Tac.Tree.Generate

open Run (Reach Setting Status World Place)
open Meaning (Context Eval Locals Stop)

/-- A function with the end of its generation, what its code runs in, what its tree is evaluated in
and the number of its first temporary. -/
structure Scene where
  env : Env
  fin : State
  X : Setting Unit
  C : Context
  first : Int

namespace Scene

variable (S : Scene)

/-- The statements of the function. -/
def code : List Stmt := S.fin.stmts.toList

/-- The variable of a declaration. -/
def look (d : DeclId) : Option VarId := S.fin.scope[d]?.or S.env.globals[d]?

/-- The code and the tree have the same declarations and the same outside, variables are in the
places of their declarations, and numbers are not used twice. -/
structure Sound : Prop where
  decls : S.C.decls = S.env.decls
  host : S.X.toHost = S.C.host
  fits : Meaning.InitsFit S.env.decls
  labels : (labelsOf S.code).Nodup
  first : wrap64 S.first = S.first
  few : S.fin.temps.size ≤ 18446744073709551616
  place : ∀ {d : DeclId} {id : VarId}, S.look d = some id →
    S.X.place? id = some (S.C.place d) ∧ S.X.addr id = S.C.addr d
  apart : ∀ {d d' : DeclId} {id : VarId}, S.look d = some id → S.look d' = some id →
    S.C.place d = .held → d = d'
  globals : ∀ {d : DeclId} {id : VarId}, S.env.globals[d]? = some id → S.fin.scope[d]? = none

/-- Temporaries are numbered from the first of the function on. -/
def Starts (st : State) : Prop := st.counters.temps = nth S.first st.temps.size

/-- Generation went on from a state to the end of the function. -/
structure Leads (st : State) : Prop where
  stmts : st.stmts.toList <+: S.code
  vars : st.vars.toList <+: S.X.vars.toList
  scope : ∀ {d : DeclId} {id : VarId}, st.scope[d]? = some id → S.fin.scope[d]? = some id
  temps : st.temps.size ≤ S.fin.temps.size

section Generation

variable {S} {st st' : State} {ps : List Int}

/-- More statements may be added behind those at the start. -/
theorem Starts.grown (h : S.Starts st) (hg : Grown ps st st') : S.Starts st' := by
  obtain ⟨c, k, m, -, -, -, htemp, htemps, -⟩ := hg
  have hsize : st'.temps.size = st.temps.size + m := by
    rw [← Array.length_toList, htemps, List.length_append, Array.length_toList, drawn,
      List.length_map, List.length_range]
  rw [Starts, htemp, h, hsize, nth_add]

theorem Starts.drawLabel (h : S.Starts st) : S.Starts st.drawLabel := h

/-- A state leads to the end if a later one does and what is declared between them is new. -/
theorem Leads.back (h : S.Leads st') (hg : Grown ps st st') {decls : Decls} {ds : List DeclId}
    (hd : Declared decls ds st st') (hfresh : Fresh ds st) : S.Leads st where
  stmts := hg.isPrefix.trans h.stmts
  vars := hd.named.isPrefix.trans h.vars
  scope {d id} hscope := by
    refine h.scope ?_
    rw [hd.named.getElem?_scope fun hmem => ?_, hscope]
    rw [hfresh.not_mem d hmem] at hscope
    cases hscope
  temps := Nat.le_trans hg.size_temps h.temps

/-- What leads to the code after more was emitted led to it before. -/
theorem Leads.before (h : S.Leads st') (hg : Grown ps st st') {decls : Decls}
    (hd : Declared decls [] st st') : S.Leads st :=
  h.back hg hd (.nil st)

/-- What leads to the code after a generator did so before it. -/
theorem Leads.of_adds {α : Type} {g : Gen α} {a : α} (h : S.Leads st')
    (hg : Adds S.env.decls [] g) (hrun : g st = .ok (a, st')) : S.Leads st :=
  h.before (hg hrun).1 (hg hrun).2

/-- A generator leaves what starts the code as it was. -/
theorem Starts.of_adds {α : Type} {decls : Decls} {ds : List DeclId} {g : Gen α} {a : α}
    (h : S.Starts st) (hg : Adds decls ds g) (hrun : g st = .ok (a, st')) : S.Starts st' :=
  h.grown (hg hrun).1

/-- A declaration that is found while the function is generated is found at its end. -/
theorem Leads.look (hS : S.Sound) (h : S.Leads st) {d : DeclId} {pos : Pos} {id : VarId}
    (hrun : lookup S.env d pos st = .ok (id, st')) : S.look d = some id := by
  obtain ⟨-, hscope | ⟨-, hglobal⟩⟩ := lookup_inv hrun
  · rw [Scene.look, h.scope hscope, Option.some_or]
  · rw [Scene.look, hS.globals hglobal, Option.none_or, hglobal]

/-- The state before a statement leads to the code as well. -/
theorem Leads.of_add {s : Stmt} (h : S.Leads (st.add s)) : S.Leads st where
  stmts := (List.prefix_append _ _).trans (Array.toList_push ▸ h.stmts)
  vars := h.vars
  scope := h.scope
  temps := h.temps

/-- The state before a label was drawn leads to the code as well. -/
theorem Leads.of_drawLabel (h : S.Leads st.drawLabel) : S.Leads st :=
  ⟨h.stmts, h.vars, h.scope, h.temps⟩

/-- The temporary that was drawn is the destination of the statement. -/
theorem Leads.of_define {s : Val → Stmt} (h : S.Leads (st.define s)) :
    S.Leads (st.add (s (.temp st.counters.temps))) where
  stmts := h.stmts
  vars := h.vars
  scope := h.scope
  temps := by
    have := h.temps
    rw [State.define, Array.size_push] at this
    exact Nat.le_of_succ_le this

/-- The statement that was just added is found at its place in the code. -/
theorem Leads.getElem?_add {s : Stmt} (h : S.Leads (st.add s)) : S.code[st.stmts.size]? = some s := by
  obtain ⟨rest, hrest⟩ := h.stmts
  rw [← hrest, State.add, Array.toList_push, List.append_assoc, ← Array.length_toList,
    List.getElem?_append_right (Nat.le_refl _), Nat.sub_self]
  rfl

/-- A label that stands in two places stands there twice. -/
theorem eq_of_labels_nodup {ss : List Stmt} (h : (labelsOf ss).Nodup) {l : Int} {i k : Nat}
    (hi : ss[i]? = some (.label l)) (hk : ss[k]? = some (.label l)) (hlt : i < k) : False := by
  have hpair := List.pairwise_iff_getElem.1 (List.pairwise_filterMap.1 h)
  obtain ⟨hi', hi⟩ := List.getElem?_eq_some_iff.1 hi
  obtain ⟨hk', hk⟩ := List.getElem?_eq_some_iff.1 hk
  exact hpair i k hi' hk' hlt l (by rw [hi]; rfl) l (by rw [hk]; rfl) rfl

/-- A label that was written is found where it was written. -/
theorem Sound.labelTable_add (hS : S.Sound) {l : Int} (h : S.Leads (st.add (.label l))) :
    (Flow.labelTable S.code)[l]? = some st.stmts.size := by
  rw [Flow.getElem?_labelTable]
  exact ⟨h.getElem?_add, fun k hk hlabel => eq_of_labels_nodup hS.labels h.getElem?_add hlabel hk⟩

end Generation

/-! ## Following an evaluation -/

/-- The run stops as the evaluation does: it is lost in the same callee, or goes on for `n` steps at
least and shows the same until then. -/
def Stopped (n i : Nat) (s : Run.State Unit) : Stop → Prop
  | .fault => True
  | .lost trace => Reach S.X S.code 0 i s (.ended trace .lost)
  | .spent trace => ∃ j t, Reach S.X S.code n i s (.running j t) ∧ t.world.trace = trace

/-- The run gets to a place that `Q` accepts for the result of an evaluation, or stops as the
evaluation does. -/
def Follows {α σ : Type} (n i : Nat) (s : Run.State Unit) (r : Except Stop (α × σ))
    (Q : α → σ → Status Unit → Prop) : Prop :=
  match r with
  | .ok (a, w) => ∃ status, Reach S.X S.code 0 i s status ∧ Q a w status
  | .error stop => S.Stopped n i s stop

section Following

variable {S} {α β σ : Type} {m n i j : Nat} {s t : Run.State Unit}

/-- The code may take some steps first. -/
theorem Follows.after {r : Except Stop (α × σ)} {Q : α → σ → Status Unit → Prop}
    (hreach : Reach S.X S.code m i s (.running j t)) (h : S.Follows n j t r Q) :
    S.Follows (m + n) i s r Q := by
  cases r with
  | ok p =>
    obtain ⟨status, hstatus, hQ⟩ := h
    exact ⟨status, (hreach.trans hstatus).eventually, hQ⟩
  | error stop =>
    -- What the evaluation came to says how far the code has to go.
    cases stop with
    | fault => trivial
    | lost trace => exact (hreach.trans h).eventually
    | spent trace =>
      obtain ⟨j', t', hreach', htrace⟩ := h
      exact ⟨j', t', hreach.trans hreach', htrace⟩

/-- Fewer steps may be asked for. -/
theorem Follows.fewer {r : Except Stop (α × σ)} {Q : α → σ → Status Unit → Prop}
    (h : S.Follows n i s r Q) (hm : m ≤ n) : S.Follows m i s r Q := by
  cases r with
  | ok p => exact h
  | error stop =>
    cases stop with
    | fault => trivial
    | lost trace => exact h
    | spent trace =>
      obtain ⟨j, t, hreach, htrace⟩ := h
      exact ⟨j, t, hreach.mono hm, htrace⟩

/-- One evaluation after another: the run goes on with the second, or the second adds nothing. -/
theorem Follows.chain {x : StateT σ (Except Stop) α} {f : α → StateT σ (Except Stop) β} {w : σ}
    {Q : α → σ → Status Unit → Prop} {R : β → σ → Status Unit → Prop}
    (hx : S.Follows n i s (x w) Q)
    (hf : ∀ a w' status, Q a w' status →
      (∃ j t, status = .running j t ∧ S.Follows n j t (f a w') R) ∨
        ∃ b w'', f a w' = .ok (b, w'') ∧ R b w'' status) :
    S.Follows n i s ((x >>= f) w) R := by
  -- What stops the first part stops the whole.
  cases hr : x w with
  | ok p =>
    rw [hr] at hx
    obtain ⟨status, hreach, hQ⟩ := hx
    rw [bind_of_ok hr]
    obtain ⟨j, t, rfl, hrest⟩ | ⟨b, w'', hb, hR⟩ := hf p.1 p.2 status hQ
    · exact (hrest.after hreach).fewer (Nat.le_add_left _ _)
    · rw [hb]
      exact ⟨status, hreach, hR⟩
  | error stop =>
    rw [hr] at hx
    rw [bind_of_error hr]
    exact hx

/-- The code of a sequence: that of its first part, and then that of its second, which
starts where the first one ended. -/
theorem Follows.bind {x : StateT σ (Except Stop) α} {f : α → StateT σ (Except Stop) β} {w : σ}
    {Q : α → σ → Status Unit → Prop} {R : β → σ → Status Unit → Prop}
    (hx : S.Follows n i s (x w) Q)
    (hf : ∀ a w' status, Q a w' status → ∃ j t, status = .running j t ∧ S.Follows n j t (f a w') R) :
    S.Follows n i s ((x >>= f) w) R :=
  hx.chain fun a w' status hQ => Or.inl (hf a w' status hQ)

/-- The code may be known to do more than is asked. -/
theorem Follows.imp {r : Except Stop (α × σ)} {Q R : α → σ → Status Unit → Prop}
    (h : S.Follows n i s r Q) (hQ : ∀ a w status, Q a w status → R a w status) :
    S.Follows n i s r R := by
  cases r with
  | ok p =>
    obtain ⟨status, hreach, hstatus⟩ := h
    exact ⟨status, hreach, hQ _ _ _ hstatus⟩
  | error stop => exact h

/-- More code behind an evaluation that is finished. -/
theorem Follows.extend {r : Except Stop (α × σ)} {Q R : α → σ → Status Unit → Prop}
    (h : S.Follows n i s r Q) (hQ : ∀ a w status, Q a w status →
      ∃ j t status', status = .running j t ∧ Reach S.X S.code 0 j t status' ∧ R a w status') :
    S.Follows n i s r R := by
  cases r with
  | ok p =>
    obtain ⟨status, hreach, hstatus⟩ := h
    obtain ⟨j, t, status', rfl, hreach', hR⟩ := hQ _ _ _ hstatus
    exact ⟨status', hreach.trans hreach', hR⟩
  | error stop => exact h

/-- Code that reaches what the evaluation returns. -/
theorem Follows.of_ok {r : Except Stop (α × σ)} {Q : α → σ → Status Unit → Prop} {a : α} {w : σ}
    {status : Status Unit} (hr : r = .ok (a, w)) (hreach : Reach S.X S.code m i s status)
    (hQ : Q a w status) : S.Follows n i s r Q := by
  subst hr
  exact ⟨status, hreach.eventually, hQ⟩

/-- Nothing is asked of the code where the meaning is undefined. -/
theorem follows_fault {Q : α → σ → Status Unit → Prop} :
    S.Follows n i s (.error .fault : Except Stop (α × σ)) Q :=
  trivial

/-- An operand needs no code: its value is in the state already. -/
theorem follows_gives {x : Eval Word} {a : Word} (h : Meaning.Gives x a s.world) :
    S.Follows n i s (x s.world) fun b w status =>
      b = a ∧ w = s.world ∧ status = .running i s := by
  rcases h with h | h
  · exact .of_ok h (.refl i s) ⟨rfl, rfl, rfl⟩
  · rw [h]
    exact follows_fault

end Following

/-! ## Operands -/

/-- What the code of an expression leaves alone: variables, the first `k` temporaries and the scalars
in memory among the declarations `frozen`. -/
structure Quiet (frozen : List DeclId) (k : Nat) (s t : Run.State Unit) : Prop where
  var : t.var = s.var
  temp : ∀ i < k, t.temp (nth S.first i) = s.temp (nth S.first i)
  mem : ∀ d ∈ frozen, S.C.place d = .memory →
    t.world.mem (S.C.addr d) = s.world.mem (S.C.addr d)

/-- The operand has a value, and what leaves alone the first `k` temporaries keeps it. -/
def Holds (frozen : List DeclId) (k : Nat) (v : Val) (x : Word) (s : Run.State Unit) : Prop :=
  s.eval S.X v = some x ∧
    match v with
    | .const _ => True
    | .temp n => ∃ i < k, n = nth S.first i
    | .var id => ∃ d, S.look d = some id ∧ (S.C.place d = .memory → d ∈ frozen)

/-- Locals that have a value have it in their variables. -/
def Agrees (loc : Locals) (s : Run.State Unit) : Prop :=
  ∀ ⦃d id x⦄, S.look d = some id → S.C.place d = .held → loc d = some x → s.var id = x

section Operands

variable {S} {frozen : List DeclId} {k k' : Nat} {s t u : Run.State Unit} {v : Val} {x : Word}
  {st : State}

theorem Quiet.refl (s : Run.State Unit) : S.Quiet frozen k s s :=
  ⟨rfl, fun _ _ => rfl, fun _ _ _ => rfl⟩

/-- What is left alone by two pieces of code is left alone by both together. -/
theorem Quiet.trans (h : S.Quiet frozen k s t) (h' : S.Quiet frozen k' t u) (hk : k ≤ k') :
    S.Quiet frozen k s u where
  var := h'.var.trans h.var
  temp i hi := (h'.temp i (Nat.lt_of_lt_of_le hi hk)).trans (h.temp i hi)
  mem d hd hplace := (h'.mem d hd hplace).trans (h.mem d hd hplace)

/-- Code that is quiet leaves the locals what they are. -/
theorem Agrees.quiet {loc : Locals} (h : S.Agrees loc s) (hq : S.Quiet frozen k s t) :
    S.Agrees loc t := fun _ _ _ hlook hplace hloc => by
  rw [hq.var]
  exact h hlook hplace hloc

/-- An operand may rest on fewer temporaries than are allowed. -/
theorem Holds.mono (h : S.Holds frozen k v x s) (hk : k ≤ k') : S.Holds frozen k' v x s := by
  refine ⟨h.1, ?_⟩
  cases v with
  | const c => trivial
  | temp n =>
    obtain ⟨i, hi, hn⟩ := h.2
    exact ⟨i, Nat.lt_of_lt_of_le hi hk, hn⟩
  | var id => exact h.2

/-- Code that is quiet does not change what an operand holds. -/
theorem Holds.quiet (hS : S.Sound) (h : S.Holds frozen k v x s) (hq : S.Quiet frozen k s t) :
    S.Holds frozen k v x t := by
  refine ⟨?_, h.2⟩
  obtain ⟨heval, hv⟩ := h
  cases v with
  | const c => exact heval
  | temp n =>
    obtain ⟨i, hi, rfl⟩ := hv
    rw [← heval]
    exact congrArg some (hq.temp i hi)
  | var id =>
    obtain ⟨d, hlook, hd⟩ := hv
    obtain ⟨hplace, haddr⟩ := hS.place hlook
    rw [← heval]
    -- Where the variable is kept decides what its value rests on.
    cases hp : S.C.place d with
    | memory =>
      rw [hp] at hplace
      rw [Run.State.eval_memory hplace, Run.State.eval_memory hplace, World.load, World.load, haddr,
        hq.mem d (hd hp) hp]
    | held =>
      rw [hp] at hplace
      rw [Run.State.eval_held hplace, Run.State.eval_held hplace, hq.var]
    | array =>
      rw [hp] at hplace
      rw [Run.State.eval_array hplace, Run.State.eval_array hplace]

/-- A new temporary is none of the old ones. -/
theorem Quiet.setTemp (hS : S.Sound) {i : Nat} (hk : k ≤ i) (hi : i < S.fin.temps.size) (x : Word)
    (s : Run.State Unit) : S.Quiet frozen k s (s.setTemp (nth S.first i) x) := by
  refine ⟨rfl, fun j hj => Run.State.temp_setTemp_of_ne fun heq => ?_, fun _ _ _ => rfl⟩
  have hfew := hS.few
  have hij := nth_inj hS.first (by omega) (by omega) heq
  omega

theorem holds_const (c : Int) (s : Run.State Unit) : S.Holds frozen k (.const c) (word c) s :=
  ⟨rfl, trivial⟩

/-- A statement that was written is executed. -/
theorem Leads.reach {stm : Stmt} (h : S.Leads (st.add stm)) (hx : Run.exec S.X s stm = .next t) :
    Reach S.X S.code 1 st.stmts.size s (.running (st.add stm).stmts.size t) := by
  refine .of_step h.getElem?_add ?_
  rw [hx, State.add, Array.size_push]
  rfl

/-- A statement that ends the run is reached and ends it. -/
theorem Leads.reach_ended {stm : Stmt} {trace : List (Run.Event Unit)} {o : Run.Outcome Unit}
    (h : S.Leads (st.add stm)) (hx : Run.exec S.X s stm = .ended trace o) :
    Reach S.X S.code 1 st.stmts.size s (.ended trace o) := by
  refine .of_step h.getElem?_add ?_
  rw [hx]
  rfl

/-- A statement that gives a new temporary its value. -/
theorem Leads.reach_define (frozen : List DeclId) (hS : S.Sound) (hst : S.Starts st) {stm : Val → Stmt}
    (h : S.Leads (st.define stm))
    (hx : Run.exec S.X s (stm (.temp st.counters.temps)) =
      Run.deliver S.X (.temp st.counters.temps) (.value x t)) :
    ∃ u, Reach S.X S.code 1 st.stmts.size s (.running (st.define stm).stmts.size u) ∧
      u.world = t.world ∧ S.Quiet frozen st.temps.size t u ∧
      S.Holds frozen (st.define stm).temps.size (.temp st.counters.temps) x u := by
  rw [Run.deliver_temp] at hx
  -- The temporary is one of the function, so it is not confused with others.
  have hlt : st.temps.size < S.fin.temps.size := by
    have := h.temps
    rw [State.define, Array.size_push] at this
    omega
  refine ⟨_, h.of_define.reach hx, rfl, ?_, ?_, st.temps.size, ?_, hst⟩
  · rw [show st.counters.temps = _ from hst]
    exact .setTemp hS (Nat.le_refl _) hlt x t
  · exact congrArg some (Run.State.temp_setTemp_self _)
  · rw [State.define, Array.size_push]
    exact Nat.lt_succ_self _

end Operands

end Scene

end Tac.Tree.Generate
