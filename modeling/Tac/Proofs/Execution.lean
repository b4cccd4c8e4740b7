import Mathlib
import Tac.Flow
import Tac.Machine
import Tac.Proofs.Flow

/-!
# Runs of statements and what they show

A function runs statement by statement on temporaries, variables and memory.  What the outside can
see of a run is a trace: the words it stores to globals and arrays, and its calls with their
arguments, the memory they find and whatever else of the state is looked at.  What a callee does is
not known: it may answer with any result and any memory, depending on all that happened before, or
not come back at all.

A run *ends* with an outcome and its whole trace, or goes on for ever; in both cases it *shows*
every beginning of its trace.

* **`exec`, `step`, `run`** — one statement, one step and some steps of a function.
* **`Ends`, `Shows`** — the behaviour of a function from a state.
* **`SameBehaviour`** — two functions end in the same ways and show the same.
* **`Simulates`** — each step of one function is one or two steps of another; then both behave the
  same (`Simulates.sameBehaviour`).
-/

namespace Tac.Run

/-! ## The outside -/

/-- What can be seen of a run. -/
inductive Event (α : Type) where
  | store (addr x : Word)
  /-- A call, with the memory that the callee finds and what else is seen of the caller. -/
  | call (callee : String) (args : List Word) (mem : Word → Word) (seen : α)

/-- Memory by address, and all that was seen so far. -/
structure World (α : Type) where
  mem : Word → Word
  trace : List (Event α)

/-- The addresses that there are, and the callees: after a trace that ends with a call, its result
and the memory it leaves, if it comes back. -/
structure Host (α : Type) where
  valid : Word → Bool
  reply : List (Event α) → Option (Word × (Word → Word))

namespace World

variable {α : Type} (H : Host α) (w : World α)

/-- Reads a word. -/
def load (a : Word) : Option Word := if H.valid a then some (w.mem a) else none

/-- Writes a word. -/
def store (a x : Word) : Option (World α) :=
  if H.valid a then some ⟨Function.update w.mem a x, w.trace ++ [.store a x]⟩ else none

/-- Writes zero to `n` words. -/
def clear (a : Word) : Nat → Option (World α)
  | 0 => some w
  | n + 1 => do
    let w ← clear a n
    w.store H (a + word (4 * n)) 0

section Traces

variable {H w} {w' : World α} {a : Word}

/-- A store adds itself to the trace. -/
theorem trace_store {x : Word} (h : w.store H a x = some w') : w.trace <+: w'.trace := by
  unfold store at h
  split at h
  · cases h
    exact List.prefix_append _ _
  · cases h

/-- Clearing shows the stores it is made of, behind what was seen before. -/
theorem trace_clear {n : Nat} (h : w.clear H a n = some w') : w.trace <+: w'.trace := by
  -- On the number of words: the last store comes behind the clearing of the others.
  induction n generalizing w' with
  | zero =>
    cases h
    exact List.prefix_refl _
  | succ n ih =>
    obtain ⟨w₁, h₁, h₂⟩ := Option.bind_eq_some_iff.1 h
    exact (ih h₁).trans (trace_store h₂)

end Traces

/-- The world in which a callee starts. -/
def enter (callee : String) (args : List Word) (seen : α) : World α :=
  { w with trace := w.trace ++ [.call callee args w.mem seen] }

/-- The result of the callee that was entered, and the world it leaves. -/
def back : Option (Word × World α) := (H.reply w.trace).map fun (x, mem) => (x, { w with mem })

end World

/-! ## Statements -/

/-- The state of a running function. -/
structure State (α : Type) where
  temp : Int → Word
  var : VarId → Word
  world : World α

/-- What a function runs in: the outside, its variables and their addresses, and what is seen of its
temporaries and variables. -/
structure Setting (α : Type) extends Host α where
  vars : VarTable
  addr : VarId → Word
  look : (Int → Word) → (VarId → Word) → α

/-- Where the value of a variable is: a global scalar is in memory, an array is its address, any
other variable holds its value, which is an address for an array parameter. -/
inductive Place where
  | memory | held | array

/-- The place of a variable. -/
def Setting.place? {α : Type} (X : Setting α) (id : VarId) : Option Place :=
  (X.vars.get? id).map fun x =>
    match x.cls, x.isArray with
    | .arg, _ | .loc, false => .held
    | .global, false => .memory
    | .global, true | .loc, true => .array

section Place

variable {α : Type} {X : Setting α} {id : VarId} {x : Var} (h : X.vars.get? id = some x)

include h

/-- A global array is its address, a global scalar is in memory. -/
theorem Setting.place?_global (hcls : x.cls = .global) :
    X.place? id = some (if x.isArray then .array else .memory) := by
  rw [Setting.place?, h, Option.map_some, hcls]
  cases x.isArray <;> rfl

/-- A parameter holds its value, which is an address for an array. -/
theorem Setting.place?_arg (hcls : x.cls = .arg) : X.place? id = some .held := by
  rw [Setting.place?, h, Option.map_some, hcls]

/-- A local array is its address, any other local holds its value. -/
theorem Setting.place?_loc (hcls : x.cls = .loc) :
    X.place? id = some (if x.isArray then .array else .held) := by
  rw [Setting.place?, h, Option.map_some, hcls]
  cases x.isArray <;> rfl

end Place

/-- How a run ends. -/
inductive Outcome (α : Type) where
  | returned (value : Option Word) (mem : Word → Word) (seen : α)
  | fault
  /-- A callee does not come back. -/
  | lost

/-- What a statement comes to. -/
inductive Effect (α : Type) where
  | next (s : State α)
  | goto (label : Int) (s : State α)
  | ended (trace : List (Event α)) (o : Outcome α)

section Exec

variable {α : Type} (X : Setting α)

namespace State

variable (s : State α)

/-- The value of an operand: an array stands for its address. -/
def eval : Val → Option Word
  | .const n => some (word n)
  | .temp n => some (s.temp n)
  | .var id =>
    match X.place? id with
    | some .memory => s.world.load X.toHost (X.addr id)
    | some .held => some (s.var id)
    | some .array => some (X.addr id)
    | none => none

/-- Writes a temporary. -/
def setTemp (n : Int) (w : Word) : State α := { s with temp := Function.update s.temp n w }

/-- Gives an operand a value. -/
def assign (w : Word) : Val → Option (State α)
  | .temp n => some (s.setTemp n w)
  | .var id =>
    match X.place? id with
    | some .memory => (s.world.store X.toHost (X.addr id) w).map fun world => { s with world }
    | some .held => some { s with var := Function.update s.var id w }
    | _ => none
  | .const _ => none

section Places

variable {X s} {id : VarId} {w : Word}

@[simp] theorem temp_setTemp_self (n : Int) : (s.setTemp n w).temp n = w := Function.update_self ..

theorem temp_setTemp_of_ne {n k : Int} (h : k ≠ n) : (s.setTemp n w).temp k = s.temp k :=
  Function.update_of_ne h _ _

@[simp] theorem var_setTemp (n : Int) : (s.setTemp n w).var = s.var := rfl

@[simp] theorem world_setTemp (n : Int) : (s.setTemp n w).world = s.world := rfl

@[simp] theorem eval_const (n : Int) : s.eval X (.const n) = some (word n) := rfl

@[simp] theorem eval_temp (n : Int) : s.eval X (.temp n) = some (s.temp n) := rfl

theorem eval_held (h : X.place? id = some .held) : s.eval X (.var id) = some (s.var id) := by
  simp only [eval, h]

theorem eval_array (h : X.place? id = some .array) : s.eval X (.var id) = some (X.addr id) := by
  simp only [eval, h]

/-- A global scalar is read from memory, which may fail. -/
theorem eval_memory (h : X.place? id = some .memory) :
    s.eval X (.var id) = s.world.load X.toHost (X.addr id) := by
  simp only [eval, h]

/-- A variable that holds its value is written in the state. -/
theorem assign_held (h : X.place? id = some .held) :
    s.assign X w (.var id) = some { s with var := Function.update s.var id w } := by
  simp only [assign, h]

/-- A global scalar is written to memory, and the store is seen. -/
theorem assign_memory (h : X.place? id = some .memory) : s.assign X w (.var id) =
    (s.world.store X.toHost (X.addr id) w).map fun world => { s with world } := by
  simp only [assign, h]

/-- Assigning shows nothing or a store. -/
theorem trace_assign {s' : State α} {d : Val} (h : s.assign X w d = some s') :
    s.world.trace <+: s'.world.trace := by
  unfold assign at h
  split at h
  · cases h
    exact List.prefix_refl _
  · split at h
    · obtain ⟨world, hworld, rfl⟩ := Option.map_eq_some_iff.1 h
      exact World.trace_store hworld
    · cases h
      exact List.prefix_refl _
    · cases h
  · cases h

end Places

/-- What is seen of the state. -/
def seen : α := X.look s.temp s.var

/-- The end of a run with a fault. -/
def fault : Effect α := .ended s.world.trace .fault

end State

/-- A value that a statement computes, with the state after it, or the end of the run. -/
inductive Computed (α : Type) where
  | value (w : Word) (s : State α)
  | ended (trace : List (Event α)) (o : Outcome α)

/-- A value if there is one, and a fault otherwise. -/
def Computed.of (s : State α) : Option Word → Computed α
  | some w => .value w s
  | none => .ended s.world.trace .fault

/-- The state with another world. -/
def State.inWorld (s : State α) (world : World α) : State α := { s with world }

/-- Calls a function. -/
def callOut (s : State α) (callee : String) (args : List Val) : Computed α :=
  match args.mapM (s.eval X) with
  | none => .ended s.world.trace .fault
  | some xs =>
    let w := s.world.enter callee xs (s.seen X)
    match w.back X.toHost with
    | none => .ended w.trace .lost
    | some (x, w) => .value x (s.inWorld w)

/-- The value that a statement with a destination computes. -/
def compute (s : State α) : Stmt → Computed α
  | .binary _ l op r => .of s do
    let x ← s.eval X l
    let y ← s.eval X r
    (Machine.binary op x y).toOption
  | .unary _ op v => .of s ((s.eval X v).map (Machine.unary op))
  | .move _ v => .of s (s.eval X v)
  | .load _ b off => .of s do
    let a ← s.eval X b
    s.world.load X.toHost (a + word off)
  | .call _ g args => callOut X s g args
  | _ => .ended s.world.trace .fault

/-- Takes a computed value to its destination. -/
def deliver (d : Val) : Computed α → Effect α
  | .ended trace o => .ended trace o
  | .value w s =>
    match s.assign X w d with
    | some s => .next s
    | none => s.fault

/-- One statement. -/
def exec (s : State α) (st : Stmt) : Effect α :=
  match st with
  | .binary d .. | .unary d .. | .move d _ | .load d .. | .call (some d) .. =>
    deliver X d (compute X s st)
  | .call none g args =>
    match callOut X s g args with
    | .value _ s => .next s
    | .ended trace o => .ended trace o
  | .store b off v =>
    match s.eval X b, s.eval X v with
    | some a, some x =>
      match s.world.store X.toHost (a + word off) x with
      | some w => .next (s.inWorld w)
      | none => s.fault
    | _, _ => s.fault
  | .branch l rel r t =>
    match s.eval X l, s.eval X r with
    | some x, some y => if rel.holds x y then .goto t s else .next s
    | _, _ => s.fault
  | .jump t => .goto t s
  | .label _ => .next s
  | .ret none => .ended s.world.trace (.returned none s.world.mem (s.seen X))
  | .ret (some v) =>
    match s.eval X v with
    | some x => .ended s.world.trace (.returned (some x) s.world.mem (s.seen X))
    | none => s.fault
  | .zeroFill (.var id) =>
    match X.vars.get? id with
    | some x =>
      if x.cls = .loc ∧ x.isArray then
        match s.world.clear X.toHost (X.addr id) x.elems.toNat with
        | some w => .next (s.inWorld w)
        | none => s.fault
      else s.fault
    | none => s.fault
  | .zeroFill _ => s.fault

section ExecLemmas

variable {X} {s s' : State α} {x y w : Word}

-- The equations of a statement are made once, before the lemmas that compute with them.
attribute [local simp] exec callOut

/-- A value goes where it can be assigned. -/
theorem deliver_value {d : Val} (h : s.assign X w d = some s') :
    deliver X d (.value w s) = .next s' := by
  simp only [deliver, h]

theorem deliver_temp (n : Int) (w : Word) (s : State α) :
    deliver X (.temp n) (.value w s) = .next (s.setTemp n w) := rfl

/-- A statement with a destination computes its value first and delivers it then, so that
both can be looked at by themselves. -/
theorem exec_of_dst {st : Stmt} {d : Val} (h : st.dst? = some d) :
    exec X s st = deliver X d (compute X s st) := by
  cases st with
  | binary | unary | move | load =>
    cases h
    rfl
  | call r g args =>
    obtain rfl : r = some d := h
    rfl
  | store | branch | jump | label | ret | zeroFill => cases h

/-- An operation whose operands have values and whose result exists. -/
theorem exec_binary {d l r : Val} {op : BinOp} (hl : s.eval X l = some x) (hr : s.eval X r = some y)
    (hw : Machine.binary op x y = .ok w) :
    exec X s (.binary d l op r) = deliver X d (.value w s) := by
  show deliver X d (.of s ((s.eval X l).bind fun x => (s.eval X r).bind fun y =>
    (Machine.binary op x y).toOption)) = _
  rw [hl, hr, Option.bind_some, Option.bind_some, hw]
  rfl

/-- A unary operation on an operand that has a value. -/
theorem exec_unary {d v : Val} {op : UnOp} (hv : s.eval X v = some x) :
    exec X s (.unary d op v) = deliver X d (.value (Machine.unary op x) s) := by
  show deliver X d (.of s ((s.eval X v).map (Machine.unary op))) = _
  rw [hv]
  rfl

/-- A move of an operand that has a value. -/
theorem exec_move {d v : Val} (hv : s.eval X v = some x) :
    exec X s (.move d v) = deliver X d (.value x s) := by
  show deliver X d (.of s (s.eval X v)) = _
  rw [hv]
  rfl

/-- A load from a base that has a value and a word that there is. -/
theorem exec_load {d b : Val} {off : Int} (hb : s.eval X b = some x)
    (hy : s.world.load X.toHost (x + word off) = some y) :
    exec X s (.load d b off) = deliver X d (.value y s) := by
  show deliver X d (.of s ((s.eval X b).bind fun a => s.world.load X.toHost (a + word off))) = _
  rw [hb, Option.bind_some, hy]
  rfl

/-- A branch whose operands have values. -/
theorem exec_branch {l r : Val} {rel : Rel} {t : Int} (hl : s.eval X l = some x)
    (hr : s.eval X r = some y) :
    exec X s (.branch l rel r t) = if rel.holds x y then .goto t s else .next s := by
  simp only [exec, hl, hr]

/-- A store of a value to a word that there is. -/
theorem exec_store {b v : Val} {off : Int} {world : World α} (hb : s.eval X b = some x)
    (hv : s.eval X v = some y) (hw : s.world.store X.toHost (x + word off) y = some world) :
    exec X s (.store b off v) = .next (s.inWorld world) := by
  simp only [exec, hb, hv, hw]

/-- A return of an operand that has a value. -/
theorem exec_ret {v : Val} (hv : s.eval X v = some x) : exec X s (.ret (some v)) =
    .ended s.world.trace (.returned (some x) s.world.mem (s.seen X)) := by
  simp only [exec, hv]

/-- A zero fill of a local array all of whose words there are. -/
theorem exec_zeroFill {id : VarId} {v : Var} {world : World α} (hv : X.vars.get? id = some v)
    (hlocal : v.cls = .loc ∧ v.isArray = true)
    (hw : s.world.clear X.toHost (X.addr id) v.elems.toNat = some world) :
    exec X s (.zeroFill (.var id)) = .next (s.inWorld world) := by
  simp only [exec, hv, hlocal, and_self, if_true, hw]

/-- A call whose arguments have values: what happens is up to the callee. -/
theorem callOut_eq {g : String} {args : List Val} {xs : List Word}
    (h : args.mapM (s.eval X) = some xs) : callOut X s g args =
      match (s.world.enter g xs (s.seen X)).back X.toHost with
      | none => .ended (s.world.enter g xs (s.seen X)).trace .lost
      | some (x, w) => .value x (s.inWorld w) := by
  simp only [callOut, h]

/-- A branch fails if one of its operands has no value. -/
theorem exec_branch_fault {l r : Val} {rel : Rel} {t : Int}
    (h : s.eval X l = none ∨ s.eval X r = none) : exec X s (.branch l rel r t) = s.fault := by
  simp only [exec]
  split
  · next hl hr =>
    rw [hl, hr] at h
    simp at h
  · rfl

/-- An operation fails if one of its operands has no value. -/
theorem exec_binary_fault {d l r : Val} {op : BinOp}
    (h : s.eval X l = none ∨ s.eval X r = none) : exec X s (.binary d l op r) = s.fault := by
  have hnone : ((s.eval X l).bind fun x => (s.eval X r).bind fun y =>
      (Machine.binary op x y).toOption) = none := by
    rcases h with h | h
    · rw [h, Option.bind_none]
    · cases s.eval X l <;> simp [h]
  show deliver X d (.of s ((s.eval X l).bind fun x => (s.eval X r).bind fun y =>
    (Machine.binary op x y).toOption)) = _
  rw [hnone]
  rfl

end ExecLemmas

/-! ## Runs -/

/-- A run on its way or at its end. -/
inductive Status (α : Type) where
  | running (i : Nat) (s : State α)
  | ended (trace : List (Event α)) (o : Outcome α)

/-- Goes where an effect at statement `i` leads. -/
def follow (stmts : List Stmt) (i : Nat) : Effect α → Status α
  | .next s => .running (i + 1) s
  | .goto l s =>
    match (Flow.labelTable stmts)[l]? with
    | some j => .running j s
    | none => .ended s.world.trace .fault
  | .ended trace o => .ended trace o

/-- One step; there is nothing to run behind the last statement. -/
def step (stmts : List Stmt) (i : Nat) (s : State α) : Status α :=
  match stmts[i]? with
  | some st => follow stmts i (exec X s st)
  | none => .ended s.world.trace .fault

/-- Up to `n` steps. -/
def run (stmts : List Stmt) : Nat → Nat → State α → Status α
  | 0, i, s => .running i s
  | n + 1, i, s =>
    match step X stmts i s with
    | .running i s => run stmts n i s
    | .ended trace o => .ended trace o

/-- The trace after a statement. -/
def Effect.trace : Effect α → List (Event α)
  | .next s | .goto _ s => s.world.trace
  | .ended trace _ => trace

/-- The trace after computing a value. -/
def Computed.trace : Computed α → List (Event α)
  | .value _ s => s.world.trace
  | .ended trace _ => trace

/-- The trace so far. -/
def Status.trace : Status α → List (Event α)
  | .running _ s => s.world.trace
  | .ended trace _ => trace

/-- The run ends with an outcome after a trace. -/
def Ends (stmts : List Stmt) (i : Nat) (s : State α) (trace : List (Event α)) (o : Outcome α) :
    Prop :=
  ∃ n, run X stmts n i s = .ended trace o

/-- The run shows a trace, and maybe more. -/
def Shows (stmts : List Stmt) (i : Nat) (s : State α) (trace : List (Event α)) : Prop :=
  ∃ n, trace <+: (run X stmts n i s).trace

/-- The run goes on for ever. -/
def Diverges (stmts : List Stmt) (i : Nat) (s : State α) : Prop :=
  ∀ n, ∃ j s', run X stmts n i s = .running j s'

end Exec

section Behaviour

variable {α : Type} {X : Setting α} {A B : List Stmt} {i j : Nat} {s t : State α}
  {trace : List (Event α)} {o : Outcome α}

/-- A run whose first step goes on. -/
theorem run_of_running (n : Nat) {i' : Nat} {s' : State α}
    (h : step X A i s = .running i' s') : run X A (n + 1) i s = run X A n i' s' := by
  rw [run, h]

/-- A run whose first step ends it. -/
theorem run_of_ended (n : Nat) (h : step X A i s = .ended trace o) :
    run X A (n + 1) i s = .ended trace o := by
  rw [run, h]

/-- A run goes on for ever exactly when it does not end. -/
theorem diverges_iff : Diverges X A i s ↔ ∀ trace o, ¬ Ends X A i s trace o := by
  constructor
  · rintro h trace o ⟨n, hn⟩
    obtain ⟨j, s', hrun⟩ := h n
    rw [hrun] at hn
    cases hn
  · intro h n
    cases hrun : run X A n i s with
    | running j s' => exact ⟨j, s', rfl⟩
    | ended trace o => exact absurd ⟨n, hrun⟩ (h trace o)

/-! ## Traces -/

/-- A call shows itself, and changes no more of the caller than its world. -/
theorem callOut_cases (g : String) (args : List Val) :
    (∃ trace o, callOut X s g args = .ended trace o ∧ s.world.trace <+: trace) ∨
      ∃ w world, callOut X s g args = .value w (s.inWorld world) ∧
        s.world.trace <+: world.trace := by
  unfold callOut
  split
  · exact Or.inl ⟨_, _, rfl, List.prefix_refl _⟩
  · dsimp only
    split
    · exact Or.inl ⟨_, _, rfl, List.prefix_append _ _⟩
    · next hback =>
      obtain ⟨p, -, hp⟩ := Option.map_eq_some_iff.1 hback
      cases hp
      exact Or.inr ⟨_, _, rfl, List.prefix_append _ _⟩

/-- A call shows itself behind all that was seen before. -/
theorem trace_callOut (g : String) (args : List Val) :
    s.world.trace <+: (callOut X s g args).trace := by
  rcases callOut_cases (X := X) (s := s) g args with ⟨_, _, h, htrace⟩ | ⟨_, _, h, htrace⟩
  all_goals
    rw [h]
    exact htrace

theorem trace_of (o : Option Word) : (Computed.of s o).trace = s.world.trace := by
  cases o <;> rfl

/-- Computing a value takes back nothing that was seen. -/
theorem trace_compute (st : Stmt) : s.world.trace <+: (compute X s st).trace := by
  unfold compute
  split
  · rw [trace_of]
  · rw [trace_of]
  · rw [trace_of]
  · rw [trace_of]
  · exact trace_callOut _ _
  · exact List.prefix_refl _

/-- Delivering a value takes back nothing that was seen. -/
theorem trace_deliver (d : Val) (c : Computed α) : c.trace <+: (deliver X d c).trace := by
  cases c with
  | ended trace o => exact List.prefix_refl _
  | value w s =>
    unfold deliver
    dsimp only
    split
    · next h => exact State.trace_assign h
    · exact List.prefix_refl _

/-- What a statement without a destination comes to: it changes the world at most, and goes to no
label but its own. -/
inductive Effect.Quiet (s : State α) (st : Stmt) : Effect α → Prop where
  | next {world : World α} (h : s.world.trace <+: world.trace) : Quiet s st (.next (s.inWorld world))
  | goto {l : Int} (h : st.target? = some l) : Quiet s st (.goto l s)
  | ended {trace : List (Event α)} (h : s.world.trace <+: trace) (o : Outcome α) :
      Quiet s st (.ended trace o)

/-- A statement without a destination changes the world at most: temporaries and variables
stay as they are. -/
theorem quiet_exec {st : Stmt} (hst : st.dst? = none) : (exec X s st).Quiet s st := by
  -- Most statements do nothing or fail, which is the same for all of them.
  have hsame : Effect.Quiet s st (.next s) := .next (List.prefix_refl _)
  have hfault : Effect.Quiet s st s.fault := .ended (List.prefix_refl _) _
  cases st with
  | binary | unary | move | load => cases hst
  | call d g args =>
    obtain rfl : d = none := hst
    simp only [exec]
    rcases callOut_cases (X := X) (s := s) g args with ⟨_, o, h, htrace⟩ | ⟨_, _, h, htrace⟩
    · rw [h]
      exact .ended htrace o
    · rw [h]
      exact .next htrace
  | store b off v =>
    simp only [exec]
    split
    · split
      · next h => exact .next (World.trace_store h)
      · exact hfault
    · exact hfault
  | branch l rel r t =>
    simp only [exec]
    split
    · split
      · exact .goto rfl
      · exact hsame
    · exact hfault
  | jump t => exact .goto rfl
  | label l => exact hsame
  | ret v =>
    cases v with
    | none => exact .ended (List.prefix_refl _) _
    | some v =>
      simp only [exec]
      split
      · exact .ended (List.prefix_refl _) _
      · exact hfault
  | zeroFill v =>
    unfold exec
    cases v with
    | const | temp => exact hfault
    | var id =>
      dsimp only
      split
      · split
        · split
          · next h => exact .next (World.trace_clear h)
          · exact hfault
        · exact hfault
      · exact hfault

/-- A quiet statement takes back nothing that was seen. -/
theorem Effect.Quiet.trace_le {st : Stmt} {e : Effect α} (h : e.Quiet s st) :
    s.world.trace <+: e.trace := by
  cases h with
  | next h => exact h
  | goto => exact List.prefix_refl _
  | ended h => exact h

/-- A statement does not take back what was seen. -/
theorem trace_exec (st : Stmt) : s.world.trace <+: (exec X s st).trace := by
  cases hd : st.dst? with
  | none => exact (quiet_exec hd).trace_le
  | some d =>
    rw [exec_of_dst hd]
    exact (trace_compute st).trans (trace_deliver d _)

/-- Going to a statement shows nothing. -/
theorem trace_follow (e : Effect α) : (follow A i e).trace = e.trace := by
  cases e with
  | next | ended => rfl
  | goto l s =>
    unfold follow
    dsimp only
    split <;> rfl

/-- One step takes back nothing that was seen. -/
theorem trace_step : s.world.trace <+: (step X A i s).trace := by
  unfold step
  split
  · next st _ =>
    rw [trace_follow]
    exact trace_exec st
  · exact List.prefix_refl _

/-- A run takes back nothing that was seen. -/
theorem trace_run (n : Nat) : s.world.trace <+: (run X A n i s).trace := by
  -- On the number of steps, from any statement and state.
  induction n generalizing i s with
  | zero => exact List.prefix_refl _
  | succ n ih =>
    have hstep := trace_step (X := X) (A := A) (i := i) (s := s)
    cases hs : step X A i s with
    | running j t =>
      rw [hs] at hstep
      rw [run_of_running n hs]
      exact hstep.trans ih
    | ended trace o =>
      rw [hs] at hstep
      rwa [run_of_ended n hs]

/-! ## Reaching -/

/-- After `m` steps at least, the run is there. -/
def Reach (X : Setting α) (A : List Stmt) (m i : Nat) (s : State α) (status : Status α) : Prop :=
  ∃ n, m ≤ n ∧ run X A n i s = status

/-- Steps behind steps, when the first ones do not end the run. -/
theorem run_add_of_running {m : Nat} (h : run X A m i s = .running j t) (n : Nat) :
    run X A (m + n) i s = run X A n j t := by
  -- On the first steps; the case in which one of them ends the run contradicts the assumption.
  induction m generalizing i s with
  | zero =>
    cases h
    rw [Nat.zero_add]
  | succ m ih =>
    rw [Nat.succ_add]
    cases hstep : step X A i s with
    | running i' s' =>
      rw [run_of_running m hstep] at h
      rw [run_of_running _ hstep, ih h]
    | ended trace o =>
      rw [run_of_ended m hstep] at h
      cases h

/-- A run that has ended does not change any more. -/
theorem run_add_of_ended {m : Nat} (h : run X A m i s = .ended trace o) (n : Nat) :
    run X A (m + n) i s = .ended trace o := by
  -- A run that has ended stays where it is, however many steps are left.
  induction m generalizing i s with
  | zero => cases h
  | succ m ih =>
    rw [Nat.succ_add]
    cases hstep : step X A i s with
    | running i' s' =>
      rw [run_of_running m hstep] at h
      rw [run_of_running _ hstep, ih h]
    | ended trace' o' =>
      rw [run_of_ended m hstep] at h
      rw [run_of_ended _ hstep, h]

/-- More steps show more. -/
theorem trace_run_mono {m n : Nat} (h : m ≤ n) :
    (run X A m i s).trace <+: (run X A n i s).trace := by
  obtain ⟨k, rfl⟩ := Nat.exists_eq_add_of_le h
  cases hm : run X A m i s with
  | running j t =>
    rw [run_add_of_running hm]
    exact trace_run k
  | ended trace o => rw [run_add_of_ended hm]

namespace Reach

variable {m m' : Nat} {status : Status α}

theorem refl (i : Nat) (s : State α) : Reach X A 0 i s (.running i s) := ⟨0, Nat.le_refl 0, rfl⟩

/-- Steps behind steps; the numbers of steps that are at least taken add up. -/
theorem trans (h : Reach X A m i s (.running j t)) (h' : Reach X A m' j t status) :
    Reach X A (m + m') i s status := by
  obtain ⟨n, hn, hrun⟩ := h
  obtain ⟨n', hn', hrun'⟩ := h'
  exact ⟨n + n', Nat.add_le_add hn hn', by rw [run_add_of_running hrun, hrun']⟩

theorem mono (h : Reach X A m i s status) (hm : m' ≤ m) : Reach X A m' i s status := by
  obtain ⟨n, hn, hrun⟩ := h
  exact ⟨n, Nat.le_trans hm hn, hrun⟩

theorem eventually (h : Reach X A m i s status) : Reach X A 0 i s status := h.mono (Nat.zero_le m)

/-- One statement is one step at least. -/
theorem of_step {st : Stmt} (hst : A[i]? = some st) (h : follow A i (exec X s st) = status) :
    Reach X A 1 i s status := by
  refine ⟨1, Nat.le_refl 1, ?_⟩
  have hstep : step X A i s = status := by
    simp only [step, hst]
    exact h
  cases status with
  | running j t => rw [run_of_running 0 hstep, run]
  | ended trace o => rw [run_of_ended 0 hstep]

end Reach

/-! ## Simulation -/

/-- Two functions end in the same ways after the same traces, and show the same on the way. -/
structure SameBehaviour (X : Setting α) (A B : List Stmt) (s : State α) : Prop where
  ends : ∀ trace o, Ends X A 0 s trace o ↔ Ends X B 0 s trace o
  shows : ∀ trace, Shows X A 0 s trace ↔ Shows X B 0 s trace

namespace SameBehaviour

variable {C : List Stmt}

theorem refl (A : List Stmt) (s : State α) : SameBehaviour X A A s :=
  ⟨fun _ _ => Iff.rfl, fun _ => Iff.rfl⟩

theorem trans (h₁ : SameBehaviour X A B s) (h₂ : SameBehaviour X B C s) : SameBehaviour X A C s :=
  ⟨fun trace o => (h₁.ends trace o).trans (h₂.ends trace o),
    fun trace => (h₁.shows trace).trans (h₂.shows trace)⟩

/-- They also go on for ever from the same states. -/
theorem diverges (h : SameBehaviour X A B s) : Diverges X A 0 s ↔ Diverges X B 0 s := by
  rw [diverges_iff, diverges_iff]
  exact forall₂_congr fun trace o => not_congr (h.ends trace o)

end SameBehaviour

/-- One step of `B` does what one or two steps of `A` do.  What is seen after the first of two steps
is seen after the second. -/
inductive Matched (X : Setting α) (A B : List Stmt) (R : Nat → State α → Nat → State α → Prop)
    (i : Nat) (s : State α) (j : Nat) (t : State α) : Prop where
  | one {i' j' : Nat} {s' t' : State α} (hA : step X A i s = .running i' s')
      (hB : step X B j t = .running j' t') (hR : R i' s' j' t')
  | two {i₁ i' j' : Nat} {s₁ s' t' : State α} (hA₁ : step X A i s = .running i₁ s₁)
      (hA : step X A i₁ s₁ = .running i' s') (hB : step X B j t = .running j' t')
      (hseen : s₁.world.trace <+: t'.world.trace) (hR : R i' s' j' t')
  | last {tr : List (Event α)} {out : Outcome α} (hA : step X A i s = .ended tr out)
      (hB : step X B j t = .ended tr out)
  | lastTwo {i₁ : Nat} {s₁ : State α} {tr : List (Event α)} {out : Outcome α}
      (hA₁ : step X A i s = .running i₁ s₁) (hA : step X A i₁ s₁ = .ended tr out)
      (hB : step X B j t = .ended tr out) (hseen : s₁.world.trace <+: tr)

/-- States that are related show the same and are related again after matching steps. -/
structure Simulates (X : Setting α) (A B : List Stmt)
    (R : Nat → State α → Nat → State α → Prop) : Prop where
  trace_eq : ∀ {i s j t}, R i s j t → s.world.trace = t.world.trace
  matched : ∀ {i s j t}, R i s j t → Matched X A B R i s j t

/-- A property of runs that only looks at the trace while a run is on its way, and is not lost when
the trace grows. -/
structure Observable (P : Status α → Prop) : Prop where
  running : ∀ {i s j t}, s.world.trace <+: t.world.trace → P (.running i s) → P (.running j t)
  ended : ∀ {i s tr out}, s.world.trace <+: tr → P (.running i s) → P (.ended tr out)

/-- Having ended in a certain way can be observed. -/
theorem observable_end (trace : List (Event α)) (o : Outcome α) :
    Observable fun st => st = .ended trace o :=
  ⟨fun _ h => (nomatch h), fun _ h => (nomatch h)⟩

theorem observable_trace (trace : List (Event α)) : Observable fun st => trace <+: st.trace :=
  ⟨fun h₁ h₂ => h₂.trans h₁, fun h₁ h₂ => h₂.trans h₁⟩

namespace Simulates

variable {R : Nat → State α → Nat → State α → Prop} {P : Status α → Prop}
  (h : Simulates X A B R) (hP : Observable P)

include h hP

/-- What can be observed of a run of `A` can be observed of a run of `B`. -/
theorem observes (n : Nat) (hR : R i s j t) (hA : P (run X A n i s)) : ∃ m, P (run X B m j t) := by
  -- Strong induction on the steps of `A`, since one step of `B` may take two of them.
  induction n using Nat.strong_induction_on generalizing i s j t with
  | _ n ih =>
    cases n with
    | zero => exact ⟨0, hP.running (h.trace_eq hR ▸ List.prefix_refl _) hA⟩
    | succ n =>
      rcases h.matched hR with ⟨h₁, h₂, hR'⟩ | ⟨h₁, h₂, h₃, hseen, hR'⟩ | ⟨h₁, h₂⟩ |
        ⟨h₁, h₂, h₃, hseen⟩
      · rw [run_of_running n h₁] at hA
        obtain ⟨m, hm⟩ := ih n (by omega) hR' hA
        exact ⟨m + 1, by rwa [run_of_running m h₂]⟩
      · rw [run_of_running n h₁] at hA
        -- the run of `A` may have stopped between the two steps
        cases n with
        | zero => exact ⟨1, by rw [run_of_running 0 h₃]; exact hP.running hseen hA⟩
        | succ n =>
          rw [run_of_running n h₂] at hA
          obtain ⟨m, hm⟩ := ih n (by omega) hR' hA
          exact ⟨m + 1, by rwa [run_of_running m h₃]⟩
      · rw [run_of_ended n h₁] at hA
        exact ⟨1, by rwa [run_of_ended 0 h₂]⟩
      · rw [run_of_running n h₁] at hA
        cases n with
        | zero => exact ⟨1, by rw [run_of_ended 0 h₃]; exact hP.ended hseen hA⟩
        | succ n =>
          rw [run_of_ended n h₂] at hA
          exact ⟨1, by rwa [run_of_ended 0 h₃]⟩

/-- What can be observed of a run of `B` can be observed of a run of `A`. -/
theorem observes_of (n : Nat) (hR : R i s j t) (hB : P (run X B n j t)) :
    ∃ m, P (run X A m i s) := by
  -- On the steps of `B`; each of them is at most two steps of `A`.
  induction n generalizing i s j t with
  | zero => exact ⟨0, hP.running (h.trace_eq hR ▸ List.prefix_refl _) hB⟩
  | succ n ih =>
    rcases h.matched hR with ⟨h₁, h₂, hR'⟩ | ⟨h₁, h₂, h₃, _, hR'⟩ | ⟨h₁, h₂⟩ | ⟨h₁, h₂, h₃, _⟩
    · rw [run_of_running n h₂] at hB
      obtain ⟨m, hm⟩ := ih hR' hB
      exact ⟨m + 1, by rwa [run_of_running m h₁]⟩
    · rw [run_of_running n h₃] at hB
      obtain ⟨m, hm⟩ := ih hR' hB
      exact ⟨m + 2, by rwa [run_of_running (m + 1) h₁, run_of_running m h₂]⟩
    · rw [run_of_ended n h₂] at hB
      exact ⟨1, by rwa [run_of_ended 0 h₁]⟩
    · rw [run_of_ended n h₃] at hB
      exact ⟨2, by rwa [run_of_running 1 h₁, run_of_ended 0 h₂]⟩

omit hP in
theorem ends_iff (hR : R i s j t) : Ends X A i s trace o ↔ Ends X B j t trace o :=
  ⟨fun ⟨n, hn⟩ => h.observes (observable_end trace o) n hR hn,
    fun ⟨n, hn⟩ => h.observes_of (observable_end trace o) n hR hn⟩

omit hP in
theorem shows_iff (hR : R i s j t) : Shows X A i s trace ↔ Shows X B j t trace :=
  ⟨fun ⟨n, hn⟩ => h.observes (observable_trace trace) n hR hn,
    fun ⟨n, hn⟩ => h.observes_of (observable_trace trace) n hR hn⟩

omit hP in
/-- Where the starts are related the two functions behave the same. -/
theorem sameBehaviour (hR : R 0 s 0 s) : SameBehaviour X A B s :=
  ⟨fun _ _ => h.ends_iff hR, fun _ => h.shows_iff hR⟩

end Simulates

end Behaviour

end Tac.Run
