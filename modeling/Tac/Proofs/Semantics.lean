import Mathlib
import Tac.Flow
import Tac.Machine
import Tac.VReg

/-!
# The meaning of statements

Statements compute on 32-bit words.  The values of virtual registers are a function, memory is a
function from word numbers; where globals and local arrays are, and which words belong to globals and
arrays at all, is given by a layout.  A base operand may hold any address, so memory is reached by
address and not by variable.

A step faults, and then has no outcome, where the meaning of a program ends: at a division by zero,
at an operator that statements do not have, and at an address outside the words that belong to
globals and arrays.
-/

namespace Tac.Semantics

/-- The state of a running function. -/
structure State where
  env : VReg → Word
  mem : Nat → Word

/-- Where the variables of a running function are. -/
structure Layout where
  /-- The address of a global by its index. -/
  globalAddr : Int → Option Word
  /-- The address of a local array and the number of its words. -/
  array : VarId → Option (Word × Nat)
  /-- The words that belong to globals and arrays. -/
  data : Nat → Bool

/-- The word behind an address. -/
def Layout.index? (L : Layout) (a : Word) : Option Nat :=
  if 4 ≤ a.toInt ∧ a.toInt % 4 = 0 ∧ L.data (a.toInt / 4).toNat then some (a.toInt / 4).toNat
  else none

namespace State

variable (L : Layout) (vars : VarTable) (s : State)

/-- Reads the word behind an address. -/
def load (a : Word) : Option Word := (L.index? a).map s.mem

/-- Writes the word behind an address. -/
def store (a x : Word) : Option State :=
  (L.index? a).map fun k => { s with mem := Function.update s.mem k x }

/-- The value of an operand: an array stands for its address. -/
def eval (v : Val) : Option Word :=
  match v with
  | .const n => some (word n)
  | v =>
    match vars.vreg? v with
    | some u => some (s.env u)
    | none =>
      match v with
      | .var id => do
        let x ← vars.get? id
        if x.cls = .global then
          let a ← L.globalAddr x.index
          if x.isArray then some a else s.load L a
        else (L.array id).map Prod.fst
      | _ => none

/-- Gives an operand a value. -/
def assign (v : Val) (w : Word) : Option State :=
  match vars.vreg? v with
  | some u => some { s with env := Function.update s.env u w }
  | none =>
    match v with
    | .var id => do
      let x ← vars.get? id
      if x.cls = .global ∧ !x.isArray then
        let a ← L.globalAddr x.index
        s.store L a w
      else none
    | _ => none

/-- Writes zero to the first `n` words of an array. -/
def clear (a : Word) : Nat → Option State
  | 0 => some s
  | n + 1 => do
    let s ← clear a n
    s.store L (a + word (4 * n)) 0

section Lemmas

variable {L : Layout} {vars : VarTable} {s s' : State} {v : Val} {u : VReg} {w : Word}

/-- A virtual register is read from the environment. -/
theorem eval_of_vreg (hu : vars.vreg? v = some u) : s.eval L vars v = some (s.env u) := by
  cases v with
  | const n => cases hu
  | temp n => simp only [eval, hu]
  | var id => simp only [eval, hu]

/-- An assignment to an operand changes no other virtual register. -/
theorem env_of_assign (h : s.assign L vars v w = some s') (hne : vars.vreg? v ≠ some u) :
    s'.env u = s.env u := by
  unfold assign at h
  split at h
  · next t ht =>
    cases h
    exact Function.update_of_ne (fun heq => hne (by rw [ht, heq])) _ _
  · -- a global is written in memory
    split at h
    · obtain ⟨x, _, h⟩ := Option.bind_eq_some_iff.1 h
      split at h
      · obtain ⟨a, _, h⟩ := Option.bind_eq_some_iff.1 h
        obtain ⟨k, _, rfl⟩ := Option.map_eq_some_iff.1 h
        rfl
      · cases h
    · cases h

/-- An operand that was given a value has it. -/
theorem eval_of_assign (h : s.assign L vars v w = some s') : s'.eval L vars v = some w := by
  cases hu : vars.vreg? v with
  | some u =>
    simp only [assign, hu] at h
    cases h
    rw [eval_of_vreg hu]
    exact congrArg some (Function.update_self _ _ _)
  | none =>
    -- Without a virtual register only a global scalar can be assigned.
    cases v with
    | const n => simp [assign, hu] at h
    | temp n => simp [assign, hu] at h
    | var id =>
      simp only [assign, hu] at h
      obtain ⟨x, hx, h⟩ := Option.bind_eq_some_iff.1 h
      split at h
      · next hcond =>
        obtain ⟨a, ha, h⟩ := Option.bind_eq_some_iff.1 h
        obtain ⟨k, hk, rfl⟩ := Option.map_eq_some_iff.1 h
        have harr : x.isArray = false := by simpa using hcond.2
        simp [eval, hu, hx, hcond.1, ha, harr, load, hk]
      · cases h

end Lemmas

end State

/-- What a statement comes to. -/
inductive Outcome where
  /-- Control goes to a statement. -/
  | next (j : Nat) (s : State)
  /-- The function returns. -/
  | ret (value : Option Word) (s : State)
  /-- The function calls another one and takes its result to `dst`. -/
  | call (callee : String) (args : List Word) (dst : Option Val) (s : State)

/-- One step at statement `i`; `labels` are the places of labels. -/
def step (L : Layout) (vars : VarTable) (labels : Std.TreeMap Int Nat) (i : Nat) (s : State) :
    Stmt → Option Outcome
  | .binary d l op r => do
    let x ← s.eval L vars l
    let y ← s.eval L vars r
    let w ← (Machine.binary op x y).toOption
    let s ← s.assign L vars d w
    some (.next (i + 1) s)
  | .unary d op v => do
    let x ← s.eval L vars v
    let s ← s.assign L vars d (Machine.unary op x)
    some (.next (i + 1) s)
  | .move d v => do
    let x ← s.eval L vars v
    let s ← s.assign L vars d x
    some (.next (i + 1) s)
  | .store b off v => do
    let a ← s.eval L vars b
    let x ← s.eval L vars v
    let s ← s.store L (a + word off) x
    some (.next (i + 1) s)
  | .load d b off => do
    let a ← s.eval L vars b
    let x ← s.load L (a + word off)
    let s ← s.assign L vars d x
    some (.next (i + 1) s)
  | .branch l rel r t => do
    let x ← s.eval L vars l
    let y ← s.eval L vars r
    if rel.holds x y then
      let j ← labels[t]?
      some (.next j s)
    else some (.next (i + 1) s)
  | .jump t => do
    let j ← labels[t]?
    some (.next j s)
  | .label _ => some (.next (i + 1) s)
  | .call ret callee args => do
    let xs ← args.mapM (s.eval L vars)
    some (.call callee xs ret s)
  | .ret none => some (.ret none s)
  | .ret (some v) => do
    let x ← s.eval L vars v
    some (.ret (some x) s)
  | .zeroFill (.var id) => do
    let (a, n) ← L.array id
    let s ← s.clear L a n
    some (.next (i + 1) s)
  | .zeroFill _ => none

/-- Up to `n` steps from statement `i` on; a call or a return ends them early. -/
def steps (L : Layout) (vars : VarTable) (stmts : List Stmt) : Nat → Nat → State → Option Outcome
  | 0, i, s => some (.next i s)
  | n + 1, i, s => do
    let st ← stmts[i]?
    let o ← step L vars (Flow.labelTable stmts) i s st
    match o with
    | .next j s => steps L vars stmts n j s
    | o => some o

end Tac.Semantics
