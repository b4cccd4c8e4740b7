import Mathlib
import Tac.Allocation
import Tac.Proofs.Liveness

/-!
# Live means read on some path

The equations of liveness have many solutions; the worklist finds the least one, and does so in
whatever order it takes the waiting statements.

* **`ReadAhead`** — some path along successors leads to a statement that reads the register, and no
  statement before its end writes it.
* **`Supported`** — every member of a set so far has such a path.  It holds of empty sets and is kept
  by each visit (`Supported.visit`), so that nothing is ever live without a reason.
* **`Takes`** — taking waiting statements in any order at all.  No order is longer than the step
  bound (`Takes.progress`), and when nothing waits any more the sets are exactly those of the paths.
* **`analyze_exact`** — all of it for the analysis of a function with known flow.
-/

namespace Tac

/-- The analyses of a function whose flow is known and whose operands all have numbers. -/
theorem Func.analyze_of_connect {vars : VarTable} {f : Func} {fl : Flow}
    (hfl : Flow.connect f = .ok fl) (hnum : f.stmts.all (Stmt.isNumbered vars) = true) :
    f.analyze vars = .ok
      { func := f, flow := fl, live := Liveness.analyze vars f fl, reachable := fl.reachable
        graph := Graph.build (Liveness.analyze vars f fl) fl.reachable } := by
  rw [Func.analyze, hfl]
  simp only [hnum, if_true]

namespace Liveness

/-! ## Paths to a read -/

section Paths

variable (vars : VarTable) (f : Func) (fl : Flow)

/-- Statement `i` reads register `u`. -/
def ReadsAt (u : VReg) (i : Nat) : Prop := ∃ s, f.stmts[i]? = some s ∧ u ∈ s.uses vars

/-- Statement `i` writes register `u`. -/
def WritesAt (u : VReg) (i : Nat) : Prop := ∃ s, f.stmts[i]? = some s ∧ u ∈ s.defs vars

/-- A path of `m` steps from statement `i` ends where `u` is read, and `u` is not written before. -/
def ReadAhead (u : VReg) (i : Nat) : Prop :=
  ∃ (m : Nat) (path : Nat → Nat), path 0 = i ∧ (∀ k < m, path (k + 1) ∈ fl.nextOf (path k)) ∧
    ReadsAt vars f u (path m) ∧ ∀ k < m, ¬ WritesAt vars f u (path k)

variable {vars f fl} {u : VReg} {i j : Nat}

/-- What is read here is read ahead. -/
theorem ReadAhead.here (h : ReadsAt vars f u i) : ReadAhead vars f fl u i :=
  ⟨0, fun _ => i, rfl, fun k hk => absurd hk (Nat.not_lt_zero k), h,
    fun k hk => absurd hk (Nat.not_lt_zero k)⟩

/-- A path may be made longer at its start. -/
theorem ReadAhead.before (hj : j ∈ fl.nextOf i) (hw : ¬ WritesAt vars f u i)
    (h : ReadAhead vars f fl u j) : ReadAhead vars f fl u i := by
  obtain ⟨m, path, rfl, hstep, hread, hfree⟩ := h
  refine ⟨m + 1, fun k => k.casesOn i path, rfl, fun k hk => ?_, hread, fun k hk => ?_⟩
  · cases k with
    | zero => exact hj
    | succ k => exact hstep k (Nat.lt_of_succ_lt_succ hk)
  · cases k with
    | zero => exact hw
    | succ k => exact hfree k (Nat.lt_of_succ_lt_succ hk)

/-- In any solution of the equations a register is live all along a path to a read of it. -/
theorem Solution.live_of_readAhead {l : Liveness} (hsol : Solution vars f fl l)
    (d : Flow.Describes f fl) (h : ReadAhead vars f fl u i) :
    (l.liveAt i).contains u = true := by
  obtain ⟨m, path, rfl, hstep, hread, hfree⟩ := h
  -- backwards along the path: live where it is read, and before each step that leads there
  have hback : ∀ k ≤ m, (l.liveAt (path (m - k))).contains u = true := by
    intro k
    -- On the length of the path to the read, backwards from it.
    induction k with
    | zero =>
      intro _
      obtain ⟨s, hs, hu⟩ := hread
      exact (hsol.live_iff _ s hs u).2 (Or.inl hu)
    | succ k ih =>
      intro hk
      have hlt : m - (k + 1) < m := by omega
      have hnext := hstep _ hlt
      rw [show m - (k + 1) + 1 = m - k by omega] at hnext
      have hmeet := (hsol.meet_iff _ u).2 ⟨_, hnext, ih (by omega)⟩
      cases hs : f.stmts[path (m - (k + 1))]? with
      | none =>
        -- a statement with a successor is in the function
        rw [d.nextOf_eq_nil (List.getElem?_eq_none_iff.1 hs)] at hnext
        cases hnext
      | some s =>
        refine (hsol.live_iff _ s hs u).2 (Or.inr ⟨fun hd => ?_, hmeet⟩)
        exact hfree _ hlt ⟨s, hs, hd⟩
  have hstart := hback m (Nat.le_refl m)
  rwa [Nat.sub_self] at hstart

end Paths

/-! ## Nothing is live without a path -/

section Support

variable {vars : VarTable} {f : Func} {fl : Flow}

/-- The facts record what is read. -/
theorem mem_uses_iff {u : VReg} {i : Nat} :
    u ∈ (facts vars f fl).uses.getD i [] ↔ ReadsAt vars f u i := by
  rw [uses_facts, ReadsAt]
  cases f.stmts[i]? <;> simp

/-- The facts record what is written. -/
theorem mem_defs_iff {u : VReg} {i : Nat} :
    u ∈ (facts vars f fl).defs.getD i [] ↔ WritesAt vars f u i := by
  rw [defs_facts, WritesAt]
  cases f.stmts[i]? <;> simp

/-- Every member of a set so far is read on some path. -/
def Supported (vars : VarTable) (f : Func) (fl : Flow) (l : Liveness) : Prop :=
  ∀ i u, (l.liveAt i).contains u = true → ReadAhead vars f fl u i

/-- At the start nothing is live, so nothing needs a path. -/
theorem supported_start : Supported vars f fl (start f.stmts.length).sets := by
  intro i u hu
  rw [liveAt_start, BitSet.contains_empty] at hu
  cases hu

/-- A visit adds only what a path supports. -/
theorem Supported.visit {i : Nat} {w w' : Work} (h : Supported vars f fl w.sets)
    (v : Visited (facts vars f fl) i w w') : Supported vars f fl w'.sets := by
  intro k u hu
  by_cases hki : k = i
  · subst hki
    rw [v.live_self u, contains_transfer, contains_join, mem_uses_iff, mem_defs_iff] at hu
    rcases hu with hread | ⟨hfree, j, hj, hlive⟩
    · exact .here hread
    · exact .before hj hfree (h j u hlive)
  · rw [v.live_other k hki] at hu
    exact h k u hu

end Support

/-! ## Any order -/

/-- Takes the listed statements one after the other, each while it waits. -/
inductive Takes (fx : Facts) : List Nat → Work → Work → Prop where
  | done (w : Work) : Takes fx [] w w
  | take {i : Nat} {is : List Nat} {w w' : Work} (hi : i ∈ w.queue)
      (rest : Takes fx is (visit fx i w) w') : Takes fx (i :: is) w w'

section Orders

variable {vars : VarTable} {f : Func} {fl : Flow}

/-- Whatever is taken next, the sets stay between empty and exact, and the potential pays for each
statement taken. -/
theorem Takes.progress (d : Flow.Describes f fl) {is : List Nat} {w w' : Work}
    (h : Takes (facts vars f fl) is w w') (p : Progress (facts vars f fl) f.stmts.length w)
    (hs : Supported vars f fl w.sets) :
    Progress (facts vars f fl) f.stmts.length w' ∧ Supported vars f fl w'.sets ∧
      is.length + potential (facts vars f fl) f.stmts.length w' ≤
        potential (facts vars f fl) f.stmts.length w := by
  -- On the visits, in whatever order they are made.
  induction h with
  | done w => exact ⟨p, hs, by simp⟩
  | @take i is w w' hi rest ih =>
    have hlt := p.queue_lt i hi
    have v := visited_visit (facts vars f fl) (by rw [p.size_live]; exact hlt)
      (by rw [p.size_meet]; exact hlt) hi
    have p' := progress_visit d p v
    obtain ⟨hp, hsup, hle⟩ := ih p' (hs.visit v)
    have hdown := potential_visit_lt p p' v hlt
    exact ⟨hp, hsup, by rw [List.length_cons]; omega⟩

/-- The worklist that takes the last waiting statement is one such order. -/
theorem takes_solve (fx : Facts) (fuel : Nat) (w : Work) : ∃ is, Takes fx is w (solve fx fuel w) := by
  induction fuel generalizing w with
  | zero => exact ⟨[], .done w⟩
  | succ fuel ih =>
    rw [solve]
    cases hmax : w.queue.max? with
    | none => exact ⟨[], .done w⟩
    | some i =>
      obtain ⟨hi, _⟩ := Std.TreeSet.max?_eq_some_iff_mem_and_forall.1 hmax
      obtain ⟨is, his⟩ := ih (visit fx i w)
      exact ⟨i :: is, .take hi his⟩

/-- The live sets are those of the paths to reads, and the sets after a statement are their unions
over its successors. -/
structure Exact (vars : VarTable) (f : Func) (fl : Flow) (l : Liveness) : Prop where
  size_live : l.live.size = f.stmts.length
  size_meet : l.meet.size = f.stmts.length
  live_iff : ∀ i u, (l.liveAt i).contains u = true ↔ ReadAhead vars f fl u i
  meet_iff : ∀ i u, (l.meetAt i).contains u = true ↔
    ∃ j ∈ fl.nextOf i, (l.liveAt j).contains u = true

/-- When the queue is empty, the live sets are exactly what is read ahead. -/
theorem Progress.exact (d : Flow.Describes f fl) {w : Work}
    (p : Progress (facts vars f fl) f.stmts.length w) (hs : Supported vars f fl w.sets)
    (hdone : w.queue.isEmpty = true) : Exact vars f fl w.sets := by
  have hsol := p.solution d (Std.TreeSet.isEmpty_iff_forall_not_mem.1 hdone)
  exact ⟨hsol.size_live, hsol.size_meet,
    fun i u => ⟨hs i u, fun h => hsol.live_of_readAhead d h⟩, hsol.meet_iff⟩

/-- Exact sets have the same members, whatever way they were found. -/
theorem Exact.sameMembers {l l' : Liveness} (h : Exact vars f fl l) (h' : Exact vars f fl l')
    (i : Nat) : (l.liveAt i).sameMembers (l'.liveAt i) = true ∧
      (l.meetAt i).sameMembers (l'.meetAt i) = true := by
  have hlive : ∀ j u, (l.liveAt j).contains u = (l'.liveAt j).contains u := fun j u =>
    Bool.eq_iff_iff.2 ((h.live_iff j u).trans (h'.live_iff j u).symm)
  refine ⟨(BitSet.sameMembers_iff _ _).2 (hlive i), (BitSet.sameMembers_iff _ _).2 fun u => ?_⟩
  rw [Bool.eq_iff_iff, h.meet_iff, h'.meet_iff]
  simp only [hlive]

end Orders

/-- The analysis of a function with known flow ends with exactly the registers that are read on some
path before they are written.  So does the worklist in any other order: no order is longer than the
step bound, and every order that leaves nothing waiting ends with the same members. -/
theorem analyze_exact {vars : VarTable} {f : Func} {fl : Flow} (hfl : Flow.connect f = .ok fl)
    (hnum : f.stmts.all (Stmt.isNumbered vars) = true) :
    ∃ a, f.analyze vars = .ok a ∧ a.flow = fl ∧ Exact vars f fl a.live ∧
      (∃ is w, Takes (facts vars f fl) is (start f.stmts.length) w ∧ w.queue.isEmpty = true ∧
        w.sets = a.live) ∧
      ∀ is w, Takes (facts vars f fl) is (start f.stmts.length) w →
        is.length ≤ enough (facts vars f fl) ∧
        (w.queue.isEmpty = true → Exact vars f fl w.sets ∧ ∀ i,
          (w.sets.liveAt i).sameMembers (a.live.liveAt i) = true ∧
          (w.sets.meetAt i).sameMembers (a.live.meetAt i) = true) := by
  have d := Flow.describes_of_connect hfl
  -- The fuel is enough for any order of the worklist.
  have hbound : potential (facts vars f fl) f.stmts.length (start f.stmts.length) ≤
      enough (facts vars f fl) := potential_start_le d
  obtain ⟨p, hdone⟩ := progress_solve d (enough (facts vars f fl)) progress_start hbound
  obtain ⟨is, his⟩ := takes_solve (facts vars f fl) (enough (facts vars f fl))
    (start f.stmts.length)
  have hempty := Std.TreeSet.isEmpty_iff_forall_not_mem.2 hdone
  have hexact := p.exact d (his.progress d progress_start supported_start).2.1 hempty
  refine ⟨_, Func.analyze_of_connect hfl hnum, rfl, hexact, ⟨is, _, his, hempty, rfl⟩,
    fun js w hjs => ?_⟩
  obtain ⟨pw, hsw, hle⟩ := hjs.progress d progress_start supported_start
  refine ⟨by omega, fun hw => ?_⟩
  -- Two exact results have the same members.
  have hwexact := pw.exact d hsw hw
  exact ⟨hwexact, hwexact.sameMembers hexact⟩

/-- A loop that counts `t0` down to the value of the parameter; `t1` is read after the loop only. -/
def countdownFunc : Func where
  name := "f"
  void := false
  params := [0]
  stmts := [.move (.temp 0) (.const 9), .move (.temp 1) (.const 5), .label 0,
    .binary (.temp 0) (.temp 0) .sub (.const 1), .branch (.temp 0) .gt (.var 0) 0,
    .ret (some (.temp 1))]

/-- The parameter of `countdownFunc`. -/
def countdownVars : VarTable := #[⟨"n", .arg, 0, none⟩]

/-- Before the first statement the parameter is read on a path into the loop, and `t0` on none. -/
theorem analyze_exact_countdown : ∃ fl a, Flow.connect countdownFunc = .ok fl ∧
    countdownFunc.stmts.all (Stmt.isNumbered countdownVars) = true ∧
    countdownFunc.analyze countdownVars = .ok a ∧
    Exact countdownVars countdownFunc fl a.live ∧
    ReadAhead countdownVars countdownFunc fl (VReg.param 0) 0 ∧
    ¬ ReadAhead countdownVars countdownFunc fl 0 0 := by
  have hnum : countdownFunc.stmts.all (Stmt.isNumbered countdownVars) = true := by decide
  cases hfl : Flow.connect countdownFunc with
  | error e =>
    have hok : (Flow.connect countdownFunc).toOption.isSome = true := by decide
    rw [hfl] at hok
    cases hok
  | ok fl =>
    obtain ⟨a, ha, _, hexact, _⟩ := analyze_exact hfl hnum
    -- The analysis is run, with its worklist as a list.
    have htest : (countdownFunc.analyze countdownVars).toOption.all (fun a =>
        (a.live.liveAt 0).contains (VReg.param 0) && !(a.live.liveAt 0).contains 0) = true := by
      simp only [Func.analyze, analyze_eq_solveList]
      decide +kernel
    rw [ha] at htest
    obtain ⟨hparam, htemp⟩ := (Bool.and_eq_true _ _).mp htest
    refine ⟨fl, a, rfl, hnum, ha, hexact, (hexact.live_iff _ _).1 hparam, fun h => ?_⟩
    rw [(hexact.live_iff _ _).2 h] at htemp
    cases htemp

end Liveness

end Tac
