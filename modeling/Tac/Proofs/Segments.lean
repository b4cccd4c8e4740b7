import Mathlib
import Tac.Proofs.Execution
import Tac.Proofs.WellFormed

/-!
# Runs of code in pieces

Code that jumps to its own labels only is run as itself when it stands beside other code with other
labels: control comes in at its first statement and leaves behind its last one.

* **`Completes`** — a run from the first statement to behind the last one.
* **`Completes.split`** — a run of two pieces is a run of the first and then a run of the second.
* **`Completes.keeps`** — temporaries that no statement writes, and the variables when only
  temporaries are written, are as before.
-/

namespace Tac

open Tree.Generate

/-! ## Labels of two pieces -/

namespace Flow

variable {A B : List Stmt} {l : Int} {j : Nat}

/-- The labels of a segment are the statements that name them. -/
theorem mem_labelsOf : l ∈ labelsOf A ↔ .label l ∈ A := by
  rw [labelsOf, List.mem_filterMap]
  constructor
  · rintro ⟨s, hs, hl⟩
    rwa [(label?_eq_some_iff s l).1 hl] at hs
  · exact fun h => ⟨_, h, rfl⟩

/-- A label that only the first piece defines is where it is in the first piece. -/
theorem labelTable_append_left (hl : l ∉ labelsOf B) :
    (labelTable (A ++ B))[l]? = (labelTable A)[l]? := by
  rw [mem_labelsOf] at hl
  have hget : ∀ k, (A ++ B)[k]? = some (Stmt.label l) ↔ A[k]? = some (Stmt.label l) := fun k => by
    rcases Nat.lt_or_ge k A.length with hk | hk
    · rw [List.getElem?_append_left hk]
    · rw [List.getElem?_append_right hk, List.getElem?_eq_none hk]
      exact iff_of_false (fun h => hl (List.mem_of_getElem? h)) nofun
  ext j
  rw [getElem?_labelTable, getElem?_labelTable]
  simp only [ne_eq, hget]

/-- A label that the second piece defines is where it is there, behind the first piece. -/
theorem labelTable_append_right (hj : (labelTable B)[l]? = some j) :
    (labelTable (A ++ B))[l]? = some (A.length + j) := by
  obtain ⟨hlabel, hlast⟩ := (getElem?_labelTable B l j).1 hj
  rw [getElem?_labelTable]
  refine ⟨?_, fun k hk => ?_⟩
  · rw [List.getElem?_append_right (Nat.le_add_right ..), Nat.add_sub_cancel_left]
    exact hlabel
  · rw [List.getElem?_append_right (by omega)]
    exact hlast _ (by omega)

end Flow

namespace Run

variable {α : Type} {X : Setting α} {A B : List Stmt} {s t : State α} {i j n : Nat}

/-! ## Runs of two pieces -/

/-- Code jumps to labels that it defines. -/
def OwnJumps (A : List Stmt) : Prop := ∀ s ∈ A, ∀ l, s.target? = some l → l ∈ labelsOf A

/-- A run from the first statement to behind the last one. -/
def Completes (X : Setting α) (A : List Stmt) (s t : State α) : Prop :=
  ∃ n, run X A n 0 s = .running A.length t

/-- Only a jump or a branch leads to a label, its own one. -/
theorem target_of_goto {st : Stmt} {l : Int} (h : exec X s st = .goto l t) : st.target? = some l := by
  cases hd : st.dst? with
  | none =>
    cases h ▸ quiet_exec (X := X) (s := s) hd with
    | goto htarget => exact htarget
  | some d =>
    -- a destination is delivered to, and then the next statement follows
    rw [exec_of_dst hd] at h
    unfold deliver at h
    split at h
    · cases h
    · split at h <;> cases h

/-- A status at a later place. -/
def Status.shift (k : Nat) : Status α → Status α
  | .running i s => .running (k + i) s
  | .ended trace o => .ended trace o

/-- A statement of the first segment does the same with another behind it. -/
theorem step_append_left (hA : OwnJumps A) (hdisj : List.Disjoint (labelsOf A) (labelsOf B))
    (hi : i < A.length) : step X (A ++ B) i s = step X A i s := by
  simp only [step, List.getElem?_append_left hi, List.getElem?_eq_getElem hi]
  cases heff : exec X s A[i] with
  | next | ended => rfl
  | goto l t =>
    have hl := hA _ (List.getElem_mem hi) l (target_of_goto heff)
    simp only [follow, Flow.labelTable_append_left (hdisj hl)]

/-- A statement of the second segment does the same with another before it, further down. -/
theorem step_append_right (hB : OwnJumps B) :
    step X (A ++ B) (A.length + i) s = (step X B i s).shift A.length := by
  simp only [step, List.getElem?_append_right (Nat.le_add_right ..), Nat.add_sub_cancel_left]
  cases hi : B[i]? with
  | none => rfl
  | some st =>
    dsimp only
    cases heff : exec X s st with
    | next | ended => rfl
    | goto l t =>
      -- A jump of the second part finds its label there, behind all labels of the first.
      have hl := hB _ (List.mem_of_getElem? hi) l (target_of_goto heff)
      obtain ⟨j, hj⟩ := Flow.exists_getElem?_labelTable hl
      simp only [follow, hj, Flow.labelTable_append_right hj, Status.shift]

/-- A run in the second segment is the same with another before it, further down. -/
theorem run_append_right (hB : OwnJumps B) (n : Nat) :
    run X (A ++ B) n (A.length + i) s = (run X B n i s).shift A.length := by
  -- On the number of steps; each is shifted by itself.
  induction n generalizing i s with
  | zero => rfl
  | succ n ih =>
    have hstep := step_append_right (X := X) (A := A) (i := i) (s := s) hB
    cases hs : step X B i s with
    | running j t =>
      rw [hs] at hstep
      rw [run_of_running n hs, run_of_running n hstep, ih]
    | ended trace o =>
      rw [hs] at hstep
      rw [run_of_ended n hs, run_of_ended n hstep]
      rfl

/-- A step leads no further than behind the last statement. -/
theorem le_of_step (h : step X A i s = .running j t) : j ≤ A.length := by
  unfold step at h
  split at h
  · next st hst =>
    have hi := (List.getElem?_eq_some_iff.1 hst).1
    -- A label is a statement of the segment; what falls out of it lands just behind.
    cases heff : exec X s st with
    | next u =>
      rw [heff] at h
      cases h
      exact hi
    | goto l u =>
      simp only [heff, follow] at h
      split at h
      · next k hk =>
        cases h
        have hlabel := ((Flow.getElem?_labelTable _ _ _).1 hk).1
        exact Nat.le_of_lt (List.getElem?_eq_some_iff.1 hlabel).1
      · cases h
    | ended trace o =>
      rw [heff] at h
      cases h
  · cases h

/-- Behind the last statement a run is over. -/
theorem eq_of_run_length (h : run X A n A.length s = .running j t) : j = A.length ∧ t = s := by
  cases n with
  | zero =>
    cases h
    exact ⟨rfl, rfl⟩
  | succ n =>
    have hstep : step X A A.length s = .ended s.world.trace .fault := by
      simp only [step, List.getElem?_eq_none (Nat.le_refl _)]
    rw [run_of_ended n hstep] at h
    cases h

/-- A run of two pieces leaves the first one behind its last statement. -/
theorem split_run (hA : OwnJumps A) (hB : OwnJumps B) (hdisj : List.Disjoint (labelsOf A) (labelsOf B))
    (hi : i ≤ A.length) (h : run X (A ++ B) n i s = .running (A ++ B).length t) :
    ∃ u, (∃ m, run X A m i s = .running A.length u) ∧ Completes X B u t := by
  -- On the number of steps; a run that leaves the first segment does so by its end, as all
  -- jumps stay inside.
  induction n generalizing i s with
  | zero =>
    cases h
    have hlen : (A ++ B).length = A.length := by
      rw [List.length_append] at hi ⊢
      omega
    have hB : B.length = 0 := by
      rw [List.length_append] at hlen
      omega
    exact ⟨t, ⟨0, by rw [run, hlen]⟩, 0, by rw [run, hB]⟩
  | succ n ih =>
    rcases Nat.lt_or_ge i A.length with hlt | hge
    · -- inside the first piece a step is a step of the first piece
      cases hs : step X A i s with
      | running j u =>
        have hstep := (step_append_left (X := X) (s := s) hA hdisj hlt).trans hs
        rw [run_of_running n hstep] at h
        obtain ⟨v, ⟨m, hm⟩, hrest⟩ := ih (le_of_step hs) h
        exact ⟨v, ⟨m + 1, by rwa [run_of_running m hs]⟩, hrest⟩
      | ended trace o =>
        have hstep := (step_append_left (X := X) (s := s) hA hdisj hlt).trans hs
        rw [run_of_ended n hstep] at h
        cases h
    · obtain rfl : i = A.length := by omega
      refine ⟨s, ⟨0, rfl⟩, n + 1, ?_⟩
      have hshift : run X (A ++ B) (n + 1) A.length s = (run X B (n + 1) 0 s).shift A.length :=
        run_append_right (i := 0) hB (n + 1)
      rw [h] at hshift
      cases hrun : run X B (n + 1) 0 s with
      | running j u =>
        rw [hrun, List.length_append] at hshift
        simp only [Status.shift, Status.running.injEq] at hshift
        obtain ⟨hj, rfl⟩ := hshift
        rw [show j = B.length by omega]
      | ended trace o =>
        rw [hrun] at hshift
        cases hshift

/-- A run of two pieces is a run of the first and then a run of the second. -/
theorem Completes.split (hA : OwnJumps A) (hB : OwnJumps B)
    (hdisj : List.Disjoint (labelsOf A) (labelsOf B)) (h : Completes X (A ++ B) s t) :
    ∃ u, Completes X A s u ∧ Completes X B u t := by
  obtain ⟨n, hn⟩ := h
  exact split_run hA hB hdisj (Nat.zero_le _) hn

theorem Completes.of_nil (h : Completes X [] s t) : t = s := by
  obtain ⟨n, hn⟩ := h
  exact (eq_of_run_length (A := []) hn).2

/-- A single statement that does not jump is executed. -/
theorem Completes.of_single {st : Stmt} (hst : st.target? = none) (h : Completes X [st] s t) :
    exec X s st = .next t := by
  obtain ⟨n, hn⟩ := h
  cases n with
  | zero => cases hn
  | succ n =>
    -- A single statement can only complete by going on.
    cases heff : exec X s st with
    | next u =>
      have hstep : step X [st] 0 s = .running [st].length u := by
        show follow [st] 0 (exec X s st) = _
        rw [heff]
        rfl
      rw [run_of_running n hstep] at hn
      rw [(eq_of_run_length hn).2]
    | goto l u =>
      rw [target_of_goto heff] at hst
      cases hst
    | ended trace o =>
      have hstep : step X [st] 0 s = .ended trace o := by
        show follow [st] 0 (exec X s st) = _
        rw [heff]
        rfl
      rw [run_of_ended n hstep] at hn
      cases hn

/-! ## What code keeps -/

/-- Variables and all temporaries but those in `ts` are the same. -/
structure Keeps (ts : List Int) (s t : State α) : Prop where
  var : t.var = s.var
  temp : ∀ k ∉ ts, t.temp k = s.temp k

theorem Keeps.refl (ts : List Int) (s : State α) : Keeps ts s s := ⟨rfl, fun _ _ => rfl⟩

theorem Keeps.trans {ts : List Int} {u : State α} (h : Keeps ts s u) (h' : Keeps ts u t) :
    Keeps ts s t :=
  ⟨h'.var.trans h.var, fun k hk => (h'.temp k hk).trans (h.temp k hk)⟩

theorem Keeps.mono {ts us : List Int} (h : Keeps ts s t) (hts : ts ⊆ us) : Keeps us s t :=
  ⟨h.var, fun k hk => h.temp k fun hmem => hk (hts hmem)⟩

/-- Statements write temporaries of `ts` and no variables. -/
def Writes (ts : List Int) (A : List Stmt) : Prop :=
  ∀ s ∈ A, ∀ d, s.dst? = some d → ∃ n ∈ ts, d = .temp n

/-- A computation changes the world at most. -/
theorem keeps_compute {ts : List Int} {st : Stmt} {w : Word} (h : compute X s st = .value w t) :
    Keeps ts s t := by
  have hof : ∀ o : Option Word, Computed.of s o = .value w t → Keeps ts s t := fun o ho => by
    cases o with
    | none => cases ho
    | some w' =>
      cases ho
      exact .refl ts _
  cases st with
  | binary | unary | move | load => exact hof _ h
  | call d g args =>
    simp only [compute, callOut] at h
    -- A call answers in the world and leaves the temporaries alone.
    split at h
    · cases h
    · split at h
      · cases h
      · cases h
        exact ⟨rfl, fun _ _ => rfl⟩
  | store | branch | jump | label | ret | zeroFill => cases h

/-- Control goes on in a state. -/
inductive Effect.Continues : Effect α → State α → Prop where
  | next (t : State α) : Continues (.next t) t
  | goto (l : Int) (t : State α) : Continues (.goto l t) t

/-- Delivering to a temporary changes that temporary only. -/
theorem keeps_deliver {ts : List Int} {st : Stmt} {k : Int} (hk : k ∈ ts)
    (h : (deliver X (.temp k) (compute X s st)).Continues t) : Keeps ts s t := by
  cases hc : compute X s st with
  | ended trace o =>
    rw [hc] at h
    cases h
  | value w u =>
    rw [hc, deliver_temp] at h
    cases h
    have hu : Keeps ts s u := keeps_compute hc
    refine hu.trans ⟨rfl, fun j hj => State.temp_setTemp_of_ne ?_⟩
    -- The destination is one of the temporaries that may change.
    rintro rfl
    exact hj hk

/-- A statement that writes some temporaries only leaves the others alone. -/
theorem keeps_exec {ts : List Int} {st : Stmt}
    (hst : ∀ d, st.dst? = some d → ∃ n ∈ ts, d = .temp n) (h : (exec X s st).Continues t) :
    Keeps ts s t := by
  -- Only a statement with a destination can write a temporary.
  cases hd : st.dst? with
  | some d =>
    obtain ⟨k, hk, rfl⟩ := hst d hd
    rw [exec_of_dst hd] at h
    exact keeps_deliver hk h
  | none =>
    have hquiet := quiet_exec (X := X) (s := s) hd
    generalize exec X s st = e at h hquiet
    cases h with
    | next =>
      cases hquiet
      exact ⟨rfl, fun _ _ => rfl⟩
    | goto =>
      cases hquiet
      exact .refl ts _

/-- A step of code that writes some temporaries only leaves the others alone. -/
theorem keeps_step {ts : List Int} (hA : Writes ts A) (h : step X A i s = .running j t) :
    Keeps ts s t := by
  unfold step at h
  split at h
  · next st hst =>
    have hkeeps := fun u => keeps_exec (X := X) (s := s) (t := u) (hA st (List.mem_of_getElem? hst))
    -- The state after the step is that after the statement, wherever it goes on.
    cases heff : exec X s st with
    | next u =>
      rw [heff] at h hkeeps
      cases h
      exact hkeeps t (.next t)
    | goto l u =>
      rw [heff] at h hkeeps
      simp only [follow] at h
      split at h
      · cases h
        exact hkeeps t (.goto l t)
      · cases h
    | ended trace o =>
      rw [heff] at h
      cases h
  · cases h

/-- A run of code that writes some temporaries only leaves the others alone. -/
theorem keeps_run {ts : List Int} (hA : Writes ts A) (h : run X A n i s = .running j t) :
    Keeps ts s t := by
  induction n generalizing i s with
  | zero =>
    cases h
    exact .refl ts _
  | succ n ih =>
    cases hs : step X A i s with
    | running k u =>
      rw [run_of_running n hs] at h
      exact (keeps_step hA hs).trans (ih h)
    | ended trace o =>
      rw [run_of_ended n hs] at h
      cases h

/-- A segment that writes some temporaries only leaves the others alone. -/
theorem Completes.keeps {ts : List Int} (h : Completes X A s t) (hA : Writes ts A) :
    Keeps ts s t := by
  obtain ⟨n, hn⟩ := h
  exact keeps_run hA hn

end Run

end Tac
