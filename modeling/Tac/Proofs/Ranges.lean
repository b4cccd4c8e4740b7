import Tac.Proofs.Emittable
import Tac.Proofs.Unwinding

/-!
# Runs within the ranges of instructions

The machine refuses immediates and offsets that are too large.  It looks at them only when it comes to
the instruction, so a run meets no such refusal when no function of the image has such an instruction.
Functions of the environment have errors of their own, and none is about ranges.

* **`TrapCause.IsRange`** — the refusals in question.
* **`Step.InRange`** — all active functions are emittable, or the run ended for another reason; steps
  keep it.
* **`inRange_call`** — a call from outside on an image of emittable functions.
* **`emission_never_fails`** — code of a program without logical operators is within all ranges, has
  both texts, and no run refuses it.
-/

namespace Tac

/-- An immediate or an offset was out of range, in the program or in the environment. -/
def TrapCause.IsRange : TrapCause → Prop
  | .immediateOutOfRange _ | .offsetOutOfRange _ => True
  | .within _ c => c.IsRange
  | _ => False

namespace Machine

variable {im : Image} {lim : Limits} {m : Machine} {c : TrapCause}

/-! ## Instructions -/

/-- The outcome of an instruction is no refusal of a value out of range. -/
def Exec.InRange : Exec → Prop
  | .trap _ c => ¬ c.IsRange
  | .ok .. | .fault _ => True

/-- Only additions of constants, loads and stores are checked, and these are small. -/
theorem not_isRange_of_raises {x : Instr} (hx : x.Emittable) (h : x.Raises c) : ¬ c.IsRange := by
  cases h with
  | immediate o y h | storeOffset b y h | loadOffset o b h =>
    rw [immOverflows_eq_false_iff.2 hx] at h
    cases h
  | division | operator | address | label | global => exact id

/-- An instruction that can be emitted never fails for its range. -/
theorem inRange_exec (im : Image) (f : LoadedFunc) (m : Machine) {x : Instr} (hx : x.Emittable) :
    (exec im f m x).InRange := by
  have hdoes := does_exec im f m x
  generalize exec im f m x = e at hdoes
  cases hdoes with
  | failed i hc => exact not_isRange_of_raises hx hc
  | refused hc => exact not_isRange_of_raises hx hc
  | wrote | stored | passed | jumped | called | returned | faulted => trivial

/-! ## The environment -/

/-- An error, if there is one, is no refusal of a value out of range. -/
def InRange : Option TrapCause → Prop
  | some c => ¬ c.IsRange
  | none => True

/-- What fails outside the code does not fail for a range. -/
theorem not_isRange_of_outside (h : Outside c) : ¬ c.IsRange := by
  induction h with
  | input | address | undefined => exact id
  | within name _ ih => exact ih

/-- The runtime never fails for a range. -/
theorem inRange_runtime (m : Machine) (name : String) : InRange (m.runtime name).2 := by
  have hquiet := quiet_runtime m name
  generalize m.runtime name = r at hquiet
  obtain ⟨m', _ | c⟩ := r
  · trivial
  · exact not_isRange_of_outside (hquiet.error c rfl)

/-! ## Steps -/

/-- All functions of the image are emittable. -/
def EmittableImage (im : Image) : Prop :=
  ∀ (name : String) (f : LoadedFunc), im.funcs[name]? = some f → Emittable f.body.toList

/-- An image is emittable when the code that it is made of is. -/
theorem emittableImage_ofCode {code : Code} (hcode : ∀ f ∈ code.funcs, Emittable f.body) :
    EmittableImage (Image.ofCode code) := by
  intro name f hf
  rw [getElem?_funcs_ofCode] at hf
  obtain ⟨cf, hfind, rfl⟩ := Option.map_eq_some_iff.1 hf
  show Emittable cf.body
  apply hcode
  exact List.mem_reverse.1 (List.mem_of_find?_eq_some hfind)

/-- What a call comes to: an emittable function, or no refusal of a value out of range. -/
def Entry.InRange : Entry → Prop
  | .returned _ => True
  | .entered _ f => Emittable f.body.toList
  | .refused _ c => ¬ c.IsRange

/-- The run did not end with a refusal of a value out of range. -/
def Outcome.InRange : Outcome → Prop
  | .trap t => ¬ t.cause.IsRange
  | .done | .fault => True

/-- After a step all active functions are emittable, or the run ended for another reason than a value
out of range. -/
def Step.InRange : Step → Prop
  | .continue _ top rest => ∀ fr ∈ top :: rest, Emittable fr.func.body.toList
  | .stop _ o => Outcome.InRange o

section Steps

variable (him : EmittableImage im)

include him

/-- Entering a function never fails for a range. -/
theorem inRange_enter (lim : Limits) (m : Machine) (name : String) : (m.enter im lim name).InRange := by
  have hrun := inRange_runtime m name
  unfold enter
  split
  · split
    · trivial
    · next c h =>
      rw [h] at hrun
      exact hrun
  -- A function is entered only within the depth and the stack; both failures are no range
  -- errors.
  · next f hf =>
    split
    · exact id
    · simp only
      split
      · exact id
      · exact him name f hf

variable {top : Frame} {rest : List Frame}
  (hframes : ∀ fr ∈ top :: rest, Emittable fr.func.body.toList)

include hframes

/-- A step at an instruction that can be emitted never fails for its range. -/
theorem inRange_stepInstr (lim : Limits) (m : Machine) {x : Instr} (hx : x.Emittable) :
    (stepInstr im lim m top rest x).InRange := by
  have hexec := inRange_exec im top.func m hx
  obtain ⟨htop, hrest⟩ := List.forall_mem_cons.1 hframes
  unfold stepInstr
  split
  · trivial
  · next m₁ c h =>
    rw [h] at hexec
    exact hexec
  · exact List.forall_mem_cons.2 ⟨htop, hrest⟩
  · exact List.forall_mem_cons.2 ⟨htop, hrest⟩
  · next m₁ g h =>
    have henter := inRange_enter him lim m₁ g
    split
    · next m₂ c h₂ =>
      rw [h₂] at henter
      exact henter
    · exact List.forall_mem_cons.2 ⟨htop, hrest⟩
    · next m₂ f h₂ =>
      rw [h₂] at henter
      exact List.forall_mem_cons.2 ⟨henter, hframes⟩
  · simp only
    split
    · trivial
    · next caller rest' =>
      -- the caller goes on with the instruction after the call
      exact List.forall_mem_cons.2 (List.forall_mem_cons.1 hrest)

/-- One step stays within emittable functions, and does not end because of a value out of range. -/
theorem inRange_step (lim : Limits) (m : Machine) : (step im lim m top rest).InRange := by
  unfold step
  split
  · exact id
  · next x hx =>
    have hmem : x ∈ top.func.body.toList := by
      rw [← Array.getElem?_toList] at hx
      exact List.mem_of_getElem? hx
    simp only
    split
    · exact id
    · exact inRange_stepInstr him hframes lim _ (hframes top List.mem_cons_self x hmem)

/-- A run never fails for a range. -/
theorem inRange_runSteps (lim : Limits) (fuel : Nat) (m : Machine) :
    Outcome.InRange (runSteps im lim fuel m top rest).2 := by
  -- On the steps; all code on the stack can be emitted.
  induction fuel generalizing m top rest with
  | zero => exact id
  | succ fuel ih =>
    have hstep := inRange_step him hframes lim m
    unfold runSteps
    split
    · next m₁ top₁ rest₁ h =>
      rw [h] at hstep
      exact ih hstep m₁
    · next m₁ o h =>
      rw [h] at hstep
      exact hstep

end Steps

/-! ## Calls from outside -/

/-- A run from a name never fails for a range. -/
theorem inRange_run (him : EmittableImage im) (lim : Limits) (m : Machine) (name : String) :
    Outcome.InRange (m.run im lim name).2 := by
  have henter := inRange_enter him lim m name
  unfold run
  split
  · trivial
  · next m₁ c h =>
    rw [h] at henter
    exact henter
  · next m₁ f h =>
    rw [h] at henter
    refine inRange_runSteps him ?_ lim _ m₁
    exact List.forall_mem_cons.2 ⟨henter, fun _ h => nomatch h⟩

/-- No call of a function of emittable code meets a value out of range. -/
theorem inRange_call {code : Code} (hcode : ∀ f ∈ code.funcs, Emittable f.body) (lim : Limits)
    (m : Machine) (name : String) (args : List Word) :
    InRange (m.call (Image.ofCode code) lim name args).2.cause? := by
  unfold call
  split
  · trivial
  · next m₁ _ =>
    -- Passing arguments raises no range error.
    have hrun := inRange_run (emittableImage_ofCode hcode) lim m₁ name
    split
    · trivial
    · next m₂ t h =>
      rw [h] at hrun
      exact hrun
    · trivial

end Machine

namespace Lowering

/-- **Emission never fails on lowered code**: if the functions of a program apply no logical operators and
lowering succeeds, then every instruction, of statements, hand-written functions and initial values,
is emittable, the code has a text in both forms, and no call on any machine is refused because of an
immediate or an offset. -/
theorem emission_never_fails {p : Program} {sets : ClobberSets} {ps : List Placement} {code : Code}
    (hps : ∀ q ∈ ps, ∀ st ∈ q.func.stmts, st.NonLogical) (hcode : program p sets ps = .ok code) :
    (∀ f ∈ code.funcs, ∀ x ∈ f.body, x.Emittable) ∧
      code.text.error = none ∧ (Riscv.text code).error = none ∧
      ∀ (lim : Limits) (m : Machine) (name : String) (args : List Word) (c : TrapCause),
        (m.call (Image.ofCode code) lim name args).2.cause? = some c → ¬ c.IsRange := by
  have hemit : ∀ f ∈ code.funcs, Emittable f.body := emittable_program hps hcode
  obtain ⟨habstract, hassembly⟩ := error_text hemit
  refine ⟨hemit, habstract, hassembly, fun lim m name args c hcause => ?_⟩
  have hcall := Machine.inRange_call hemit lim m name args
  rw [hcause] at hcall
  exact hcall

/-! ## Constants at the edges -/

/-- A global array with an initial value in its last word, and a large local array. -/
def edgeProgram : Program where
  vars := #[⟨"G", .global, 0, some [2000]⟩, ⟨"A", .loc, 0, some [600]⟩]
  globals := [0]
  inits := [⟨0, 7996, 5⟩]

/-- A hand-written function, and one whose constants and offsets are the last ones that fit an
instruction and the first ones that do not. -/
def edgePlaced : List Placement :=
  [{ func := { name := "memmove", void := false, builtin := some "memmove" }
     live := #[], meet := #[], locs := {}, arrays := {}, spillSize := 0 },
   { func :=
      { name := "main", void := true
        stmts := [.zeroFill (.var 1), .move (.temp 0) (.const 5),
          .binary (.temp 0) (.temp 0) .add (.const 2046), .binary (.temp 0) (.temp 0) .add (.const 2047),
          .binary (.temp 0) (.temp 0) .sub (.const 2046), .binary (.temp 0) (.temp 0) .sub (.const 2047),
          .binary (.temp 0) (.temp 0) .mul (.const 8), .binary (.temp 0) (.temp 0) .div (.const 4),
          .store (.var 0) 2044 (.temp 0), .store (.var 0) 2048 (.temp 0), .ret none] }
     live := #[], meet := Array.replicate 11 (BitSet.ofList [0])
     locs := .ofList [(0, Loc.reg (Reg.t 5))], arrays := .ofList [((1 : VarId), Loc.stack 0 600)]
     spillSize := 600 }]

/-- The constants 2046 are in instructions of their own, the constants 2047 go through a register. -/
theorem emission_never_fails_edge : ∃ code, program edgeProgram {} edgePlaced = .ok code ∧
    code.text.error = none ∧ (Riscv.text code).error = none ∧
    (∃ f ∈ code.funcs, .addImm (Reg.t 5) (Reg.t 5) 2046 ∈ f.body ∧
      .addImm (Reg.t 5) (Reg.t 5) (-2046) ∈ f.body ∧ .imm (Reg.t 1) 2047 ∈ f.body ∧
      .store (Reg.t 0) 2044 (Reg.t 5) ∈ f.body ∧ .imm (Reg.t 1) 2400 ∈ f.body) ∧
    ∀ (m : Machine) (c : TrapCause),
      (m.call (Image.ofCode code) {} "main" []).2.cause? = some c → ¬ c.IsRange := by
  -- The constants are the largest that fit, or the first that do not.
  have htest : (program edgeProgram {} edgePlaced).toOption.any (fun code =>
      decide (∃ f ∈ code.funcs, .addImm (Reg.t 5) (Reg.t 5) 2046 ∈ f.body ∧
        .addImm (Reg.t 5) (Reg.t 5) (-2046) ∈ f.body ∧ .imm (Reg.t 1) 2047 ∈ f.body ∧
        .store (Reg.t 0) 2044 (Reg.t 5) ∈ f.body ∧ .imm (Reg.t 1) 2400 ∈ f.body)) = true := by
    decide +kernel
  obtain ⟨code, hcode, htest⟩ := exists_ok_of_any htest
  have hps : ∀ q ∈ edgePlaced, ∀ st ∈ q.func.stmts, st.NonLogical := by
    simp [edgePlaced, Stmt.NonLogical]
  obtain ⟨-, habstract, hassembly, hcalls⟩ := emission_never_fails hps hcode
  exact ⟨code, hcode, habstract, hassembly, of_decide_eq_true htest, fun m => hcalls {} m "main" []⟩

end Lowering

end Tac
