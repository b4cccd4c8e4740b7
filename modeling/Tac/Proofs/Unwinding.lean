import Tac.Proofs.Preserved

/-!
# What a call leaves of the stack

A call takes a frame off the stack and so does every call inside it.  However the run ends, the frames
in use are given back: after a return, after an error at any depth and after a fault the stack
pointer and the call depth are as before.  One frame is an exception, the one that does not fit: it is
taken before the check refuses it and nothing gives it back.

* **`SameStack`** — stack pointer and call depth are as before.
* **`Refunds`** — what an error leaves: everything given back, or all but the frame that did not fit.
* **`Step.Balanced`** — a state of a run is seen through the machine that giving back all its frames
  would leave; no step changes the stack of that machine.
* **`call_restores_stack`** — the statement for calls from outside.
-/

namespace Tac.Machine

variable {im : Image} {lim : Limits} {m m' m₀ m₁ : Machine}

/-! ## Machines with one stack -/

/-- The stack pointer and the call depth are as before. -/
structure SameStack (m m' : Machine) : Prop where
  sp : m'.sp = m.sp
  depth : m'.depth = m.depth

theorem SameStack.refl (m : Machine) : SameStack m m := ⟨rfl, rfl⟩

theorem SameStack.trans (h₁ : SameStack m₀ m) (h₂ : SameStack m m') : SameStack m₀ m' :=
  ⟨h₂.sp.trans h₁.sp, h₂.depth.trans h₁.depth⟩

/-- Giving back the same frame on both sides keeps the stacks equal. -/
theorem SameStack.leave (h : SameStack m m') (f : LoadedFunc) :
    SameStack (m.leave f) (m'.leave f) :=
  ⟨congrArg (· + f.frame) h.sp, congrArg (· - 1) h.depth⟩

/-- Giving back the same frames on both sides keeps the stacks equal. -/
theorem SameStack.unwind (h : SameStack m m') (frames : List Frame) :
    SameStack (m.unwind frames) (m'.unwind frames) := by
  -- On the frames, innermost first, which is the order in which they are given back.
  induction frames generalizing m m' with
  | nil => exact h
  | cons f fs ih => exact ih (h.leave f.func)

theorem SameStack.resetZero (h : SameStack m m') : SameStack m m'.resetZero := ⟨h.sp, h.depth⟩

/-- The machine at the first instruction of a function. -/
def take (m : Machine) (f : LoadedFunc) : Machine :=
  { m with sp := m.sp - f.frame, depth := m.depth + 1 }

/-- A frame that was just taken is given back. -/
theorem sameStack_leave_take (m : Machine) (f : LoadedFunc) : SameStack m ((m.take f).leave f) :=
  ⟨Int32.sub_add_cancel .., Nat.add_sub_cancel ..⟩

/-- Giving back frames and losing one commute. -/
theorem sp_unwind_of_sub {w : Word} (h : m'.sp = m.sp - w) (frames : List Frame) :
    (m'.unwind frames).sp = (m.unwind frames).sp - w := by
  induction frames generalizing m m' with
  | nil => exact h
  | cons f fs ih =>
    refine ih ?_
    calc m'.sp + f.func.frame = m.sp - w + f.func.frame := by rw [h]
      _ = m.sp + f.func.frame - w := by
        rw [Int32.sub_eq_add_neg, Int32.sub_eq_add_neg, Int32.add_assoc, Int32.add_comm (-w),
          Int32.add_assoc]

/-- Giving back frames counts each of them off the depth. -/
theorem depth_unwind_of_eq (h : m'.depth = m.depth) (frames : List Frame) :
    (m'.unwind frames).depth = (m.unwind frames).depth := by
  induction frames generalizing m m' with
  | nil => exact h
  | cons f fs ih => exact ih (congrArg (· - 1) h)

/-! ## Instructions -/

/-- The outcome of an instruction leaves the stack alone and is no overflow of it. -/
def Exec.Balanced (m : Machine) : Exec → Prop
  | .ok m' _ => SameStack m m'
  | .trap m' c => SameStack m m' ∧ c ≠ .stackOverflow
  | .fault m' => SameStack m m'

theorem sameStack_setReg (m : Machine) (i : Fin Reg.count) (x : Word) :
    SameStack m (m.setReg i x) := ⟨rfl, rfl⟩

/-- No instruction runs out of stack by itself; only entering a function does. -/
theorem ne_overflow_of_raises {x : Instr} {c : TrapCause} (h : x.Raises c) : c ≠ .stackOverflow := by
  cases h <;> simp

/-- No instruction touches the stack pointer; calls and returns are not its business. -/
theorem balanced_exec (im : Image) (f : LoadedFunc) (m : Machine) (x : Instr) :
    (exec im f m x).Balanced m := by
  have hdoes := does_exec im f m x
  generalize exec im f m x = e at hdoes
  cases hdoes with
  | wrote _ hi w => exact sameStack_setReg m _ w
  | failed i hc => exact ⟨sameStack_setReg m i 0, ne_overflow_of_raises hc⟩
  | refused hc => exact ⟨SameStack.refl m, ne_overflow_of_raises hc⟩
  | stored | passed | jumped | called | returned | faulted => exact ⟨rfl, rfl⟩

/-! ## The environment -/

/-- The errors of the environment: none is about the stack, steps, or the code of the program. -/
inductive Outside : TrapCause → Prop
  | input : Outside .inputExhausted
  | address (a : Word) : Outside (.badAddress a)
  | undefined (name : String) : Outside (.undefinedFunction name)
  | within (name : String) {c : TrapCause} (h : Outside c) : Outside (.within name c)

theorem Outside.ne_overflow {c : TrapCause} (h : Outside c) : c ≠ .stackOverflow := by
  cases h <;> simp

/-- Reading fails for want of input only. -/
theorem outside_of_read {c : TrapCause} (h : m.read = .error c) : Outside c := by
  unfold read at h
  split at h
  · cases h
    exact .input
  · cases h

/-- Loading fails at an address only. -/
theorem outside_of_load {a : Word} {c : TrapCause} (h : m.load a = .error c) : Outside c := by
  unfold load at h
  split at h
  · cases h
  · cases h
    exact .address a

/-- A call of the environment, finished or not, leaves the stack alone and has only errors of its
own. -/
structure Quiet (m : Machine) (r : Machine × Option TrapCause) : Prop where
  stack : SameStack m r.1
  error : ∀ c ∈ r.2, Outside c

theorem Quiet.done (h : SameStack m m') : Quiet m (m', none) := ⟨h, nofun⟩

/-- A call of the environment that fails with an error of its own. -/
theorem Quiet.stop (h : SameStack m m') {c : TrapCause} (hc : Outside c) : Quiet m (m', some c) :=
  ⟨h, fun _ heq => Option.some.inj heq ▸ hc⟩

/-- What comes before a call of the environment may be counted to it. -/
theorem Quiet.after {r : Machine × Option TrapCause} (hr : Quiet m' r) (h : SameStack m m') :
    Quiet m r := ⟨h.trans hr.stack, hr.error⟩

theorem sameStack_write (m : Machine) (s : String) : SameStack m (m.write s) := ⟨rfl, rfl⟩

/-- A result of the environment, and the registers that it spoils, leave the stack alone. -/
theorem sameStack_afterRuntime (m : Machine) (w : Word) : SameStack m (m.afterRuntime w) := by
  unfold afterRuntime
  exact ⟨rfl, rfl⟩

/-- Reading input leaves the stack alone. -/
theorem sameStack_read {w : Word} (h : m.read = .ok (w, m')) : SameStack m m' := by
  unfold read at h
  split at h
  · cases h
  · cases h
    exact ⟨rfl, rfl⟩

/-- Reading an array leaves the stack alone, also when the input ends or an address is
wrong. -/
theorem quiet_readArray (base : Word) (count : Int) (m : Machine) (i : Int) (xs : List Word) :
    Quiet m (readArray base count m i xs) := by
  -- On the input that is left; each turn takes one number of it.
  induction xs generalizing m i with
  | nil =>
    unfold readArray
    split
    · exact .stop (SameStack.refl m) .input
    · exact .done (SameStack.refl m)
  | cons x xs ih =>
    unfold readArray
    split
    · simp only
      split
      · next k _ =>
        exact (ih { m with input := xs, mem := m.mem.set k x } (i + 1)).after ⟨rfl, rfl⟩
      · exact ⟨⟨rfl, rfl⟩, fun c hc => Option.some.inj hc ▸ .address _⟩
    · exact .done (SameStack.refl m)

/-- Writing an array leaves the stack alone, also when an address is wrong. -/
theorem quiet_writeArray (base : Word) (m : Machine) (i : Int) (left : Nat) :
    Quiet m (writeArray base m i left) := by
  induction left generalizing m i with
  | zero => exact .done (SameStack.refl m)
  | succ left ih =>
    unfold writeArray
    split
    · exact (ih _ _).after (sameStack_write ..)
    · next c hc => exact .stop (sameStack_write ..) (outside_of_load hc)

/-- A result is put into its register without touching the stack. -/
theorem quiet_result (w : Word) (h : SameStack m m') : Quiet m (m'.afterRuntime w, none) :=
  .done (h.trans (sameStack_afterRuntime m' w))

/-- A call of the environment ends with a result or with an error that names it. -/
theorem quiet_end (name : String) (w : Word) (h : SameStack m m') (e : Option TrapCause) :
    (∀ c ∈ e, Outside c) → Quiet m (match e with
      | none => (m'.afterRuntime w, none)
      | some c => (m', some (.within name c))) := by
  intro he
  cases e with
  | none => exact quiet_result w h
  | some c => exact .stop h (.within name (he c rfl))

/-- Every function of the environment leaves the stack alone and fails with errors of its
own. -/
theorem quiet_runtime (m : Machine) (name : String) : Quiet m (m.runtime name) := by
  -- The functions are told apart by name, one after the other; the last case is a name that
  -- nobody has.
  unfold runtime
  simp only
  split
  · split
    · next h => exact quiet_result _ (sameStack_read h)
    · next h => exact .stop (SameStack.refl m) (.within name (outside_of_read h))
  split
  · split
    · next c h => exact .stop (SameStack.refl m) (outside_of_read h)
    · next n m₁ h =>
      have hread := quiet_readArray m.runtimeArgs.1 n.toInt m₁ 0 m₁.input
      exact quiet_end name n ((sameStack_read h).trans hread.stack) _ hread.error
  split
  · exact quiet_result _ (sameStack_write ..)
  split
  · exact quiet_result _ ⟨rfl, rfl⟩
  split
  · have hwrite := (quiet_writeArray m.runtimeArgs.2
      (m.write (Text.decimal m.runtimeArgs.1.toInt ++ ":")) 0 m.runtimeArgs.1.toInt.toNat).after
      (sameStack_write ..)
    exact quiet_end name 0 (hwrite.stack.trans (sameStack_write ..)) _ hwrite.error
  split
  · exact quiet_result _ (SameStack.refl m)
  · exact .stop (SameStack.refl m) (.undefined name)

/-! ## Steps -/

/-- What an error leaves of the stack: all frames are given back but for one that did not fit. -/
structure Refunds (im : Image) (m₀ m : Machine) (c : TrapCause) : Prop where
  depth : m.depth = m₀.depth
  sp : c ≠ .stackOverflow → m.sp = m₀.sp
  overflow : c = .stackOverflow → ∃ (name : String) (f : LoadedFunc), im.funcs[name]? = some f ∧ m.sp = m₀.sp - f.frame

theorem SameStack.refunds {c : TrapCause} (h : SameStack m₀ m) (hc : c ≠ .stackOverflow) :
    Refunds im m₀ m c := ⟨h.depth, fun _ => h.sp, fun h => absurd h hc⟩

/-- What comes before an error may be counted to it, if it leaves the stack as it was. -/
theorem SameStack.trans_refunds {c : TrapCause} (h₁ : SameStack m₀ m) (h₂ : Refunds im m m' c) :
    Refunds im m₀ m' c where
  depth := h₂.depth.trans h₁.depth
  sp hc := (h₂.sp hc).trans h₁.sp
  overflow hc := by
    obtain ⟨name, f, hf, hsp⟩ := h₂.overflow hc
    exact ⟨name, f, hf, hsp.trans (by rw [h₁.sp])⟩

/-- The frames around the place of an error are given back. -/
theorem Refunds.unwind {c : TrapCause} (h : Refunds im m m' c) (frames : List Frame) :
    Refunds im (m.unwind frames) (m'.unwind frames) c where
  depth := depth_unwind_of_eq h.depth frames
  sp hc := (SameStack.unwind ⟨h.sp hc, h.depth⟩ frames).sp
  overflow hc := by
    obtain ⟨name, f, hf, hsp⟩ := h.overflow hc
    exact ⟨name, f, hf, sp_unwind_of_sub hsp frames⟩

/-- What a call comes to, seen through the machine that giving back the new frame would leave. -/
def Entry.Balanced (im : Image) (m : Machine) : Entry → Prop
  | .returned m' => SameStack m m'
  | .entered m' f => SameStack m (m'.leave f)
  | .refused m' c => Refunds im m m' c

/-- Entering a function takes its frame, and nothing when it is one of the environment. -/
theorem balanced_enter (im : Image) (lim : Limits) (m : Machine) (name : String) :
    (m.enter im lim name).Balanced im m := by
  have hrun := quiet_runtime m name
  unfold enter
  split
  · split
    · next m' h =>
      rw [h] at hrun
      exact hrun.stack
    · next m' c h =>
      rw [h] at hrun
      exact hrun.stack.refunds (hrun.error c rfl).ne_overflow
  · next f hf =>
    split
    · exact (SameStack.refl m).refunds (by simp)
    · simp only
      split
      · -- the stack pointer has moved and the frame is not on the list of those to give back
        exact ⟨rfl, fun h => absurd rfl h, fun _ => ⟨name, f, hf, rfl⟩⟩
      · exact sameStack_leave_take m f

/-- How a run leaves the stack. -/
def Settled (im : Image) (m₀ m : Machine) : Outcome → Prop
  | .trap t => Refunds im m₀ m t.cause
  | .done | .fault => SameStack m₀ m

/-- What one step comes to, seen through the machine that giving back all frames would leave. -/
def Step.Balanced (im : Image) (m₀ : Machine) : Step → Prop
  | .continue m top rest => SameStack m₀ (m.unwind (top :: rest))
  | .stop m o => Settled im m₀ m o

/-- What comes before a run may be counted to it, if it leaves the stack as it was. -/
theorem Settled.after {o : Outcome} (h : Settled im m m' o) (h₀ : SameStack m₀ m) :
    Settled im m₀ m' o := by
  cases o with
  | done => exact h₀.trans h
  | trap t => exact h₀.trans_refunds h
  | fault => exact h₀.trans h

/-- The same for a single step. -/
theorem Step.Balanced.after {st : Step} (h : st.Balanced im m) (h₀ : SameStack m₀ m) :
    st.Balanced im m₀ := by
  cases st with
  | «continue» m' top rest => exact h₀.trans h
  | stop m' o => exact Settled.after h h₀

/-- An error is reported after the frames around it are given back. -/
theorem balanced_trapped {frames around : List Frame} {c : TrapCause}
    (h : Refunds im m₀ (m.unwind frames) c) : (trapped m frames around c).Balanced im m₀ := h

/-- One instruction, with what it does to the frames: a call adds one to them and a return
takes one off. -/
theorem balanced_stepInstr (im : Image) (lim : Limits) (m : Machine) (top : Frame)
    (rest : List Frame) (x : Instr) :
    (stepInstr im lim m top rest x).Balanced im (m.unwind (top :: rest)) := by
  have hexec := balanced_exec im top.func m x
  unfold stepInstr
  split
  · next m₁ h =>
    rw [h] at hexec
    exact hexec.unwind (top :: rest)
  · next m₁ c h =>
    rw [h] at hexec
    exact balanced_trapped ((hexec.1.refunds hexec.2).unwind (top :: rest))
  · next m₁ h =>
    rw [h] at hexec
    exact hexec.resetZero.unwind (top :: rest)
  · next m₁ pc h =>
    rw [h] at hexec
    exact hexec.resetZero.unwind (top :: rest)
  · next m₁ g h =>
    rw [h] at hexec
    replace hexec : SameStack m m₁ := hexec
    have henter := balanced_enter im lim m₁ g
    split
    · next m₂ c h₂ =>
      rw [h₂] at henter
      exact balanced_trapped ((hexec.trans_refunds henter).unwind (top :: rest))
    · next m₂ h₂ =>
      rw [h₂] at henter
      replace henter : SameStack m₁ m₂ := henter
      exact (hexec.trans henter).resetZero.unwind (top :: rest)
    · next m₂ f h₂ =>
      rw [h₂] at henter
      -- giving back the new frame comes first
      exact (hexec.trans henter).unwind (top :: rest)
  · next m₁ h =>
    rw [h] at hexec
    replace hexec : SameStack m m₁ := hexec
    simp only
    split
    · exact hexec.resetZero.leave top.func
    · next caller rest' =>
      exact (hexec.resetZero.leave top.func).resetZero.unwind (caller :: rest')

/-- One step keeps what giving back all frames would leave, and ends by giving them back. -/
theorem balanced_step (im : Image) (lim : Limits) (m : Machine) (top : Frame) (rest : List Frame) :
    (step im lim m top rest).Balanced im (m.unwind (top :: rest)) := by
  unfold step
  split
  · exact balanced_trapped ((SameStack.refl _).refunds (by simp))
  · next x hx =>
    have htick : SameStack m { m with steps := m.steps + 1 } := ⟨rfl, rfl⟩
    simp only
    split
    · exact balanced_trapped ((htick.unwind (top :: rest)).refunds (by simp))
    · exact (balanced_stepInstr im lim { m with steps := m.steps + 1 } top rest x).after
        (htick.unwind (top :: rest))

/-! ## Runs -/

/-- A run gives back the frames that it took and those that it was started with. -/
theorem settled_runSteps (im : Image) (lim : Limits) (fuel : Nat) (m : Machine) (top : Frame)
    (rest : List Frame) : Settled im (m.unwind (top :: rest)) (runSteps im lim fuel m top rest).1
      (runSteps im lim fuel m top rest).2 := by
  -- what giving back all frames would leave is the invariant of the run
  induction fuel generalizing m top rest with
  | zero => exact (SameStack.refl _).refunds (by simp)
  | succ fuel ih =>
    have hstep := balanced_step im lim m top rest
    unfold runSteps
    split
    · next m₁ top₁ rest₁ h =>
      rw [h] at hstep
      exact (ih m₁ top₁ rest₁).after hstep
    · next m₁ o h =>
      rw [h] at hstep
      exact hstep

/-- A run of a function gives back its frame, however it ends. -/
theorem settled_run (im : Image) (lim : Limits) (m : Machine) (name : String) :
    Settled im m (m.run im lim name).1 (m.run im lim name).2 := by
  have henter := balanced_enter im lim m name
  unfold run
  split
  · next m₁ h =>
    rw [h] at henter
    exact henter
  · next m₁ c h =>
    rw [h] at henter
    exact henter
  -- Only a function of the program is run; the rest is done by entering.
  · next m₁ f h =>
    rw [h] at henter
    exact (settled_runSteps im lim _ m₁ ⟨f, 0⟩ []).after henter

/-- Arguments are passed in registers, so passing them leaves the stack alone. -/
theorem sameStack_passArgs (m : Machine) (args : List Word) : SameStack m (m.passArgs args).1 := by
  unfold passArgs
  simp only
  induction args.zip Reg.args generalizing m with
  | nil => exact SameStack.refl m
  | cons a as ih =>
    rw [List.foldl_cons]
    refine SameStack.trans ?_ (ih _)
    split
    · exact sameStack_setReg ..
    · exact SameStack.refl m

/-- The frame of a function of a program is the size of its code's frame. -/
theorem frame_ofCode {c : Code} {name : String} {f : LoadedFunc}
    (h : (Image.ofCode c).funcs[name]? = some f) :
    ∃ g ∈ c.funcs, f.frame = word (frameBytes g.stack) := by
  rw [getElem?_funcs_ofCode] at h
  obtain ⟨g, hg, rfl⟩ := Option.map_eq_some_iff.1 h
  exact ⟨g, List.mem_reverse.1 (List.mem_of_find?_eq_some hg), rfl⟩

/-- A frame whose size fits a word is not empty. -/
theorem frame_ne_zero {stack : Int} (h0 : 0 ≤ stack) (hfit : (stack / 4 + 1) * 16 < 2 ^ 31) :
    word (frameBytes stack) ≠ 0 := by
  have hbytes : frameBytes stack = (stack / 4 + 1) * 16 := by
    rw [frameBytes, Int.tdiv_eq_ediv_of_nonneg h0]
    exact wrap64_of_range (by omega) (by omega)
  intro hzero
  have hint := congrArg Int32.toInt hzero
  rw [word, Int32.toInt_ofInt_of_le (by omega) (by omega), hbytes, Int32.toInt_zero] at hint
  omega

/-- How a call from outside leaves the stack. -/
def CallResult.Settled (im : Image) (m₀ m : Machine) : CallResult → Prop
  | .failed c _ => Refunds im m₀ m c
  | .returned _ | .fault => SameStack m₀ m

/-- A call from outside leaves the stack as it was, or as an error leaves it. -/
theorem settled_call (im : Image) (lim : Limits) (m : Machine) (name : String) (args : List Word) :
    (m.call im lim name args).2.Settled im m (m.call im lim name args).1 := by
  have hpass := sameStack_passArgs m args
  unfold call
  split
  · next m₁ h =>
    rw [h] at hpass
    exact hpass
  · next m₁ h =>
    rw [h] at hpass
    -- Passing arguments leaves the stack alone, so the run is charged to the call.
    have hrun := (settled_run im lim m₁ name).after hpass
    split
    · next m₂ h₂ =>
      rw [h₂] at hrun
      exact hrun
    · next m₂ t h₂ =>
      rw [h₂] at hrun
      exact hrun
    · next m₂ h₂ =>
      rw [h₂] at hrun
      exact hrun

/-- Why a call failed. -/
def CallResult.cause? : CallResult → Option TrapCause
  | .failed c _ => some c
  | .returned _ | .fault => none

/-- **A call gives back the stack unless the stack overflows**: whatever the program, the machine, the
bounds and the arguments, and however the call ends, the depth is as before, and the stack pointer is
as before if and only if the call did not fail for want of stack.  If it did, exactly the frame of
one function of the program stays taken. -/
theorem call_restores_stack {c : Code}
    (hframes : ∀ f ∈ c.funcs, 0 ≤ f.stack ∧ (f.stack / 4 + 1) * 16 < 2 ^ 31) (lim : Limits)
    (m : Machine) (name : String) (args : List Word) :
    (m.call (Image.ofCode c) lim name args).1.depth = m.depth ∧
      ((m.call (Image.ofCode c) lim name args).1.sp = m.sp ↔
        (m.call (Image.ofCode c) lim name args).2.cause? ≠ some .stackOverflow) ∧
      ((m.call (Image.ofCode c) lim name args).2.cause? = some .stackOverflow →
        ∃ f ∈ c.funcs, (m.call (Image.ofCode c) lim name args).1.sp =
          m.sp - word (frameBytes f.stack)) := by
  have hsettled := settled_call (Image.ofCode c) lim m name args
  generalize m.call (Image.ofCode c) lim name args = out at hsettled ⊢
  obtain ⟨m', result⟩ := out
  cases result with
  | returned x => exact ⟨hsettled.depth, ⟨fun _ => nofun, fun _ => hsettled.sp⟩, nofun⟩
  | fault => exact ⟨hsettled.depth, ⟨fun _ => nofun, fun _ => hsettled.sp⟩, nofun⟩
  | failed cause msg =>
    replace hsettled : Refunds (Image.ofCode c) m m' cause := hsettled
    -- Only running out of stack leaves a frame behind; every other error is after the check.
    by_cases hcause : cause = .stackOverflow
    · subst hcause
      obtain ⟨name, f, hf, hsp⟩ := hsettled.overflow rfl
      obtain ⟨g, hg, hframe⟩ := frame_ofCode hf
      rw [hframe] at hsp
      have hne : m'.sp ≠ m.sp := by
        intro hsame
        -- the frame that stays taken is not empty
        apply frame_ne_zero (hframes g hg).1 (hframes g hg).2
        have h : m.sp - word (frameBytes g.stack) = m.sp := hsp.symm.trans hsame
        grind
      exact ⟨hsettled.depth, ⟨fun h => absurd h hne, fun h => absurd rfl h⟩, fun _ => ⟨g, hg, hsp⟩⟩
    · have hother : (CallResult.failed cause msg).cause? ≠ some .stackOverflow :=
        fun h => hcause (Option.some.inj h)
      exact ⟨hsettled.depth, ⟨fun _ => hother, fun _ => hsettled.sp hcause⟩, fun h => absurd h hother⟩

/-! ## A frame that does not fit -/

/-- A function whose frame is larger than the stack, and one that needs almost none. -/
def deepCode : Code where
  funcs := [{ name := "deep", params := 0, stack := 262144, body := [.ret] },
    { name := "main", params := 0, stack := 0, body := [.imm (Reg.a 0) 7, .ret] }]

/-- The machine of the program before any call. -/
def deepMachine : Machine where
  regs := Vector.replicate Reg.count 0
  mem := { size := 262145 }
  sp := 1048580

example : (ofCode? deepCode []).map (fun m => (m.sp, m.depth, m.mem.size)) =
    some (deepMachine.sp, deepMachine.depth, deepMachine.mem.size) := by decide

/-- The refused frame of `deep` is the one that stays taken. -/
theorem call_restores_stack_deep :
    (deepMachine.call (Image.ofCode deepCode) {} "deep" []).1.depth = 0 ∧
      (deepMachine.call (Image.ofCode deepCode) {} "main" []).1.sp = deepMachine.sp ∧
      ∃ f ∈ deepCode.funcs, (deepMachine.call (Image.ofCode deepCode) {} "deep" []).1.sp =
        deepMachine.sp - word (frameBytes f.stack) := by
  have hframes : ∀ f ∈ deepCode.funcs, 0 ≤ f.stack ∧ (f.stack / 4 + 1) * 16 < 2 ^ 31 := by
    decide
  have hdeep := call_restores_stack hframes {} deepMachine "deep" []
  have hmain := call_restores_stack hframes {} deepMachine "main" []
  exact ⟨hdeep.1, hmain.2.1.2 (by decide), hdeep.2.2 (by decide)⟩

/-- A call that overflows the stack takes it from the calls after it: `main` runs on a fresh machine
and has no stack left on the one that was asked for `deep` before. -/
theorem call_takes_stack_deep :
    (∀ f ∈ deepCode.funcs, 0 ≤ f.stack ∧ (f.stack / 4 + 1) * 16 < 2 ^ 31) ∧
      (deepMachine.call (Image.ofCode deepCode) {} "deep" []).1.sp ≠ deepMachine.sp ∧
      (deepMachine.call (Image.ofCode deepCode) {} "main" []).2.cause? = none ∧
      ((deepMachine.call (Image.ofCode deepCode) {} "deep" []).1.call (Image.ofCode deepCode) {}
        "main" []).2.cause? = some .stackOverflow := by
  decide

end Tac.Machine
