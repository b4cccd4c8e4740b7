import Mathlib
import Tac.Proofs.Machine

/-!
# Walks through one function

Hand-written code calls nothing, so a run of it stays in one function from its first instruction to
its return.  A walk follows such a run place by place; it counts the steps and lets every instruction
be checked in the state that it finds.

* **`Walk`** — some steps inside a function, each of which passes a check.
* **`Walk.run`** — walks are runs, whatever the frames around them, if the bound on steps allows.
* **`call_of_walk`** — a call from outside that walks from the first instruction to a return ends
  there.
* **`Walk.visited`** — the states that such a run visits are those of the walk, so what was checked
  holds of all of them.
-/

namespace Tac.Machine

variable {P : Machine → Instr → Prop} {im : Image} {f : LoadedFunc} {m m₁ m' : Machine}
  {pc pc₁ pc' n k : Nat}

/-! ## Steps inside a function -/

/-- The machine gets from place `pc` of the function to place `pc'` in `n` steps that neither call nor
return, and `P` holds of each instruction in the state that it finds. -/
inductive Walk (P : Machine → Instr → Prop) (im : Image) (f : LoadedFunc) :
    Nat → Machine → Nat → Machine → Nat → Prop where
  | refl (m : Machine) (pc : Nat) : Walk P im f 0 m pc m pc
  | next {n : Nat} {m m₁ m' : Machine} {pc pc' : Nat} {x : Instr} (hx : f.body[pc]? = some x)
      (hP : P m x) (hexec : exec im f m.tick x = .ok m₁ .next)
      (h : Walk P im f n m₁.resetZero (pc + 1) m' pc') : Walk P im f (n + 1) m pc m' pc'
  | goto {n : Nat} {m m₁ m' : Machine} {pc pc₁ pc' : Nat} {x : Instr} (hx : f.body[pc]? = some x)
      (hP : P m x) (hexec : exec im f m.tick x = .ok m₁ (.goto pc₁))
      (h : Walk P im f n m₁.resetZero (pc₁ + 1) m' pc') : Walk P im f (n + 1) m pc m' pc'

/-- Walks behind walks. -/
theorem Walk.trans (h₁ : Walk P im f n m pc m₁ pc₁) (h₂ : Walk P im f k m₁ pc₁ m' pc') :
    Walk P im f (n + k) m pc m' pc' := by
  induction h₁ with
  | refl => rwa [Nat.zero_add]
  | @next n _ _ _ _ _ _ hx hP hexec _ ih =>
    rw [Nat.add_right_comm]
    exact .next hx hP hexec (ih h₂)
  | @goto n _ _ _ _ _ _ _ hx hP hexec _ ih =>
    rw [Nat.add_right_comm]
    exact .goto hx hP hexec (ih h₂)

/-- The machine counts the steps of a walk. -/
theorem Walk.steps_eq (h : Walk P im f n m pc m' pc') : m'.steps = m.steps + n := by
  induction h with
  | refl => rfl
  | @next n m m₁ _ _ _ _ _ _ hexec _ ih | @goto n m m₁ _ _ _ _ _ _ _ hexec _ ih =>
    have hstep : m₁.resetZero.steps = m.steps + 1 := steps_exec hexec
    omega

/-- A walk is a run, as far as the bound on steps allows. -/
theorem Walk.run (h : Walk P im f n m pc m' pc') {lim : Limits} (hlim : Allows lim m'.steps)
    (rest : List Frame) (fuel : Nat) :
    runSteps im lim (fuel + n) m ⟨f, pc⟩ rest = runSteps im lim fuel m' ⟨f, pc'⟩ rest := by
  induction h with
  | refl => rfl
  | @next n m m₁ m' _ _ _ hx _ hexec h ih | @goto n m m₁ m' _ _ _ _ hx _ hexec h ih =>
    have hstep : m₁.resetZero.steps = m.steps + 1 := steps_exec hexec
    have hsteps := h.steps_eq
    -- the step takes one unit of fuel, the rest of the walk the others
    rw [← ih hlim, ← Nat.add_assoc, runSteps, step_of_allows hx (hlim.mono (by omega))]
    simp only [stepInstr, hexec]

/-- Straight lines are walked to their end.  Only the check of the first instruction may depend on the
state. -/
theorem walk_line : ∀ {code : List Instr} {m m' : Machine} {pc : Nat}, CodeAt f pc code →
    line? im f m code = some m' → (∀ x ∈ code.head?, P m x) → (∀ x ∈ code.tail, ∀ m, P m x) →
    Walk P im f code.length m pc m' (pc + code.length) := by
  intro code
  -- On the instructions; each is one step to the next.
  induction code with
  | nil =>
    intro m m' pc _ h _ _
    cases h
    exact .refl _ _
  | cons x xs ih =>
    intro m m' pc hat h hhead htail
    rw [line?] at h
    split at h
    · next m₁ hexec =>
      have hrest := ih hat.tail h (fun y hy => htail y (List.mem_of_mem_head? hy) _)
        (fun y hy => htail y (List.mem_of_mem_tail hy))
      rw [Nat.add_right_comm, Nat.add_assoc] at hrest
      exact .next hat.head (hhead x rfl) hexec hrest
    · cases h

/-- A label is passed in one step. -/
theorem walk_label {l : Int} (hx : f.body[pc]? = some (.label l)) (hP : P m (.label l)) :
    Walk P im f 1 m pc m.tick.resetZero (pc + 1) :=
  .next hx hP rfl (.refl _ _)

/-- A jump goes behind its label. -/
theorem walk_jump {l : Int} (hx : f.body[pc]? = some (.jump l)) (hP : P m (.jump l))
    (hl : f.labels[l]? = some pc₁) : Walk P im f 1 m pc m.tick.resetZero (pc₁ + 1) :=
  .goto hx hP (by simp only [exec, jump, hl]) (.refl _ _)

section Branch

variable {x y : Reg} {rel : Rel} {l : Int} (hbody : f.body[pc]? = some (.branch x y rel l))
  (hP : P m (.branch x y rel l)) (hx : x.Valid) (hy : y.Valid)

include hbody hP hx hy

/-- A branch that is taken goes behind its label. -/
theorem walk_taken (hrel : rel.holds (m.val x) (m.val y) = true) (hl : f.labels[l]? = some pc₁) :
    Walk P im f 1 m pc m.tick.resetZero (pc₁ + 1) := by
  obtain ⟨i, hi, _⟩ := Reg.index?_of_valid hx
  obtain ⟨j, hj, _⟩ := Reg.index?_of_valid hy
  rw [val_of_index hi, val_of_index hj] at hrel
  refine .goto hbody hP ?_ (.refl _ _)
  simp only [exec, hi, hj, jump, hl]
  exact if_pos hrel

/-- A branch that is not taken goes on. -/
theorem walk_untaken (hrel : rel.holds (m.val x) (m.val y) = false) :
    Walk P im f 1 m pc m.tick.resetZero (pc + 1) := by
  obtain ⟨i, hi, _⟩ := Reg.index?_of_valid hx
  obtain ⟨j, hj, _⟩ := Reg.index?_of_valid hy
  rw [val_of_index hi, val_of_index hj] at hrel
  refine .next hbody hP ?_ (.refl _ _)
  simp only [exec, hi, hj]
  exact if_neg (Bool.not_eq_true _ ▸ hrel)

end Branch

/-! ## Effects along a walk -/

variable (im) in
/-- An instruction that writes one register.  It resets `x0`, whatever was in it. -/
theorem walk_write {x : Instr} {r : Reg} {i : Fin Reg.count} {w : Word} (hx : f.body[pc]? = some x)
    (hP : P m x) (hi : r.index? = some i) (hr : r.Valid) (hne : r ≠ Reg.x0)
    (h : exec im f m.tick x = .ok (m.tick.setReg i w) .next) :
    ∃ m', Walk P im f 1 m pc m' (pc + 1) ∧ m'.val Reg.x0 = 0 ∧ m'.val r = w ∧ m'.mem = m.mem ∧
      Keeps (fun q => q = r ∨ q = Reg.x0) m m' := by
  have hx0 : Reg.x0.Valid := by decide
  refine ⟨_, .next hx hP h (.refl _ _), ?_, ?_, rfl, ⟨fun q hq hn => ?_, rfl, rfl, rfl, rfl, rfl⟩⟩
  · rw [val_resetZero _ hx0, if_pos rfl]
  · rw [val_resetZero _ hr, if_neg hne, val_setReg hi hr, if_pos rfl]
  · rw [not_or] at hn
    rw [val_resetZero _ hq, if_neg hn.2, val_setReg hi hq, if_neg hn.1]
    rfl

variable (im) in
/-- Code that writes one register. -/
theorem walk_writes {code : List Instr} {r : Reg} {w : Word} (hat : CodeAt f pc code)
    (h : Writes im f m code r w) (hhead : ∀ x ∈ code.head?, P m x)
    (htail : ∀ x ∈ code.tail, ∀ m, P m x) :
    ∃ m', Walk P im f code.length m pc m' (pc + code.length) ∧ m'.val r = w ∧ m'.mem = m.mem ∧
      Keeps (· = r) m m' := by
  obtain ⟨m', hline, heffect⟩ := h
  exact ⟨m', walk_line hat hline hhead htail, heffect⟩

variable (im) in
/-- Code that writes one word of memory. -/
theorem walk_stores {code : List Instr} {i : Nat} {w : Word} (hat : CodeAt f pc code)
    (h : Stores im f m code i w) (hhead : ∀ x ∈ code.head?, P m x)
    (htail : ∀ x ∈ code.tail, ∀ m, P m x) :
    ∃ m', Walk P im f code.length m pc m' (pc + code.length) ∧ m'.mem = m.mem.set i w ∧
      Keeps (fun _ => False) m m' := by
  obtain ⟨m', hline, heffect⟩ := h
  exact ⟨m', walk_line hat hline hhead htail, heffect⟩

/-- Code that continues the body of a function from a place on. -/
theorem codeAt_of_body {body code : List Instr} (h : f.body = body.toArray)
    (hcode : code <+: body.drop pc) : CodeAt f pc code := by
  intro k hk
  obtain ⟨after, hafter⟩ := hcode
  rw [h, List.getElem?_toArray, ← List.getElem?_drop, ← hafter, List.getElem?_append_left hk]

/-! ## Calls from outside -/

/-- The machine in a function that was just entered. -/
def entered (m : Machine) (f : LoadedFunc) : Machine :=
  { m with sp := m.sp - f.frame, depth := m.depth + 1 }

/-- The function has that name, and there is room for a call of it. -/
structure Admits (im : Image) (lim : Limits) (m : Machine) (name : String) (f : LoadedFunc) : Prop where
  loaded : im.funcs[name]? = some f
  shallow : (m.depth : Int) < lim.depth
  room : im.stackBase ≤ m.sp - f.frame

/-- A function that is admitted is entered. -/
theorem Admits.enter {lim : Limits} {name : String} (h : Admits im lim m name f) :
    m.enter im lim name = .entered (m.entered f) f := by
  have hroom : ¬ m.sp - f.frame < im.stackBase := Int32.not_lt.2 h.room
  have hdepth : ¬ lim.depth ≤ m.depth := not_le.2 h.shallow
  simp only [Machine.enter, h.loaded, if_neg hdepth, if_neg hroom]
  rfl

/-- The machine after one argument went into its register. -/
def pass (m : Machine) (p : Word × Reg) : Machine :=
  p.2.index?.elim m fun i => m.setReg i p.1

/-- Passing arguments writes the registers one after the other. -/
theorem passArgs_eq (m : Machine) (args : List Word) :
    (m.passArgs args).1 = (args.zip Reg.args).foldl pass m := by
  refine congrArg (fun g => (args.zip Reg.args).foldl g m) (funext₂ fun m p => ?_)
  unfold pass
  cases hi : p.2.index? <;> simp only [hi, Option.elim]

theorem pass_eq (m : Machine) (p : Word × Reg) : m.pass p = { m with regs := (m.pass p).regs } := by
  unfold pass
  cases p.2.index? <;> rfl

/-- What the registers hold after one argument was passed. -/
theorem val_pass {p : Word × Reg} {q : Reg} (hp : p.2.Valid) (hq : q.Valid) :
    (m.pass p).val q = if q = p.2 then p.1 else m.val q := by
  obtain ⟨i, hi, _⟩ := Reg.index?_of_valid hp
  rw [pass, hi]
  exact val_setReg hi hq p.1

/-- Passing an argument leaves the other registers as they were. -/
theorem val_pass_of_ne {p : Word × Reg} {q : Reg} (hq : q.Valid) (hne : q ≠ p.2) :
    (m.pass p).val q = m.val q := by
  cases hi : p.2.index? with
  | none => rw [pass, hi]; rfl
  | some i =>
    rw [pass, hi]
    exact (val_setReg hi hq p.1).trans (if_neg hne)

/-- Passing arguments writes registers only. -/
theorem keeps_passArgs (m : Machine) (args : List Word) :
    (m.passArgs args).1 = { m with regs := (m.passArgs args).1.regs } := by
  rw [passArgs_eq]
  generalize args.zip Reg.args = ps
  induction ps generalizing m with
  | nil => rfl
  | cons p ps ih =>
    have hpass := pass_eq m p
    rw [List.foldl_cons, ih, hpass]

/-- Arguments are in the argument registers. -/
theorem val_passArgs (m : Machine) {args : List Word} (hargs : args.length ≤ Reg.argCount) {i : Nat}
    (hi : i < args.length) : (m.passArgs args).1.val (Reg.a i) = args[i] := by
  -- the induction is on the arguments, of which `k` were passed
  have hpass : ∀ (args : List Word) (k : Nat) (m : Machine), k + args.length ≤ Reg.argCount →
      (∀ i (hi : i < args.length), ((args.zip ((List.range' k (Reg.argCount - k)).map Reg.a)).foldl pass m).val
        (Reg.a (k + i)) = args[i]) ∧
      ∀ j < k, ((args.zip ((List.range' k (Reg.argCount - k)).map Reg.a)).foldl pass m).val (Reg.a j) =
        m.val (Reg.a j) := by
    intro args
    -- On the arguments; later ones go to other registers.
    induction args with
    | nil => exact fun k m hk => ⟨fun i hi => absurd hi (Nat.not_lt_zero i), fun _ _ => rfl⟩
    | cons x args ih =>
      intro k m hk
      rw [List.length_cons] at hk
      have hval : ∀ j ≤ k, (m.pass (x, Reg.a k)).val (Reg.a j) =
          if Reg.a j = Reg.a k then x else m.val (Reg.a j) := fun j hj =>
        val_pass (Reg.valid_a (by omega)) (Reg.valid_a (by omega))
      obtain ⟨hnew, hold⟩ := ih (k + 1) (m.pass (x, Reg.a k)) (by omega)
      rw [show Reg.argCount - k = (Reg.argCount - (k + 1)) + 1 by omega, List.range'_succ, List.map_cons,
        List.zip_cons_cons, List.foldl_cons]
      refine ⟨fun i hi => ?_, fun j hj => ?_⟩
      · cases i with
        | zero => exact (hold k (by omega)).trans ((hval k le_rfl).trans (if_pos rfl))
        | succ i =>
          rw [List.length_cons] at hi
          rw [show k + (i + 1) = k + 1 + i by omega]
          exact hnew i (by omega)
      · have hne : Reg.a j ≠ Reg.a k := fun h => by
          have := Reg.a_injective h
          omega
        exact (hold j (by omega)).trans ((hval j (by omega)).trans (if_neg hne))
  have hfirst := (hpass args 0 m (by rwa [Nat.zero_add])).1 i hi
  rw [Nat.zero_add] at hfirst
  rw [passArgs_eq]
  exact hfirst

/-- Registers that pass no argument are kept. -/
theorem val_passArgs_of_notMem (m : Machine) {args : List Word} {q : Reg} (hq : q.Valid)
    (hn : q ∉ Reg.args.take args.length) : (m.passArgs args).1.val q = m.val q := by
  -- Passing goes through the arguments one by one, so it is an induction on them.
  have hpass : ∀ (ps : List (Word × Reg)) (m : Machine), (∀ p ∈ ps, q ≠ p.2) →
      (ps.foldl pass m).val q = m.val q := by
    intro ps
    induction ps with
    | nil => exact fun m _ => rfl
    | cons p ps ih =>
      intro m hne
      rw [List.foldl_cons, ih _ fun p hp => hne p (List.mem_cons_of_mem _ hp)]
      exact val_pass_of_ne hq (hne p List.mem_cons_self)
  rw [passArgs_eq]
  refine hpass _ m fun p hp heq => hn ?_
  obtain ⟨i, hi, rfl⟩ := List.mem_iff_getElem.1 hp
  rw [List.length_zip] at hi
  rw [heq, List.getElem_zip, List.mem_take_iff_getElem]
  exact ⟨i, by omega, rfl⟩

/-- Whether a call is admitted does not depend on the arguments. -/
theorem Admits.passArgs {lim : Limits} {name : String} (h : Admits im lim m name f)
    (args : List Word) : Admits im lim (m.passArgs args).1 name f := by
  rw [keeps_passArgs m args]
  exact ⟨h.loaded, h.shallow, h.room⟩

/-- The steps that a run is given suffice for a walk that the bound allows. -/
theorem le_fuel {lim : Limits} (hlim : Allows lim (m.steps + n)) (hn : n ≤ 1152921504606846976) :
    n ≤ fuel lim m := by
  unfold fuel
  split
  · simpa using hn
  · rcases hlim with h | h <;> omega

/-- A call from outside ends where its walk comes to a return. -/
theorem call_of_walk {lim : Limits} {name : String} {args : List Word}
    (hargs : args.length ≤ Reg.argCount) (h : Admits im lim m name f)
    (hwalk : Walk P im f n ((m.passArgs args).1.entered f) 0 m' pc) (hret : f.body[pc]? = some .ret)
    (hlim : Allows lim (m.steps + (n + 1))) (hn : n + 1 ≤ 1152921504606846976) :
    m.call im lim name args = (m'.tick.resetZero.leave f, .returned (m'.val (Reg.a 0))) := by
  have hpass : m.passArgs args = ((m.passArgs args).1, true) := Prod.ext rfl (decide_eq_true hargs)
  have hsame : (m.passArgs args).1.steps = m.steps := by rw [keeps_passArgs m args]
  have hsteps : m'.steps = m.steps + n := hwalk.steps_eq.trans (congrArg (· + n) hsame)
  have henter := (h.passArgs args).enter
  -- of the passing of arguments no more than this is used
  revert hpass hwalk henter hsame
  generalize (m.passArgs args).1 = m₁
  intro hwalk hpass hsame henter
  have hallows : Allows lim ((m₁.entered f).steps + (n + 1)) := hlim.mono (by
    rw [show (m₁.entered f).steps = m₁.steps from rfl, hsame])
  obtain ⟨fuel, hfuel⟩ := Nat.exists_eq_add_of_le' (le_fuel hallows hn)
  have hrun : runSteps im lim (fuel + (n + 1)) (m₁.entered f) ⟨f, 0⟩ [] =
      (m'.tick.resetZero.leave f, .done) := by
    rw [show fuel + (n + 1) = fuel + 1 + n by omega,
      hwalk.run (hlim.mono (by omega)) [] (fuel + 1), runSteps,
      step_of_allows hret (hlim.mono (by omega))]
    rfl
  have hresult : (m'.tick.resetZero.leave f).reg resultReg = m'.val (Reg.a 0) := by
    rw [val_of_index (show (Reg.a 0).index? = some resultReg from rfl)]
    exact (reg_setReg m'.tick _ _ 0).trans (if_neg (by decide))
  simp only [call, hpass, Machine.run, henter, hfuel, hrun, hresult]

/-- What such a call keeps: the frame is given back, and arguments are in registers. -/
theorem keeps_call {touched : Reg → Prop} {args : List Word}
    (hk : Keeps touched ((m.passArgs args).1.entered f) m') :
    Keeps (fun q => touched q ∨ q ∈ Reg.args.take args.length ∨ q = Reg.x0) m
      (m'.tick.resetZero.leave f) := by
  have hpass := keeps_passArgs m args
  -- Besides the registers a call keeps the stack, the depth and what was read and shown.
  refine ⟨fun q hq hn => ?_, ?_, ?_, ?_, ?_, ?_⟩
  · simp only [not_or] at hn
    have hleave : (m'.tick.resetZero.leave f).val q = m'.tick.resetZero.val q := rfl
    rw [hleave, val_resetZero _ hq, if_neg hn.2.2, val_tick, hk.val q hq hn.1]
    exact val_passArgs_of_notMem m hq hn.2.1
  · show m'.sp + f.frame = m.sp
    rw [hk.sp, hpass]
    exact Int32.sub_add_cancel _ _
  · exact hk.size.trans (by rw [hpass]; rfl)
  · show m'.depth - 1 = m.depth
    rw [hk.depth, hpass]
    rfl
  · exact hk.input.trans (by rw [hpass]; rfl)
  · exact hk.output.trans (by rw [hpass]; rfl)

/-- The machine before the first call of a program without globals. -/
def fresh : Machine :=
  { regs := Vector.replicate Reg.count 0, mem := { size := 262145 }, sp := 1048580 }

/-- The only function of a program can be called if it needs no frame. -/
theorem admits_fresh {g : CodeFunc} (h : g.stack = 0) :
    Admits (Image.ofCode { funcs := [g] }) {} fresh g.name (Image.loadFunc g) where
  loaded := Std.TreeMap.getElem?_insert_self
  shallow := by decide
  room := by
    have hroom : word (4 * 1) ≤ fresh.sp - word (frameBytes 0) := by decide
    rw [← h] at hroom
    exact hroom

/-! ## Visited states -/

/-- A run that starts at the frame `top` around the frames `rest` comes to a state. -/
inductive Visits (im : Image) (lim : Limits) (m : Machine) (top : Frame) (rest : List Frame) :
    Machine → Frame → List Frame → Prop where
  | start : Visits im lim m top rest m top rest
  | step {m₁ m₂ : Machine} {top₁ top₂ : Frame} {rest₁ rest₂ : List Frame}
      (h : Visits im lim m top rest m₁ top₁ rest₁)
      (hstep : Machine.step im lim m₁ top₁ rest₁ = .continue m₂ top₂ rest₂) :
      Visits im lim m top rest m₂ top₂ rest₂

/-- From every state on the way, a run from outside walks on to the return. -/
theorem Walk.rest {lim : Limits} {top : Frame} {rest : List Frame} (h : Walk P im f n m pc m' pc')
    (hret : f.body[pc']? = some .ret) (hv : Visits im lim m ⟨f, pc⟩ [] m₁ top rest) :
    rest = [] ∧ top.func = f ∧ ∃ k, Walk P im f k m₁ top.pc m' pc' := by
  -- On the walk to the state that was visited.
  induction hv with
  | start => exact ⟨rfl, rfl, n, h⟩
  | @step m₁ m₂ top₁ top₂ rest₁ rest₂ _ hstep ih =>
    obtain ⟨rfl, rfl, k, hk⟩ := ih
    obtain ⟨g, at₁⟩ := top₁
    -- the step is the one that the walk takes
    unfold Machine.step at hstep
    cases hk with
    | refl =>
      simp only [hret] at hstep
      split at hstep
      · cases hstep
      · simp [stepInstr, exec] at hstep
    | next hx _ hexec hk | goto hx _ hexec hk =>
      simp only [hx] at hstep
      split at hstep
      · cases hstep
      · have hexec' : exec im g { m₁ with steps := m₁.steps + 1 } _ = _ := hexec
        simp only [stepInstr, hexec', Step.continue.injEq] at hstep
        obtain ⟨rfl, rfl, rfl⟩ := hstep
        exact ⟨rfl, rfl, _, hk⟩

/-- What a walk checks holds of every state that a run from outside visits. -/
theorem Walk.visited {lim : Limits} {top : Frame} {rest : List Frame} {x : Instr}
    (h : Walk P im f n m pc m' pc') (hret : f.body[pc']? = some .ret)
    (hv : Visits im lim m ⟨f, pc⟩ [] m₁ top rest) (hx : top.func.body[top.pc]? = some x) :
    x = .ret ∨ P m₁ x := by
  obtain ⟨-, rfl, k, hk⟩ := h.rest hret hv
  cases hk with
  | refl => exact Or.inl (Option.some.inj (hx.symm.trans hret))
  | next hx' hP | goto hx' hP =>
    rw [hx] at hx'
    cases hx'
    exact Or.inr hP

end Tac.Machine
