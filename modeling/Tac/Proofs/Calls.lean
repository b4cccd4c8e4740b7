import Mathlib
import Tac.Proofs.Passing

/-!
# Calls

The second half of a call takes the result from its register and restores what was saved, all but
the register of the result.

* **`Returned`** — what a callee leaves as it was.
* **`Related.passes`** — up to the call: registers are saved and arguments passed.
* **`Related.returned`, `Related.delivers`, `Related.resumes`** — after the return, after the result
  is in its place, and after the registers are restored.
* **`Related.calls`** — the whole sequence around the callee, for any related state.
* **`Activation.call_safe`** — arguments arrive, live values survive, the result is delivered.
-/

namespace Tac

namespace Activation

open Machine Lowering

variable {A : Activation} {fl : Flow} {live : VReg → Prop} {s s' : Semantics.State}
  {m m' : Machine} {i : Nat}

/-! ## The whole sequence -/

/-- What a callee leaves as it was: the stack pointer, the registers that it does not destroy, and
the words of the caller's frame outside arrays. -/
structure Returned (A : Activation) (destroy : RegSet) (m m' : Machine) : Prop where
  zero : m'.val Reg.x0 = 0
  sp_eq : m'.sp = m.sp
  size_eq : m'.mem.size = m.mem.size
  regs : ∀ q : Reg, q.Valid → destroy.contains q = false → ¬ q.Scratch → m'.val q = m.val q
  frame : ∀ slot : Int, 0 ≤ slot → slot < A.words →
    (∀ (id : VarId) (l : Loc), A.cx.placed.arrays[id]? = some l → slot ∉ l.words) →
      m'.mem.get (A.frameWord slot) = m.mem.get (A.frameWord slot)

section Sequence

variable (hs : A.cx.placed.Sound A.cx.vars fl) (hr : A.Roomy) {saved : List Reg}
  (hlen : saved.length ≤ Clobber.callerSave A.cx.sets A.cx.placed)

include hs hr hlen

/-- Writes to the words for saved registers keep the relation. -/
theorem Related.saves (h : A.Related live s m) (hkeeps : Keeps (fun _ => False) m m')
    (hmem : ∀ w, (∀ k, k < saved.length → w ≠ A.saveWord k) → m'.mem.get w = m.mem.get w) :
    A.Related live s m' := by
  refine ⟨?_, hkeeps.sp.trans h.sp_eq, by rw [hkeeps.size]; exact h.fits, fun u l hu hl => ?_,
    fun w hw => ?_⟩
  · rw [hkeeps.val _ (by decide) not_false, h.zero]
  · rw [← h.values u l hu hl]
    -- Registers stay, and a slot is not among the words that were saved to.
    cases l with
    | reg r => exact hkeeps.val r (Reg.valid_of_mem_allocatable (hs.allocatable u r hl)) not_false
    | stack slot n => exact hmem _ fun k _ heq => saveWord_ne hr h.fits hs k hl heq.symm
  · rw [hmem w fun k hk heq => ?_, h.words_eq w hw]
    rw [heq, data_saveWord hr h.fits hs (by omega)] at hw
    cases hw

/-- Up to the call: the registers are saved and the arguments are passed. -/
theorem Related.passes (h : A.Related (A.cx.placed.Live i) s m) {args : List Val} {xs : List Word}
    {pass : List Instr} (hvalid : ∀ r ∈ saved, r.Valid) (hcount : args.length ≤ Reg.argCount)
    (hlive : ∀ v ∈ args, ∀ u, A.cx.vars.vreg? v = some u → A.cx.placed.Live i u)
    (hpass : Lowering.passArgs A.cx saved 0 args = .ok pass)
    (hxs : ∀ (k : Nat) (v : Val), args[k]? = some v → ∃ x,
      s.eval A.layout A.cx.vars v = some x ∧ xs[k]? = some x) :
    ∃ m₀ m₁, line? A.im A.func m (saveCode A.cx saved ++ pass) = some m₁ ∧
      A.Holds saved m m₁.mem ∧ Passing A i s xs m₀ args.length m₁ := by
  obtain ⟨m₀, hline₀, hkeeps₀, hsaved₀, hrest₀⟩ := line_saves hr saved 0 m h.zero h.sp_eq h.fits
    hvalid (by omega)
  simp only [zero_add] at hsaved₀ hrest₀
  have hrel₀ := h.saves hs hr hlen hkeeps₀ hrest₀
  -- no argument is passed yet, so all live values are in their places
  have hstart : Passing A i s xs m₀ 0 m₀ :=
    ⟨hrel₀.mono fun u hu => hu.1, fun j x hj => by omega, rfl, Keeps.refl _ _⟩
  obtain ⟨m₁, hline₁, hend⟩ := hstart.run hs hr hlen h hsaved₀ (by omega) hlive hpass
    fun k v hv => by rw [zero_add]; exact hxs k v hv
  rw [zero_add] at hend
  refine ⟨m₀, m₁, line?_append_of hline₀ hline₁, fun k r hk => ?_, hend⟩
  rw [hend.mem_eq, hsaved₀ k r hk]

omit hr hlen in
/-- After the return, live values outside destroyed registers are in their places. -/
theorem Related.returned {destroy : RegSet} {n : Nat} {m₁ m₂ : Machine}
    (h : A.Related (fun u => A.cx.placed.Live i u ∧
      ∀ j, j < n → A.cx.placed.locs[u]? ≠ some (.reg (Reg.a j))) s m₁)
    (hargs : ∀ j, j < n → destroy.contains (Reg.a j) = true)
    (hret : A.Returned destroy m₁ m₂) :
    A.Related (fun u => A.cx.placed.Live i u ∧
      ∀ r, A.cx.placed.locs[u]? = some (.reg r) → destroy.contains r = false)
      { s with mem := m₂.mem.get } m₂ := by
  refine ⟨hret.zero, hret.sp_eq.trans h.sp_eq, by rw [hret.size_eq]; exact h.fits,
    fun u l hu hl => ?_, fun _ _ => rfl⟩
  -- the argument registers are destroyed, so `u` is in none of them
  have hfree : ∀ j, j < n → A.cx.placed.locs[u]? ≠ some (.reg (Reg.a j)) := by
    intro j hj heq
    have := hu.2 _ heq
    rw [hargs j hj] at this
    cases this
  rw [← h.values u l ⟨hu.1, hfree⟩ hl]
  cases l with
  | reg r =>
    have hall := hs.allocatable u r hl
    exact hret.regs r (Reg.valid_of_mem_allocatable hall) (hu.2 r hl)
      (Reg.not_scratch_of_allocatable hall)
  | stack slot n =>
    obtain ⟨h0, h1⟩ := hs.values_inside u slot n hl
    have hcovers := h.fits.covers
    exact hret.frame slot h0 (by omega) fun id l' hl' => hs.apart u id slot n l' hl hl'

/-- The saved registers survive the callee. -/
theorem Returned.holds {destroy : RegSet} {m₁ m₂ : Machine} (hret : A.Returned destroy m₁ m₂)
    (h : A.Holds saved m m₁.mem) : A.Holds saved m m₂.mem := by
  intro k r hk
  obtain ⟨hlt, _⟩ := List.getElem?_eq_some_iff.1 hk
  have hnonneg := hr.nonneg
  have hroom := hr.room
  rw [← h k r hk]
  exact hret.frame _ (by omega) (by omega) fun id l hl => not_array_saveWord hs k hl

end Sequence

section Delivery

variable (hs : A.cx.placed.Sound A.cx.vars fl) (hr : A.Roomy) {ret : Option Val} {callee : String}
  {args : List Val} (hst : A.cx.placed.func.stmts[i]? = some (.call ret callee args))

include hs hst

/-- What is live after a call and is not its result is live before it. -/
theorem live_of_not_wanted {u : VReg} (hu : A.cx.placed.Live (i + 1) u)
    (hne : (wanted A.cx i ret).bind A.cx.vars.vreg? ≠ some u) : A.cx.placed.Live i u := by
  have hmeet := (meet_iff_live hs hst (fun _ _ => rfl) u).2 hu
  refine hs.live_of_meet hst hmeet fun hdef => hne ?_
  simp only [Stmt.defs, Stmt.dst?, List.mem_filterMap, Option.mem_toList] at hdef
  obtain ⟨v, rfl, hv⟩ := hdef
  have hread : unread A.cx i v = false := by
    rw [Placement.Meet] at hmeet
    simp only [unread, hv, Option.any_some, hmeet, Bool.not_true]
  simp [wanted, Option.filter, hread, hv]

/-- The result that is read and any other value live after the call are apart. -/
theorem apart_of_wanted {u v : VReg} {l l' : Loc}
    (hw : (wanted A.cx i ret).bind A.cx.vars.vreg? = some u) (hv : A.cx.placed.Live (i + 1) v)
    (hne : v ≠ u) (hl : A.cx.placed.locs[u]? = some l) (hl' : A.cx.placed.locs[v]? = some l') :
    l.clashes l' = false := by
  obtain ⟨x, hx, hu⟩ := Option.bind_eq_some_iff.1 hw
  obtain ⟨_, hread⟩ := Option.filter_eq_some_iff.1 hx
  have hmeet : A.cx.placed.Meet i u := by
    simpa [unread, hu, Placement.Meet] using hread
  have hlive := (meet_iff_live hs hst (fun _ _ => rfl) u).1 hmeet
  exact (hs.separates (i + 1)).apart u v l l' hlive hv (Ne.symm hne) hl hl'

omit hst in
/-- Only registers of values are restored. -/
theorem allocatable_of_restored {destroy : RegSet} {res : Option Reg} {p : Reg × Nat}
    (hp : p ∈ restored (Clobber.saved A.cx.placed i destroy) res) : p.1 ∈ Reg.allocatable := by
  obtain ⟨_, u, _, hl⟩ := Clobber.mem_saved.1 (List.mem_of_getElem? (mem_restored.1 hp).1)
  exact hs.allocatable u p.1 hl

omit hs hst in
/-- A restored register holds no result that is read. -/
theorem not_wanted_of_restored {saved : List Reg} {u : VReg} {p : Reg × Nat}
    (hp : p ∈ restored saved ((wanted A.cx i ret).bind (resultReg? A.cx)))
    (hl : A.cx.placed.locs[u]? = some (.reg p.1)) :
    (wanted A.cx i ret).bind A.cx.vars.vreg? ≠ some u := by
  intro hw
  obtain ⟨v, hv, hvu⟩ := Option.bind_eq_some_iff.1 hw
  refine (mem_restored.1 hp).2 ?_
  simp [hv, resultReg?, hvu, hl, Loc.reg?]

/-- A register that holds a value live after the call, other than the result, is restored if it is
destroyed: it was saved, and it is not the register of the result. -/
theorem restored_of_destroyed {destroy : RegSet} {u : VReg} {r : Reg}
    (hu : A.cx.placed.Live (i + 1) u) (hl : A.cx.placed.locs[u]? = some (.reg r))
    (hw : (wanted A.cx i ret).bind A.cx.vars.vreg? ≠ some u) (hd : destroy.contains r = true) :
    ∃ p ∈ restored (Clobber.saved A.cx.placed i destroy)
      ((wanted A.cx i ret).bind (resultReg? A.cx)), p.1 = r := by
  have hlive := live_of_not_wanted hs hst hu hw
  obtain ⟨k, hk, hget⟩ := List.getElem_of_mem (Clobber.mem_saved.2 ⟨hd, u, hlive, hl⟩)
  refine ⟨(r, k), mem_restored.2 ⟨by rw [List.getElem?_eq_getElem hk, hget], fun hres => ?_⟩, rfl⟩
  -- were it the register of the result, result and `u` would clash
  obtain ⟨v, hv, hvr⟩ := Option.bind_eq_some_iff.1 hres.symm
  obtain ⟨l, hvl, hlr⟩ := Option.bind_eq_some_iff.1 hvr
  obtain ⟨t, ht, hloc⟩ := Option.bind_eq_some_iff.1 hvl
  have hwt : (wanted A.cx i ret).bind A.cx.vars.vreg? = some t := by
    rw [hv]
    exact ht
  have hne : u ≠ t := by
    rintro rfl
    exact hw hwt
  have hclash := apart_of_wanted hs hst hwt hu hne hloc hl
  cases l with
  | reg q =>
    cases hlr
    simp [Loc.clashes] at hclash
  | stack slot n => cases hlr

include hr

/-- The result is taken from its register to its place, and the saved registers stay. -/
theorem Related.delivers (hg : A.GlobalsPlaced) {free : VReg → Prop}
    (h : A.Related (fun u => A.cx.placed.Live i u ∧ free u) s m) {result : List Instr}
    (hsome : ∀ v, wanted A.cx i ret = some v → takeResult A.cx v = .ok result)
    (hnone : wanted A.cx i ret = none → result = []) :
    ∃ s' m', line? A.im A.func m result = some m' ∧
      A.Related (fun u => A.cx.placed.Live (i + 1) u ∧
        ((wanted A.cx i ret).bind A.cx.vars.vreg? = some u ∨ free u)) s' m' ∧
      (∀ k, k < Clobber.callerSave A.cx.sets A.cx.placed →
        m'.mem.get (A.saveWord k) = m.mem.get (A.saveWord k)) ∧
      (∀ v, wanted A.cx i ret = some v →
        s.assign A.layout A.cx.vars v (m.val (Reg.a 0)) = some s') ∧
      (wanted A.cx i ret = none → s' = s) := by
  -- what is live after the call is its result, or was live before it
  have hkept : ∀ u, A.cx.placed.Live (i + 1) u ∧
      ((wanted A.cx i ret).bind A.cx.vars.vreg? = some u ∨ free u) →
      (wanted A.cx i ret).bind A.cx.vars.vreg? ≠ some u → A.cx.placed.Live i u ∧ free u :=
    fun u hu hne => ⟨live_of_not_wanted hs hst hu.1 hne, hu.2.resolve_left hne⟩
  cases hw : wanted A.cx i ret with
  | none =>
    rw [hnone hw]
    rw [hw] at hkept
    exact ⟨s, m, rfl, h.mono fun u hu => hkept u hu (by simp), fun _ _ => rfl,
      fun v hv => (nomatch hv), fun _ => rfl⟩
  | some v =>
    have hresult := hsome v hw
    unfold takeResult at hresult
    obtain ⟨d, htarget, hresult⟩ := bind_eq_ok.1 hresult
    cases hresult
    obtain ⟨hd, hd0⟩ := target_valid hs htarget
    obtain ⟨s', hassign⟩ := exists_assign_of_target hg htarget s (m.val (Reg.a 0))
    obtain ⟨m₁, hline₁, hval₁, hmem₁, hkeeps₁⟩ : Writes A.im A.func m [.move d (Reg.a 0)] d
      (m.val (Reg.a 0)) := writes_move h.zero hd hd0 (by decide)
    rw [hw] at hkept
    obtain ⟨m₂, hline₂, hrel₂, hsaved₂⟩ := h.assign hs htarget hval₁ hmem₁ hkeeps₁ hassign hkept
      fun u x l l' hu hx hne hl hl' =>
        apart_of_wanted hs hst (by rw [hw]; exact hu) hx.1 hne hl hl'
    refine ⟨s', m₂, line?_append_of hline₁ hline₂, hrel₂, fun k hk => ?_, fun v' hv' => ?_,
      fun hn => (nomatch hn)⟩
    · exact hsaved₂ _ (data_saveWord hr h.fits hs hk) fun u slot n _ hl =>
        saveWord_ne hr h.fits hs k hl
    · cases hv'
      exact hassign

omit hr in
/-- Fetching the saved registers back ends a call: what the callee destroyed is as before the call, and
all else is as after the delivery of the result. -/
theorem Related.restores {destroy : RegSet} (h : A.Related (A.cx.placed.Live i) s m)
    {s' : Semantics.State} {m₃ m₄ : Machine}
    (h₃ : A.Related (fun u => A.cx.placed.Live (i + 1) u ∧
      ((wanted A.cx i ret).bind A.cx.vars.vreg? = some u ∨
        ∀ r, A.cx.placed.locs[u]? = some (.reg r) → destroy.contains r = false)) s' m₃)
    (henv : ∀ u, (wanted A.cx i ret).bind A.cx.vars.vreg? ≠ some u → s'.env u = s.env u)
    (hmem : m₄.mem = m₃.mem)
    (hval : ∀ p ∈ restored (Clobber.saved A.cx.placed i destroy)
      ((wanted A.cx i ret).bind (resultReg? A.cx)), m₄.val p.1 = m.val p.1)
    (hkeeps : Keeps (fun r => ∃ p ∈ restored (Clobber.saved A.cx.placed i destroy)
      ((wanted A.cx i ret).bind (resultReg? A.cx)), p.1 = r) m₃ m₄) :
    A.Related (A.cx.placed.Live (i + 1)) s' m₄ := by
  -- memory is as after the delivery, so only values in registers are left to look at
  refine ⟨?_, hkeeps.sp.trans h₃.sp_eq, by rw [hkeeps.size]; exact h₃.fits,
    fun u l hu hl => ?_, fun k hk => by rw [hmem]; exact h₃.words_eq k hk⟩
  · rw [hkeeps.val _ (by decide) ?_, h₃.zero]
    rintro ⟨p, hp, heq⟩
    exact Reg.ne_x0_of_allocatable (allocatable_of_restored hs hp) heq
  · cases l with
    | stack slot n =>
      have hstay : A.valueAt m₄ (.stack slot n) = A.valueAt m₃ (.stack slot n) := by
        simp only [valueAt, hmem]
      rw [hstay]
      refine h₃.values u _ ⟨hu, Or.inr fun r hr => ?_⟩ hl
      rw [hl] at hr
      cases hr
    | reg r =>
      by_cases hback : ∃ p ∈ restored (Clobber.saved A.cx.placed i destroy)
          ((wanted A.cx i ret).bind (resultReg? A.cx)), p.1 = r
      · -- the value is an old one, so the saved copy is the right one
        obtain ⟨p, hp, rfl⟩ := hback
        have hne := not_wanted_of_restored hp hl
        rw [henv u hne]
        exact (hval p hp).trans (h.values u _ (live_of_not_wanted hs hst hu hne) hl)
      · -- the register is that of the result, or the callee has left it alone
        have hvalid := Reg.valid_of_mem_allocatable (hs.allocatable u r hl)
        have hstay : A.valueAt m₄ (.reg r) = A.valueAt m₃ (.reg r) := hkeeps.val r hvalid hback
        rw [hstay]
        refine h₃.values u _ ⟨hu, ?_⟩ hl
        by_cases hw : (wanted A.cx i ret).bind A.cx.vars.vreg? = some u
        · exact Or.inl hw
        · refine Or.inr fun q hq => ?_
          rw [hl] at hq
          cases hq
          cases hd : destroy.contains r with
          | false => rfl
          | true => exact absurd (restored_of_destroyed hs hst hu hl hw hd) hback

/-- The result of a call is taken where it is wanted, and the rest of the state stays. -/
structure Takes (A : Activation) (i : Nat) (ret : Option Val) (w : Word)
    (s s' : Semantics.State) : Prop where
  assign : ∀ v, wanted A.cx i ret = some v → s.assign A.layout A.cx.vars v w = some s'
  same : wanted A.cx i ret = none → s' = s

omit hs hst hr in
/-- A call changes no variable but the one of its result. -/
theorem Takes.env_eq {w : Word} (h : A.Takes i ret w s s') {u : VReg}
    (hne : (wanted A.cx i ret).bind A.cx.vars.vreg? ≠ some u) : s'.env u = s.env u := by
  cases hw : wanted A.cx i ret with
  | none => rw [h.same hw]
  | some v =>
    rw [hw] at hne
    exact Semantics.State.env_of_assign (h.assign v hw) hne

/-- From the return on: the result is delivered and the registers are restored. -/
theorem Related.resumes (hg : A.GlobalsPlaced) {destroy : RegSet} {m₂ : Machine}
    {mem : Nat → Word} (hset : A.cx.sets[callee]? = some destroy)
    (h : A.Related (A.cx.placed.Live i) s m)
    (h₂ : A.Related (fun u => A.cx.placed.Live i u ∧
      ∀ r, A.cx.placed.locs[u]? = some (.reg r) → destroy.contains r = false)
      { s with mem := mem } m₂)
    (hsaved : A.Holds (Clobber.saved A.cx.placed i destroy) m m₂.mem) {result : List Instr}
    (hsome : ∀ v, wanted A.cx i ret = some v → takeResult A.cx v = .ok result)
    (hnone : wanted A.cx i ret = none → result = []) :
    ∃ s' m', line? A.im A.func m₂ (result ++ restoreCode A.cx (Clobber.saved A.cx.placed i destroy)
        ((wanted A.cx i ret).bind (resultReg? A.cx))) = some m' ∧
      A.Related (A.cx.placed.Live (i + 1)) s' m' ∧
      A.Takes i ret (m₂.val (Reg.a 0)) { s with mem := mem } s' := by
  have hlen := Clobber.length_saved_le hst hset
  obtain ⟨s', m₃, hline₃, hrel₃, hkept₃, hassign, hsame⟩ := h₂.delivers hs hr hst hg hsome hnone
  -- Taking the result changes the variable that wants it, nothing else.
  have htakes : A.Takes i ret (m₂.val (Reg.a 0)) { s with mem := mem } s' := ⟨hassign, hsame⟩
  have henv : ∀ u, (wanted A.cx i ret).bind A.cx.vars.vreg? ≠ some u → s'.env u = s.env u :=
    fun u hne => htakes.env_eq hne
  -- The restores read what the saves wrote, as the call kept those words.
  obtain ⟨m₄, hline₄, hmem₄, hval₄, hkeeps₄⟩ := line_restores hr m.val
    (restored (Clobber.saved A.cx.placed i destroy) ((wanted A.cx i ret).bind (resultReg? A.cx)))
    m₃ hrel₃.zero hrel₃.sp_eq hrel₃.fits fun p hp => by
      obtain ⟨hget, _⟩ := mem_restored.1 hp
      obtain ⟨hlt, _⟩ := List.getElem?_eq_some_iff.1 hget
      have halloc := allocatable_of_restored hs hp
      refine ⟨Reg.valid_of_mem_allocatable halloc, Reg.ne_x0_of_allocatable halloc, by omega, ?_⟩
      rw [hkept₃ _ (by omega), hsaved _ _ hget]
  exact ⟨s', m₄, line?_append_of hline₃ (by rw [restoreCode_eq]; exact hline₄),
    h.restores hs hst hrel₃ henv hmem₄ hval₄ hkeeps₄, htakes⟩

/-- The code of a call: the machine gets to the call with the arguments in their registers, and from
what the callee returns on to the next statement. -/
theorem Related.calls (hg : A.GlobalsPlaced) {destroy : RegSet}
    (hcount : args.length ≤ Reg.argCount) (hset : A.cx.sets[callee]? = some destroy)
    (hargs : ∀ k, k < args.length → destroy.contains (Reg.a k) = true) {code : List Instr} {pc : Nat}
    (hcode : Lowering.call A.cx i ret callee args = .ok code) (hat : CodeAt A.func pc code)
    (h : A.Related (A.cx.placed.Live i) s m) {xs : List Word}
    (hxs : ∀ (k : Nat) (v : Val), args[k]? = some v →
      ∃ x, s.eval A.layout A.cx.vars v = some x ∧ xs[k]? = some x) :
    ∃ m₁ pc₁, Reaches A.im A.func m pc m₁ pc₁ ∧ A.func.body[pc₁]? = some (.call callee) ∧
      A.Running m₁ ∧ (∀ k x, k < args.length → xs[k]? = some x → m₁.val (Reg.a k) = x) ∧
      (∀ k, A.data k = true → m₁.mem.get k = s.mem k) ∧
      ∀ m₂, A.Returned destroy m₁ m₂ → ∃ s' m₃,
        Reaches A.im A.func m₂ (pc₁ + 1) m₃ (pc + code.length) ∧
        A.Related (A.cx.placed.Live (i + 1)) s' m₃ ∧
        A.Takes i ret (m₂.val (Reg.a 0)) { s with mem := m₂.mem.get } s' := by
  obtain ⟨destroy', pass, result, hset', _, hpass, hsome, hnone, rfl⟩ := call_parts hcode
  rw [hset] at hset'
  obtain rfl := Option.some.inj hset'
  have hvalid : ∀ r ∈ Clobber.saved A.cx.placed i destroy, r.Valid := by
    intro r hmem
    obtain ⟨_, u, _, hl⟩ := Clobber.mem_saved.1 hmem
    exact Reg.valid_of_mem_allocatable (hs.allocatable u r hl)
  -- No more registers are saved than the frame has words for them.
  have hlen := Clobber.length_saved_le hst hset
  obtain ⟨m₀, m₁, hline, hsaved, hpassed⟩ := h.passes hs hr hlen hvalid hcount
    (fun v hv u hu => live_of_source hs hst hv hu) hpass hxs
  rw [List.append_assoc, List.append_assoc] at hat ⊢
  have hrel₁ := hpassed.related
  refine ⟨m₁, _, reaches_line hat.left hline, hat.right.left.head,
    ⟨hrel₁.zero, hrel₁.sp_eq, hrel₁.fits⟩, hpassed.passed, hrel₁.words_eq, fun m₂ hret => ?_⟩
  -- What the callee leaves in memory and registers is what is needed to go on.
  obtain ⟨s', m₃, hline₃, hrel₃, htakes⟩ := h.resumes hs hr hst hg hset
    (hrel₁.returned hs hargs hret) (hret.holds hs hr hlen hsaved) hsome hnone
  refine ⟨s', m₃, ?_, hrel₃, htakes⟩
  have hreach := reaches_line hat.right.right hline₃
  simp only [List.length_append, List.length_singleton, add_assoc] at hreach ⊢
  exact hreach

omit hr in
/-- What is live after a call, except its result, is where it was before, with the same value. -/
theorem Related.kept (h : A.Related (A.cx.placed.Live i) s m) {s' : Semantics.State} {m' : Machine}
    (h' : A.Related (A.cx.placed.Live (i + 1)) s' m')
    (henv : ∀ u, (wanted A.cx i ret).bind A.cx.vars.vreg? ≠ some u → s'.env u = s.env u) {u : VReg}
    (hmeet : A.cx.placed.Meet i u) (hne : ret.bind A.cx.vars.vreg? ≠ some u) :
    ∃ l, A.cx.placed.locs[u]? = some l ∧ A.valueAt m' l = A.valueAt m l := by
  have hlive := (meet_iff_live hs hst (fun _ _ => rfl) u).1 hmeet
  have hnot : (wanted A.cx i ret).bind A.cx.vars.vreg? ≠ some u := by
    intro hw
    obtain ⟨v, hv, hvu⟩ := Option.bind_eq_some_iff.1 hw
    refine hne ?_
    rw [(Option.filter_eq_some_iff.1 hv).1]
    exact hvu
  obtain ⟨l, hl⟩ := (hs.separates (i + 1)).located u hlive
  refine ⟨l, hl, ?_⟩
  -- a value that is not the result is live before the call as well
  rw [h'.values u l hlive hl, henv u hnot,
    ← h.values u l (live_of_not_wanted hs hst hlive hnot) hl]

omit hr in
/-- A result that is read is in its place after a call. -/
theorem Related.delivered {s' : Semantics.State} {m' : Machine}
    (h' : A.Related (A.cx.placed.Live (i + 1)) s' m') {v : Val} (hread : unread A.cx i v = false) :
    A.operand m' v = s'.eval A.layout A.cx.vars v := by
  refine h'.operand_eq fun u hu => ?_
  have hmeet : A.cx.placed.Meet i u := by
    simpa [unread, hu, Placement.Meet] using hread
  have hlive := (meet_iff_live hs hst (fun _ _ => rfl) u).1 hmeet
  exact ⟨hlive, (hs.separates (i + 1)).located u hlive⟩

omit hr in
/-- No call is refused because an argument was lost. -/
theorem call_not_unsaved {destroy : RegSet} (hset : A.cx.sets[callee]? = some destroy)
    (hargs : ∀ k, k < args.length → destroy.contains (Reg.a k) = true) (u : VReg) (r : Reg) :
    Lowering.call A.cx i ret callee args ≠ .error (.argumentNotSaved u r) := by
  -- an argument in a register that is destroyed is live at the call, so the register is saved
  have hpass : Lowering.passArgs A.cx (Clobber.saved A.cx.placed i destroy) 0 args ≠
      .error (.argumentNotSaved u r) := by
    refine passArgs_not_unsaved (le_of_eq (zero_add _)) (fun v hv t j ht hl hj => ?_) u r
    exact Clobber.mem_saved.2 ⟨hargs j hj, t, live_of_source hs hst hv ht, hl⟩
  have htake : ∀ v, takeResult A.cx v ≠ .error (.argumentNotSaved u r) := by
    intro v h
    have htarget : target A.cx v ≠ .error (.argumentNotSaved u r) := by
      intro h
      unfold target at h
      repeat' split at h
      all_goals cases h
    unfold takeResult at h
    cases ht : target A.cx v with
    | ok d =>
      rw [ht] at h
      cases h
    | error e =>
      rw [ht] at h
      cases h
      exact htarget ht
  intro h
  unfold Lowering.call at h
  rw [hset] at h
  simp only at h
  split at h
  · cases h
  · cases hp : Lowering.passArgs A.cx (Clobber.saved A.cx.placed i destroy) 0 args with
    | error e =>
      rw [hp] at h
      cases h
      exact hpass hp
    | ok pass =>
      rw [hp] at h
      rw [← wanted] at h
      cases hw : wanted A.cx i ret with
      | none =>
        rw [hw] at h
        cases h
      | some v =>
        rw [hw] at h
        cases hres : takeResult A.cx v with
        | ok result =>
          simp only [hres] at h
          cases h
        | error e =>
          simp only [hres] at h
          cases h
          exact htake v hres

end Delivery

/-- A call whose callee destroys the registers of the arguments is lowered without losing one, and
its code is safe from every state of the machine: at the call each argument register holds what its
operand was worth before the sequence; and if the callee changes only what it may, then after the
sequence every value that is live after the call, except the result, is in its location as before,
and a result that is read is in its place with the value that the callee left. -/
theorem call_safe {A : Activation} {fl : Flow} {i : Nat} {ret : Option Val} {callee : String}
    {args : List Val} {destroy : RegSet} (hs : A.cx.placed.Sound A.cx.vars fl) (hr : A.Roomy)
    (hg : A.GlobalsPlaced) (hst : A.cx.placed.func.stmts[i]? = some (.call ret callee args))
    (hcount : args.length ≤ Reg.argCount) (hset : A.cx.sets[callee]? = some destroy)
    (hargs : ∀ k, k < args.length → destroy.contains (Reg.a k) = true) :
    (∀ u r, Lowering.call A.cx i ret callee args ≠ .error (.argumentNotSaved u r)) ∧
      ∀ code pc m, Lowering.call A.cx i ret callee args = .ok code → CodeAt A.func pc code →
        A.Running m → ∃ m₁ pc₁, Reaches A.im A.func m pc m₁ pc₁ ∧
          A.func.body[pc₁]? = some (.call callee) ∧
          (∀ (k : Nat) (v : Val), args[k]? = some v → A.operand m v = some (m₁.val (Reg.a k))) ∧
          ∀ m₂, A.Returned destroy m₁ m₂ → ∃ m₃,
            Reaches A.im A.func m₂ (pc₁ + 1) m₃ (pc + code.length) ∧
            (∀ u, A.cx.placed.Meet i u → ret.bind A.cx.vars.vreg? ≠ some u →
              ∃ l, A.cx.placed.locs[u]? = some l ∧ A.valueAt m₃ l = A.valueAt m l) ∧
            ∀ v, ret = some v → unread A.cx i v = false →
              A.operand m₃ v = some (m₂.val (Reg.a 0)) := by
  refine ⟨call_not_unsaved hs hst hset hargs, fun code pc m hcode hat hm => ?_⟩
  have h := hm.related (A.cx.placed.Live i)
  -- the values to pass, as a list that the invariant can index
  have hvalue : ∀ (k : Nat) (v : Val), args[k]? = some v →
      ∃ x, A.operand m v = some x ∧ (args.map fun v => (A.operand m v).getD 0)[k]? = some x := by
    intro k v hv
    obtain ⟨_, pass, _, _, _, hpass, _⟩ := call_parts hcode
    obtain ⟨x, hx⟩ : ∃ x, A.operand m v = some x :=
      exists_eval_of_passArgs hg (A.view m) hpass v (List.mem_of_getElem? hv)
    refine ⟨x, hx, ?_⟩
    rw [List.getElem?_map, hv, Option.map_some, hx, Option.getD_some]
  obtain ⟨m₁, pc₁, hreach, hcall, -, hpassed, -, hreturn⟩ :=
    h.calls hs hr hst hg hcount hset hargs hcode hat hvalue
  refine ⟨m₁, pc₁, hreach, hcall, fun k v hv => ?_, fun m₂ hret => ?_⟩
  · obtain ⟨hlt, _⟩ := List.getElem?_eq_some_iff.1 hv
    obtain ⟨x, hx, hxs⟩ := hvalue k v hv
    rw [hx, hpassed k x hlt hxs]
  · obtain ⟨s', m₃, hreach₃, hrel₃, htakes⟩ := hreturn m₂ hret
    refine ⟨m₃, hreach₃, fun u => h.kept hs hst hrel₃ fun u hne => htakes.env_eq hne,
      fun v hv hread => ?_⟩
    have hw : wanted A.cx i ret = some v := by
      simp [wanted, hv, Option.filter, hread]
    rw [hrel₃.delivered hs hst hread, Semantics.State.eval_of_assign (htakes.assign v hw)]

/-! ## Swapped arguments -/

/-- Two parameters. -/
def swappedVars : VarTable := #[⟨"a", .arg, 0, none⟩, ⟨"b", .arg, 1, none⟩]

/-- The parameters are passed on in the other order, and the first is still needed afterwards. -/
def swappedFunc : Func where
  name := "f"
  void := false
  params := [0, 1]
  stmts := [.call (some (.temp 0)) "g" [.var 1, .var 0],
    .binary (.temp 1) (.temp 0) .add (.var 0), .ret (some (.temp 1))]

/-- The flow of the example, which calls with its two arguments the other way round. -/
def swappedFlow : Flow where
  labels := {}
  next := #[[1], [2], []]
  prev := Flow.predecessors [[1], [2], []]

/-- Each parameter is in its own register; the result replaces the second one. -/
def swappedContext : Context where
  vars := swappedVars
  sets := .ofList [("g", RegSet.all)]
  placed :=
    { func := swappedFunc
      live := (Liveness.analyze swappedVars swappedFunc swappedFlow).live
      meet := (Liveness.analyze swappedVars swappedFunc swappedFlow).meet
      locs := .ofList [(0, Loc.reg (Reg.a 1)), (2, Loc.reg (Reg.a 0)), (3, Loc.reg (Reg.a 0)),
        (5, Loc.reg (Reg.a 1))]
      arrays := {}
      spillSize := 0 }

/-- The code of its call. -/
def swappedCode : List Instr :=
  (Lowering.call swappedContext 0 (some (.temp 0)) "g" [.var 1, .var 0]).toOption.getD []

/-- The example as an activation. -/
def swapped : Activation where
  im := { funcs := {}, globals := {}, stackBase := 4 }
  func := { name := "f", body := swappedCode.toArray, labels := {}, frame := 16 }
  cx := swappedContext
  sp := 400
  words := 2
  data _ := false

/-- The machine before the call. -/
def swappedMachine : Machine where
  regs := Vector.ofFn fun k => if k.val = 8 then 1 else if k.val = 9 then 2 else 0
  mem := { size := 200 }
  sp := 400

/-- What is live before and behind each statement of the example. -/
theorem analyze_swapped :
    (Liveness.analyze swappedVars swappedFunc swappedFlow).live =
        #[.ofList [2, 5], .ofList [0, 2], .ofList [3]] ∧
      (Liveness.analyze swappedVars swappedFunc swappedFlow).meet =
        #[.ofList [0, 2], .ofList [3], .empty] := by
  rw [Liveness.analyze_eq_solveList]
  decide +kernel

/-- The placement of the example is sound. -/
theorem sound_swapped : swappedContext.placed.Sound swappedVars swappedFlow := by
  refine .of_wellPlaced rfl rfl rfl ?_ (by decide)
  simp only [swappedContext, analyze_swapped]
  decide

/-- The frame of the example has room for the saves. -/
theorem roomy_swapped : swapped.Roomy := by
  refine ⟨le_refl _, ?_⟩
  simp only [swapped, swappedContext, analyze_swapped]
  decide

/-- The example is running on the machine. -/
theorem running_swapped : swapped.Running swappedMachine :=
  ⟨by decide, rfl, by decide, by decide, by decide, by decide, by decide,
    fun k hk => (nomatch hk), fun slot _ _ hd => (nomatch hd)⟩

/-- The globals of the example are placed. -/
theorem placed_swapped : swapped.GlobalsPlaced := by
  intro id x hx hcls
  -- there are no globals
  have hall : swappedVars.all (fun x => x.cls ≠ .global) = true := by simp [swappedVars]
  have hmem : x ∈ swappedVars := by
    unfold VarTable.get? at hx
    split at hx
    · exact Array.mem_of_getElem? hx
    · cases hx
  have := Array.all_eq_true'.1 hall x hmem
  exact absurd hcls (of_decide_eq_true this)

/-- The second argument is taken from the saved copy of its register, and the first parameter is back
in its register after the call. -/
theorem call_safe_swapped : ∃ m₁ pc₁, Reaches swapped.im swapped.func swappedMachine 0 m₁ pc₁ ∧
    swapped.func.body[pc₁]? = some (.call "g") ∧ m₁.val (Reg.a 0) = 2 ∧ m₁.val (Reg.a 1) = 1 ∧
    ∀ m₂, swapped.Returned RegSet.all m₁ m₂ → ∃ m₃,
      Reaches swapped.im swapped.func m₂ (pc₁ + 1) m₃ swappedCode.length ∧
      m₃.val (Reg.a 0) = 1 ∧ m₃.val (Reg.a 1) = m₂.val (Reg.a 0) := by
  -- The code of the call is computed.
  have htest : (Lowering.call swappedContext 0 (some (.temp 0)) "g" [.var 1, .var 0]).toOption.any
      (fun _ => true) = true := by
    simp only [swappedContext, analyze_swapped]
    decide
  obtain ⟨code, hok, _⟩ := exists_ok_of_any htest
  have hcode : code = swappedCode := by
    rw [swappedCode, hok]
    rfl
  subst hcode
  have hat : CodeAt swapped.func 0 swappedCode := by
    intro k _
    rw [zero_add]
    exact List.getElem?_toArray
  have hset : swappedContext.sets["g"]? = some RegSet.all := by decide
  obtain ⟨_, hsafe⟩ := call_safe (A := swapped) sound_swapped roomy_swapped placed_swapped
    (i := 0) rfl (by decide) hset (by decide)
  obtain ⟨m₁, pc₁, hreach, hcall, hpassed, hreturn⟩ := hsafe _ 0 _ hok hat running_swapped
  refine ⟨m₁, pc₁, hreach, hcall, ?_, ?_, fun m₂ hret => ?_⟩
  · have h := hpassed 0 (.var 1) rfl
    have hv : swapped.operand swappedMachine (.var 1) = some 2 := by decide
    rw [hv] at h
    exact (Option.some.inj h).symm
  · have h := hpassed 1 (.var 0) rfl
    have hv : swapped.operand swappedMachine (.var 0) = some 1 := by decide
    rw [hv] at h
    exact (Option.some.inj h).symm
  · obtain ⟨m₃, hreach₃, hkept, hresult⟩ := hreturn m₂ hret
    have hread : unread swappedContext 0 (.temp 0) = false := by
      simp only [swappedContext, analyze_swapped]
      decide
    -- The parameter is still needed behind the call.
    have hmeet : swappedContext.placed.Meet 0 2 := by
      simp only [Placement.Meet, swappedContext, analyze_swapped]
      decide
    rw [zero_add] at hreach₃
    refine ⟨m₃, hreach₃, ?_, ?_⟩
    · obtain ⟨l, hl, hval⟩ := hkept 2 hmeet (by decide)
      have hl' : swappedContext.placed.locs[2]? = some (.reg (Reg.a 0)) := by decide
      obtain rfl := Option.some.inj (hl'.symm.trans hl)
      exact hval.trans (by decide)
    · have h := hresult (.temp 0) rfl hread
      have hl : swapped.cx.placed.locs[0]? = some (.reg (Reg.a 1)) := by decide
      rw [operand_of_loc (show swapped.cx.vars.vreg? (.temp 0) = some 0 by decide) hl] at h
      exact Option.some.inj h

end Activation

end Tac
