import Mathlib
import Tac.Lowering
import Tac.Proofs.Allocation
import Tac.Proofs.Machine
import Tac.Proofs.Semantics

/-!
# Operands of lowered code

A statement and its code work on the same values, which the code finds in registers, in the frame and
in memory.  This module says how the two states belong together and proves what the code around the
actual operation does: fetching operands and taking results to their places.

* **`Related`** — the values of the live virtual registers are in their locations, and the words of
  globals and arrays are the same.  Code that only touches the scratch registers keeps the relation
  (`Related.scratch`).
* **`Related.fetch`** — an operand of any kind ends up in the register that the code names for it.
* **`Related.assign`** — a result computed in its target register, and finished, is where the
  relation wants it, and no other live value is lost: locations of values that are live together are
  apart.
-/

namespace Tac

/-! ## Words -/

theorem toInt_word (n : Int) : (word n).toInt = Int.bmod n 4294967296 := Int32.toInt_ofInt

/-- Wrapping to 64 bits first does not show in 32. -/
theorem word_wrap64 (n : Int) : word (wrap64 n) = word n := by
  apply Int32.toInt_inj.1
  rw [toInt_word, toInt_word, wrap64, Int.bmod_bmod_of_dvd (by decide)]

/-- The lower 32 bits of a sum are the sum of the lower 32 bits. -/
theorem word_add (a b : Int) : word (a + b) = word a + word b := Int32.ofInt_add a b

/-- The lower 32 bits of a negated number are the negated lower 32 bits. -/
theorem word_neg (a : Int) : word (-a) = -word a := Int32.ofInt_neg a

/-- An addition that stays in 32 bits does not wrap. -/
theorem toInt_add_word {a : Word} {n : Int} (h0 : -2147483648 ≤ a.toInt + n)
    (h1 : a.toInt + n < 2147483648) : (a + word n).toInt = a.toInt + n := by
  rw [Int32.toInt_add, toInt_word, Int.add_bmod_bmod, Int.bmod_eq_of_le_mul_two] <;> omega

/-! ## Sound placements -/

/-- A placement that the check accepts: live sets from the flow and the statements, registers that
are open to allocation, and words of the frame that values do not share with arrays. -/
structure Placement.Sound (vars : VarTable) (p : Placement) (fl : Flow) : Prop where
  connected : Flow.connect p.func = .ok fl
  live_eq : p.live = (Liveness.analyze vars p.func fl).live
  meet_eq : p.meet = (Liveness.analyze vars p.func fl).meet
  verified : p.locs.verify p.func.name p.live.toList = .ok ()
  allocatable : ∀ (u : VReg) (r : Reg), p.locs[u]? = some (.reg r) → r ∈ Reg.allocatable
  values_inside : ∀ (u : VReg) (s n : Int), p.locs[u]? = some (.stack s n) →
    0 ≤ s ∧ s < p.spillSize
  arrays_inside : ∀ (id : VarId) (l : Loc), p.arrays[id]? = some l →
    ∃ s n, l = .stack s n ∧ 0 ≤ s ∧ 0 < n ∧ s + n ≤ p.spillSize
  apart : ∀ (u : VReg) (id : VarId) (s n : Int) (l : Loc), p.locs[u]? = some (.stack s n) →
    p.arrays[id]? = some l → s ∉ l.words

namespace Placement

/-- The virtual register is live before statement `i`. -/
def Live (p : Placement) (i : Nat) (u : VReg) : Prop :=
  (p.live.getD i BitSet.empty).contains u = true

/-- The virtual register is live after statement `i`. -/
def Meet (p : Placement) (i : Nat) (u : VReg) : Prop :=
  (p.meet.getD i BitSet.empty).contains u = true

namespace Sound

variable {vars : VarTable} {p : Placement} {fl : Flow} (h : p.Sound vars fl)

include h

/-- The flow of the function that was placed describes its statements. -/
theorem describes : Flow.Describes p.func fl := Flow.describes_of_connect h.connected

/-- The live sets of a placement solve the equations of liveness. -/
theorem solution : Liveness.Solution vars p.func fl (Liveness.analyze vars p.func fl) :=
  Liveness.solution_analyze vars h.describes

/-- What a statement reads is live there. -/
theorem live_of_use {i : Nat} {st : Stmt} (hs : p.func.stmts[i]? = some st) {u : VReg}
    (hu : u ∈ st.uses vars) : p.Live i u := by
  rw [Live, h.live_eq]
  exact (h.solution.live_iff i st hs u).2 (Or.inl hu)

/-- What is live behind a statement and not written by it is live before it. -/
theorem live_of_meet {i : Nat} {st : Stmt} (hs : p.func.stmts[i]? = some st) {u : VReg}
    (hu : p.Meet i u) (hdef : u ∉ st.defs vars) : p.Live i u := by
  rw [Meet, h.meet_eq] at hu
  rw [Live, h.live_eq]
  exact (h.solution.live_iff i st hs u).2 (Or.inr ⟨hdef, hu⟩)

theorem meet_iff (i : Nat) (u : VReg) : p.Meet i u ↔ ∃ j ∈ fl.nextOf i, p.Live j u := by
  simp only [Meet, Live, h.meet_eq, h.live_eq]
  exact h.solution.meet_iff i u

/-- Nothing is live behind the last statement. -/
theorem not_live_of_ge {i : Nat} (hi : p.func.stmts.length ≤ i) (u : VReg) : ¬ p.Live i u := by
  have hsize := h.solution.size_live
  rw [Live, h.live_eq, Array.getD_eq_getD_getElem?, Array.getElem?_eq_none (by omega)]
  simp

/-- Where control falls through, what is live after a statement is live before the next one. -/
theorem meet_of_fallthrough {i : Nat} (hnext : fl.nextOf i = Flow.following p.func.stmts.length i)
    (u : VReg) : p.Meet i u ↔ p.Live (i + 1) u := by
  rw [h.meet_iff, hnext]
  simp only [Flow.mem_following_iff]
  constructor
  · rintro ⟨j, ⟨rfl, _⟩, hlive⟩
    exact hlive
  · intro hlive
    refine ⟨i + 1, ⟨rfl, ?_⟩, hlive⟩
    by_contra hge
    exact h.not_live_of_ge (by omega) u hlive

/-- Values that are live together have locations that do not clash. -/
theorem separates (i : Nat) : p.locs.Separates (p.live.getD i BitSet.empty) := by
  rw [Array.getD_eq_getD_getElem?]
  cases hi : p.live[i]? with
  | none => exact ⟨fun u hu => by simp at hu, fun u v l m hu => by simp at hu⟩
  | some s =>
    have hmem : s ∈ p.live.toList := by
      rw [Array.mem_toList_iff]
      exact Array.mem_of_getElem? hi
    exact (Locs.verify_eq_ok_iff _ _ _).1 h.verified s hmem

end Sound

end Placement

/-- The last four conditions of a sound placement, as a test. -/
def Placement.wellPlaced (p : Placement) : Bool :=
  (p.locs.toList.all fun (_, l) =>
    match l with
    | .reg r => decide (r ∈ Reg.allocatable)
    | .stack s _ => decide (0 ≤ s ∧ s < p.spillSize) && p.arrays.toList.all fun (_, a) =>
        decide (s < a.slot ∨ a.slot + a.span ≤ s)) &&
  p.arrays.toList.all fun (_, l) =>
    match l with
    | .reg _ => false
    | .stack s n => decide (0 ≤ s ∧ 0 < n ∧ s + n ≤ p.spillSize)

/-- The computed check of a placement implies what the proofs ask of it. -/
theorem Placement.Sound.of_wellPlaced {vars : VarTable} {p : Placement} {fl : Flow}
    (hconnect : Flow.connect p.func = .ok fl)
    (hlive : p.live = (Liveness.analyze vars p.func fl).live)
    (hmeet : p.meet = (Liveness.analyze vars p.func fl).meet)
    (hverify : p.locs.verify p.func.name p.live.toList = .ok ()) (h : p.wellPlaced = true) :
    p.Sound vars fl := by
  unfold wellPlaced at h
  rw [Bool.and_eq_true, List.all_eq_true, List.all_eq_true] at h
  obtain ⟨hlocs, harrays⟩ := h
  have hloc : ∀ (u : VReg) (l : Loc), p.locs[u]? = some l → (u, l) ∈ p.locs.toList :=
    fun u l hl => Std.TreeMap.mem_toList_iff_getElem?_eq_some.2 hl
  have harr : ∀ (id : VarId) (l : Loc), p.arrays[id]? = some l → (id, l) ∈ p.arrays.toList :=
    fun id l hl => Std.TreeMap.mem_toList_iff_getElem?_eq_some.2 hl
  refine ⟨hconnect, hlive, hmeet, hverify, ?_, ?_, ?_, ?_⟩
  · intro u r hl
    exact of_decide_eq_true (hlocs _ (hloc u _ hl))
  · intro u s n hl
    have := hlocs _ (hloc u _ hl)
    simp only [Bool.and_eq_true, decide_eq_true_eq] at this
    exact this.1
  · intro id l hl
    have := harrays _ (harr id l hl)
    cases l with
    | reg r => cases this
    | stack s n => exact ⟨s, n, rfl, of_decide_eq_true this⟩
  · -- the slot lies below or above every array
    intro u id s n l hl ha hmem
    have := hlocs _ (hloc u _ hl)
    simp only [Bool.and_eq_true, List.all_eq_true, decide_eq_true_eq] at this
    have hout := this.2 _ (harr id l ha)
    cases l with
    | reg r => exact hmem
    | stack t k =>
      simp only [Loc.words, Set.mem_Ico] at hmem
      simp only [Loc.slot, Loc.span] at hout
      omega

/-! ## Activations -/

/-- A running function: the code it was loaded from, what that was lowered under, and what is fixed
while it runs. -/
structure Activation where
  im : Image
  func : LoadedFunc
  cx : Lowering.Context
  /-- The stack pointer. -/
  sp : Word
  /-- The number of words of the frame. -/
  words : Int
  /-- The words of memory that belong to globals and arrays. -/
  data : Nat → Bool

namespace Activation

variable (A : Activation)

/-- The memory word of a frame slot. -/
def frameWord (slot : Int) : Nat := (A.sp.toInt / 4 + slot).toNat

/-- Where statements find their variables. -/
def layout : Semantics.Layout where
  globalAddr g := A.im.globals[g]?
  array id := (A.cx.placed.arrays[id]?).map fun l => (A.sp + word (4 * l.slot), l.span.toNat)
  data := A.data

/-- The value at a location. -/
def valueAt (m : Machine) : Loc → Word
  | .reg r => m.val r
  | .stack slot _ => m.mem.get (A.frameWord slot)

/-- The frame lies in a memory of the given size, as do globals and arrays; in the frame only local
arrays belong to these. -/
structure Fits (size : Nat) : Prop where
  aligned : A.sp.toInt % 4 = 0
  above : 4 ≤ A.sp.toInt
  inside : A.sp.toInt + 4 * A.words ≤ 4 * size
  small : A.sp.toInt + 4 * A.words < 2147483648
  covers : A.cx.placed.spillSize ≤ A.words
  data_inside : ∀ k, A.data k = true → k < size
  data_apart : ∀ slot, 0 ≤ slot → slot < A.words → A.data (A.frameWord slot) = true →
    ∃ (id : VarId) (l : Loc), A.cx.placed.arrays[id]? = some l ∧ slot ∈ l.words

/-- A state of the program and a state of the machine belong together as far as the registers `live`
go. -/
structure Related (live : VReg → Prop) (s : Semantics.State) (m : Machine) : Prop where
  zero : m.val Reg.x0 = 0
  sp_eq : m.sp = A.sp
  fits : A.Fits m.mem.size
  values : ∀ (u : VReg) (l : Loc), live u → A.cx.placed.locs[u]? = some l →
    A.valueAt m l = s.env u
  words_eq : ∀ k, A.data k = true → m.mem.get k = s.mem k

end Activation

/-- The registers that lowered code uses on its own. -/
def Reg.Scratch (r : Reg) : Prop := r = Reg.scratch0 ∨ r = Reg.scratch1

/-- No scratch register is given to a value. -/
theorem Reg.not_scratch_of_allocatable {r : Reg} (h : r ∈ Reg.allocatable) : ¬ r.Scratch := by
  rw [Reg.mem_allocatable_iff] at h
  rintro (rfl | rfl)
  · exact absurd h.1 (by decide)
  · exact absurd h.1 (by decide)

theorem Reg.Scratch.valid {r : Reg} (h : r.Scratch) : r.Valid := by
  rcases h with rfl | rfl <;> decide

theorem Reg.Scratch.ne_x0 {r : Reg} (h : r.Scratch) : r ≠ Reg.x0 := by
  rcases h with rfl | rfl <;> decide

/-- No value is kept in the register that is always zero. -/
theorem Reg.ne_x0_of_allocatable {r : Reg} (h : r ∈ Reg.allocatable) : r ≠ Reg.x0 := by
  rintro rfl
  exact absurd h (by decide)

namespace Activation

open Machine

variable {A : Activation} {live : VReg → Prop} {s : Semantics.State} {m m' : Machine}

/-! ## The frame -/

section Frame

variable {size : Nat} (hf : A.Fits size)

include hf

/-- Different slots are different words. -/
theorem Fits.frameWord_injective {s t : Int} (hs : 0 ≤ s) (ht : 0 ≤ t)
    (h : A.frameWord s = A.frameWord t) : s = t := by
  have := hf.above
  unfold frameWord at h
  omega

/-- The address of a slot does not wrap. -/
theorem Fits.toInt_slot {slot : Int} (h0 : 0 ≤ slot) (h1 : slot ≤ A.words) :
    (A.sp + word (4 * slot)).toInt = A.sp.toInt + 4 * slot := by
  have := hf.above
  have := hf.small
  exact toInt_add_word (by omega) (by omega)

/-- A slot of the frame is a word of the memory. -/
theorem Fits.frameWord_lt {slot : Int} (h0 : 0 ≤ slot) (h1 : slot < A.words) :
    A.frameWord slot < size := by
  have := hf.above
  have := hf.aligned
  have := hf.inside
  unfold frameWord
  omega

/-- A slot of the frame has an address that the machine accepts. -/
theorem Fits.wordIndex?_slot {slot : Int} (hm : m.mem.size = size) (h0 : 0 ≤ slot)
    (h1 : slot < A.words) : m.wordIndex? (A.sp + word (4 * slot)) = some (A.frameWord slot) := by
  have hlt := hf.frameWord_lt h0 h1
  have := hf.above
  have := hf.aligned
  unfold Machine.wordIndex? frameWord at *
  simp only [hf.toInt_slot h0 (by omega), hm]
  rw [if_neg (by omega)]
  congr 1
  omega

/-- An address of a word that belongs to globals and arrays is one that the machine accepts. -/
theorem Fits.wordIndex?_data {a : Word} {k : Nat} (hm : m.mem.size = size)
    (h : A.layout.index? a = some k) : m.wordIndex? a = some k ∧ A.data k = true := by
  unfold Semantics.Layout.index? at h
  split at h
  · next hcond =>
    obtain ⟨h4, hmod, hdata⟩ := hcond
    obtain rfl := Option.some.inj h
    have hlt := hf.data_inside _ hdata
    refine ⟨?_, hdata⟩
    -- Data words lie inside the memory, so the machine finds them too.
    unfold Machine.wordIndex?
    simp only [hm]
    rw [if_neg (by omega)]
  · cases h

end Frame

/-! ## Keeping the relation -/

theorem Related.mono {live' : VReg → Prop} (h : A.Related live s m)
    (hsub : ∀ u, live' u → live u) : A.Related live' s m :=
  ⟨h.zero, h.sp_eq, h.fits, fun u l hu hl => h.values u l (hsub u hu) hl, h.words_eq⟩

variable {fl : Flow} (hs : A.cx.placed.Sound A.cx.vars fl)

include hs

/-- Code that touches no register in use keeps the relation. -/
theorem Related.keep {live' : VReg → Prop} {touched : Reg → Prop} (h : A.Related live s m)
    (hk : Keeps touched m m') (hmem : m'.mem = m.mem) (hx0 : ¬ touched Reg.x0)
    (hsub : ∀ u, live' u → live u)
    (hregs : ∀ (u : VReg) (r : Reg), live' u → A.cx.placed.locs[u]? = some (.reg r) →
      ¬ touched r) : A.Related live' s m' := by
  refine ⟨?_, hk.sp.trans h.sp_eq, by rw [hmem]; exact h.fits, fun u l hu hl => ?_, fun k hd => ?_⟩
  · rw [hk.val _ (by decide) hx0, h.zero]
  · rw [← h.values u l (hsub u hu) hl]
    -- spilled values are in memory, which is the same; the others are in registers not touched
    cases l with
    | reg r => exact hk.val r (Reg.valid_of_mem_allocatable (hs.allocatable u r hl)) (hregs u r hu hl)
    | stack slot n => simp only [valueAt, hmem]
  · rw [hmem, h.words_eq k hd]

/-- Code that touches the scratch registers alone keeps the relation. -/
theorem Related.scratch (h : A.Related live s m) (hk : Keeps Reg.Scratch m m')
    (hmem : m'.mem = m.mem) : A.Related live s m' := by
  refine h.keep hs hk hmem ?_ (fun u hu => hu) fun u r _ hl => ?_
  · rintro (h | h) <;> exact absurd h (by decide)
  · exact Reg.not_scratch_of_allocatable (hs.allocatable u r hl)

/-! ## Fetching operands -/

/-- The code leaves the value `w` in register `r` and touches nothing but `scratch`. -/
structure Fetched (A : Activation) (scratch : Reg) (code : List Instr) (r : Reg) (w : Word)
    (m m' : Machine) : Prop where
  line : line? A.im A.func m code = some m'
  val_eq : m'.val r = w
  mem_eq : m'.mem = m.mem
  keeps : Keeps (· = scratch) m m'
  valid : r.Valid
  source : r = scratch ∨ ¬ r.Scratch

omit hs in
/-- Code that leaves a value in the scratch register fetches it there. -/
theorem fetched_of_writes {scratch : Reg} (hscr : scratch.Scratch) {code : List Instr} {w : Word}
    (h : Writes A.im A.func m code scratch w) : ∃ m', Fetched A scratch code scratch w m m' := by
  obtain ⟨m', hline, hval, hmem, hkeeps⟩ := h
  exact ⟨m', hline, hval, hmem, hkeeps, hscr.valid, Or.inl rfl⟩

omit hs in
/-- A virtual register is fetched from its slot, or is in its register already. -/
theorem fetch_of_vreg {scratch r : Reg} {v : Val} {u : VReg} {code : List Instr}
    (hu : A.cx.vars.vreg? v = some u) (h : Lowering.fetch A.cx scratch v = .ok (code, r)) :
    (∃ slot n, A.cx.placed.locs[u]? = some (.stack slot n) ∧ code = [.loadStack scratch slot] ∧
      r = scratch) ∨ (A.cx.placed.locs[u]? = some (.reg r) ∧ code = []) := by
  unfold Lowering.fetch at h
  -- Constants have no virtual register.
  split at h
  · cases hu
  · rw [hu] at h
    simp only at h
    split at h
    · cases h
    · next slot n hl =>
      cases h
      exact Or.inl ⟨slot, n, hl, rfl, rfl⟩
    · next q hl =>
      cases h
      exact Or.inr ⟨hl, rfl⟩

/-- A value in a location. -/
theorem Related.fetch_vreg (h : A.Related live s m) {scratch : Reg} (hscr : scratch.Scratch)
    {v : Val} {u : VReg} {code : List Instr} {r : Reg} (hu : A.cx.vars.vreg? v = some u)
    (hlive : live u) (hcode : Lowering.fetch A.cx scratch v = .ok (code, r)) :
    ∃ m', Fetched A scratch code r (s.env u) m m' := by
  -- From the frame into the scratch register, or where it is already.
  rcases fetch_of_vreg hu hcode with ⟨slot, n, hl, rfl, rfl⟩ | ⟨hl, rfl⟩
  · obtain ⟨h0, h1⟩ := hs.values_inside u slot n hl
    have hcov := h.fits.covers
    have hidx := h.fits.wordIndex?_slot rfl h0 (by omega)
    rw [← h.values u _ hlive hl]
    refine fetched_of_writes hscr (writes_loadStack h.zero hscr.valid hscr.ne_x0 ?_)
    rw [slotAddr, h.sp_eq, hidx]
  · have hq := hs.allocatable u r hl
    exact ⟨m, rfl, h.values u _ hlive hl, rfl, Keeps.refl _ _,
      Reg.valid_of_mem_allocatable hq, Or.inr (Reg.not_scratch_of_allocatable hq)⟩

omit hs in
/-- A global, or the address of an array. -/
theorem Related.fetch_var (h : A.Related live s m) {scratch : Reg} (hscr : scratch.Scratch)
    {id : VarId} {code : List Instr} {r : Reg} {w : Word}
    (hnone : A.cx.vars.vreg? (.var id) = none)
    (hcode : Lowering.fetch A.cx scratch (.var id) = .ok (code, r))
    (hw : s.eval A.layout A.cx.vars (.var id) = some w) :
    ∃ m', Fetched A scratch code r w m m' := by
  simp only [Lowering.fetch, hnone] at hcode
  simp only [Semantics.State.eval, hnone] at hw
  split at hcode
  · cases hcode
  · next x hx =>
    simp only [hx, Option.bind_eq_bind, Option.bind_some] at hw
    split at hcode
    · next hcls harr =>
      cases hcode
      rw [if_pos hcls, Option.bind_eq_some_iff] at hw
      obtain ⟨a, ha, hw⟩ := hw
      rw [if_pos harr] at hw
      obtain rfl := Option.some.inj hw
      exact fetched_of_writes hscr (writes_addrGlobal h.zero hscr.valid hscr.ne_x0 ha)
    · next hcls harr =>
      cases hcode
      rw [if_pos hcls, Option.bind_eq_some_iff] at hw
      obtain ⟨a, ha, hw⟩ := hw
      rw [if_neg (by rw [harr]; decide)] at hw
      obtain ⟨k, hk, rfl⟩ := Option.map_eq_some_iff.1 hw
      obtain ⟨hidx, hdata⟩ := h.fits.wordIndex?_data rfl hk
      rw [← h.words_eq k hdata]
      -- a global is read through its address, which the layout and the machine agree on
      exact fetched_of_writes hscr (writes_loadGlobal h.zero hscr.valid hscr.ne_x0 ha hidx)
    · next hcls1 hcls2 =>
      -- neither case of a global: a local array, whose address is a slot of the frame
      have hcls : x.cls ≠ .global := by
        intro hg
        cases harr : x.isArray
        · exact hcls2 hg harr
        · exact hcls1 hg harr
      rw [if_neg hcls] at hw
      split at hcode
      · cases hcode
      · next l hl =>
        cases hcode
        simp only [layout, hl, Option.map_some] at hw
        obtain rfl := Option.some.inj hw
        have hwrites : Writes A.im A.func m [.addrStack scratch l.slot] scratch
            (m.slotAddr l.slot) :=
          writes_addrStack h.zero hscr.valid hscr.ne_x0 l.slot
        rw [slotAddr, h.sp_eq] at hwrites
        exact fetched_of_writes hscr hwrites

/-- An operand ends up in the register that the code names. -/
theorem Related.fetch (h : A.Related live s m) {scratch : Reg} (hscr : scratch.Scratch) {v : Val}
    {code : List Instr} {r : Reg} {w : Word}
    (hcode : Lowering.fetch A.cx scratch v = .ok (code, r))
    (hlive : ∀ u, A.cx.vars.vreg? v = some u → live u)
    (hw : s.eval A.layout A.cx.vars v = some w) : ∃ m', Fetched A scratch code r w m m' := by
  cases hu : A.cx.vars.vreg? v with
  | some u =>
    rw [Semantics.State.eval_of_vreg hu] at hw
    obtain rfl := Option.some.inj hw
    exact h.fetch_vreg hs hscr hu (hlive u hu) hcode
  | none =>
    cases v with
    | const n =>
      simp only [Lowering.fetch] at hcode
      simp only [Semantics.State.eval] at hw
      obtain rfl := Option.some.inj hw
      split at hcode
      · next h0 =>
        cases hcode
        -- zero needs no code, as `x0` holds it
        refine ⟨m, rfl, ?_, rfl, Keeps.refl _ _, by decide, Or.inr ?_⟩
        · rw [h.zero, h0]
          rfl
        · rintro (h | h) <;> exact absurd h (by decide)
      · cases hcode
        exact fetched_of_writes hscr (writes_imm h.zero hscr.valid hscr.ne_x0 n)
    | temp n =>
      simp only [Lowering.fetch, hu] at hcode
      cases hcode
    | var id => exact h.fetch_var hscr hu hcode hw

/-! ## Taking results to their places -/

/-- The word of a spilled value belongs to no global and no array. -/
theorem data_frameWord {size : Nat} (hf : A.Fits size) {u : VReg} {slot n : Int}
    (hl : A.cx.placed.locs[u]? = some (.stack slot n)) : A.data (A.frameWord slot) = false := by
  obtain ⟨h0, h1⟩ := hs.values_inside u slot n hl
  have hcov := hf.covers
  -- what belongs to the data in the frame is part of an array, and values are apart from these
  cases hd : A.data (A.frameWord slot) with
  | false => rfl
  | true =>
    obtain ⟨id, l, harr, hmem⟩ := hf.data_apart slot h0 (by omega) hd
    exact absurd hmem (hs.apart u id slot n l hl harr)

/-- After a write to a word that belongs to globals and arrays. -/
theorem Related.store (h : A.Related live s m) (hk : Keeps Reg.Scratch m m') {k : Nat} {x : Word}
    (hdata : A.data k = true) (hmem : m'.mem = m.mem.set k x) :
    A.Related live { s with mem := Function.update s.mem k x } m' := by
  have hx0 : ¬ Reg.x0.Scratch := by rintro (h | h) <;> exact absurd h (by decide)
  refine ⟨?_, hk.sp.trans h.sp_eq, by rw [hk.size]; exact h.fits, fun u l hu hl => ?_,
    fun j hj => ?_⟩
  · rw [hk.val _ (by decide) hx0, h.zero]
  · rw [← h.values u l hu hl]
    cases l with
    | reg r =>
      have hr := hs.allocatable u r hl
      exact hk.val r (Reg.valid_of_mem_allocatable hr) (Reg.not_scratch_of_allocatable hr)
    | stack slot n =>
      -- A word of the frame is not among those that statements reach.
      have hne : k ≠ A.frameWord slot := by
        rintro rfl
        rw [data_frameWord hs h.fits hl] at hdata
        cases hdata
      simp only [valueAt, hmem, Memory.get_set, if_neg hne]
  · simp only [hmem, Memory.get_set, Function.update_apply]
    by_cases hjk : k = j
    · rw [if_pos hjk, if_pos hjk.symm]
    · rw [if_neg hjk, if_neg (Ne.symm hjk), h.words_eq j hj]

/-- After a value was put into its location: other values keep theirs, being apart. -/
theorem Related.put {live' : VReg → Prop} (h : A.Related live s m) {u : VReg} {l : Loc} {w : Word}
    (hl : A.cx.placed.locs[u]? = some l) (hz : m'.val Reg.x0 = 0) (hsp : m'.sp = m.sp)
    (hsize : m'.mem.size = m.mem.size) (hvalue : A.valueAt m' l = w)
    (hregs : ∀ r ∈ Reg.allocatable, l ≠ .reg r → m'.val r = m.val r)
    (hmem : ∀ k, (∀ slot n, l = .stack slot n → k ≠ A.frameWord slot) →
      m'.mem.get k = m.mem.get k)
    (hkept : ∀ v, live' v → v ≠ u → live v)
    (hapart : ∀ v l', live' v → v ≠ u → A.cx.placed.locs[v]? = some l' → l.clashes l' = false) :
    A.Related live' { s with env := Function.update s.env u w } m' := by
  refine ⟨hz, hsp.trans h.sp_eq, by rw [hsize]; exact h.fits, fun v l' hv hl' => ?_,
    fun k hk => ?_⟩
  -- Either the value that was written, or another one, whose location does not clash with it.
  · by_cases hvu : v = u
    · subst hvu
      rw [hl] at hl'
      obtain rfl := Option.some.inj hl'
      simp only [hvalue, Function.update_self]
    · -- another live value: its location does not clash with the one that was written
      have hclash := hapart v l' hv hvu hl'
      simp only [Function.update_of_ne hvu]
      rw [← h.values v l' (hkept v hv hvu) hl']
      cases l' with
      | reg q =>
        refine hregs q (hs.allocatable v q hl') ?_
        rintro rfl
        simp [Loc.clashes] at hclash
      | stack slot n =>
        refine hmem _ ?_
        rintro slot' n' rfl heq
        have h0 := (hs.values_inside v slot n hl').1
        have h0' := (hs.values_inside u slot' n' hl).1
        have := h.fits.frameWord_injective h0 h0' heq
        simp [Loc.clashes, this] at hclash
  · rw [← h.words_eq k hk]
    refine hmem k ?_
    rintro slot n rfl rfl
    rw [data_frameWord hs h.fits hl] at hk
    cases hk

section Results

variable {live' : VReg → Prop} {dst : Val} {d : Reg} {u : VReg} {w : Word} {m₁ : Machine}

/-- A spilled result is computed in a scratch register and stored from there. -/
theorem Related.assign_slot (h : A.Related live s m) {slot n : Int}
    (hu : A.cx.vars.vreg? dst = some u) (hl : A.cx.placed.locs[u]? = some (.stack slot n))
    (hval : m₁.val Reg.scratch0 = w) (hmem : m₁.mem = m.mem)
    (hkeeps : Keeps (· = Reg.scratch0) m m₁) (hkept : ∀ v, live' v → v ≠ u → live v)
    (hapart : ∀ v l', live' v → v ≠ u → A.cx.placed.locs[v]? = some l' →
      (Loc.stack slot n).clashes l' = false) :
    ∃ m₂, line? A.im A.func m₁ (Lowering.finish A.cx dst Reg.scratch0) = some m₂ ∧
      A.Related live' { s with env := Function.update s.env u w } m₂ ∧
      ∀ k, k ≠ A.frameWord slot → m₂.mem.get k = m.mem.get k := by
  obtain ⟨h0, h1⟩ := hs.values_inside u slot n hl
  have hcov := h.fits.covers
  have hz : m₁.val Reg.x0 = 0 := by
    rw [hkeeps.val _ (by decide) (by decide), h.zero]
  have hidx : m₁.wordIndex? (m₁.slotAddr slot) = some (A.frameWord slot) := by
    rw [slotAddr, hkeeps.sp, h.sp_eq]
    exact h.fits.wordIndex?_slot (by rw [hkeeps.size]) h0 (by omega)
  obtain ⟨m₂, hline, hmem₂, hkeeps₂⟩ : Stores A.im A.func m₁ [.storeStack Reg.scratch0 slot]
    (A.frameWord slot) (m₁.val Reg.scratch0) := stores_storeStack hz (by decide) hidx
  have hrest : ∀ k, k ≠ A.frameWord slot → m₂.mem.get k = m.mem.get k := by
    intro k hk
    rw [hmem₂, Memory.get_set, if_neg (Ne.symm hk), hmem]
  refine ⟨m₂, by simp only [Lowering.finish, hu, hl]; exact hline, ?_, hrest⟩
  refine h.put hs hl ?_ (hkeeps₂.sp.trans hkeeps.sp) (hkeeps₂.size.trans hkeeps.size) ?_
    (fun r hr _ => ?_) (fun k hk => hrest k (hk slot n rfl)) hkept hapart
  · rw [hkeeps₂.val _ (by decide) not_false, hz]
  · simp only [valueAt, hmem₂, Memory.get_set, if_pos, hval]
  · -- no value lives in the scratch register
    have hne : ¬ r = Reg.scratch0 := fun heq => Reg.not_scratch_of_allocatable hr (Or.inl heq)
    have hv := Reg.valid_of_mem_allocatable hr
    rw [hkeeps₂.val r hv not_false, hkeeps.val r hv hne]

/-- A result that lives in a register is computed there. -/
theorem Related.assign_reg (h : A.Related live s m) (hu : A.cx.vars.vreg? dst = some u)
    (hl : A.cx.placed.locs[u]? = some (.reg d)) (hval : m₁.val d = w) (hmem : m₁.mem = m.mem)
    (hkeeps : Keeps (· = d) m m₁) (hkept : ∀ v, live' v → v ≠ u → live v)
    (hapart : ∀ v l', live' v → v ≠ u → A.cx.placed.locs[v]? = some l' →
      (Loc.reg d).clashes l' = false) :
    line? A.im A.func m₁ (Lowering.finish A.cx dst d) = some m₁ ∧
      A.Related live' { s with env := Function.update s.env u w } m₁ := by
  have hd := hs.allocatable u d hl
  refine ⟨by simp only [Lowering.finish, hu, hl]; rfl, ?_⟩
  refine h.put hs hl ?_ hkeeps.sp hkeeps.size hval (fun r hr hne => ?_) (fun k _ => by rw [hmem])
    hkept hapart
  · rw [hkeeps.val _ (by decide) (Ne.symm (Reg.ne_x0_of_allocatable hd)), h.zero]
  · exact hkeeps.val r (Reg.valid_of_mem_allocatable hr) fun heq => hne (by rw [heq])

/-- The result for a global is computed in one scratch register and stored through the other. -/
theorem Related.assign_global (h : A.Related live s m) {id : VarId} {x : Var} {a : Word} {k : Nat}
    (hu : A.cx.vars.vreg? (.var id) = none) (hx : A.cx.vars.get? id = some x)
    (ha : A.im.globals[x.index]? = some a) (hk : A.layout.index? a = some k)
    (hval : m₁.val Reg.scratch0 = w) (hmem : m₁.mem = m.mem)
    (hkeeps : Keeps (· = Reg.scratch0) m m₁) :
    ∃ m₂, line? A.im A.func m₁ (Lowering.finish A.cx (.var id) Reg.scratch0) = some m₂ ∧
      A.Related live { s with mem := Function.update s.mem k w } m₂ ∧
      ∀ j, A.data j = false → m₂.mem.get j = m.mem.get j := by
  have hz : m₁.val Reg.x0 = 0 := by
    rw [hkeeps.val _ (by decide) (by decide), h.zero]
  obtain ⟨m₂, hline₂, hval₂, hmem₂, hkeeps₂⟩ : Writes A.im A.func m₁
    [.addrGlobal Reg.scratch1 x.index] Reg.scratch1 a :=
      writes_addrGlobal hz (by decide) (by decide) ha
  have hz₂ : m₂.val Reg.x0 = 0 := by
    rw [hkeeps₂.val _ (by decide) (by decide), hz]
  obtain ⟨hidx, hdata⟩ : m₂.wordIndex? a = some k ∧ A.data k = true :=
    h.fits.wordIndex?_data (by rw [hkeeps₂.size, hkeeps.size]) hk
  have haddr : m₂.val Reg.scratch1 + word 0 = a := by
    rw [hval₂]
    exact Int32.add_zero a
  obtain ⟨m₃, hline₃, hmem₃, hkeeps₃⟩ : Stores A.im A.func m₂
    [.store Reg.scratch1 0 Reg.scratch0] k (m₂.val Reg.scratch0) :=
      stores_store hz₂ (by decide) (by decide) (by decide) (by rw [haddr, hidx])
  -- the address goes to the other scratch register, so the result is still there
  have hmem₃ : m₃.mem = m.mem.set k w := by
    rw [hmem₃, hmem₂, hmem, hkeeps₂.val _ (by decide) (by decide), hval]
  have hall : Keeps Reg.Scratch m m₃ :=
    ((hkeeps.mono fun q hq => Or.inl hq).trans (hkeeps₂.mono fun q hq => Or.inr hq)).trans
      (hkeeps₃.mono fun q hq => hq.elim)
  refine ⟨m₃, ?_, h.store hs hall hdata hmem₃, fun j hj => ?_⟩
  · simp only [Lowering.finish, hu, hx]
    exact line?_append_of hline₂ hline₃
  · have hne : ¬ k = j := by
      rintro rfl
      rw [hdata] at hj
      cases hj
    rw [hmem₃, Memory.get_set, if_neg hne]

/-- A result computed in its target register is taken to its place; words outside globals, arrays
and its own location stay. -/
theorem Related.assign (h : A.Related live s m) {s' : Semantics.State}
    (htarget : Lowering.target A.cx dst = .ok d) (hval : m₁.val d = w) (hmem : m₁.mem = m.mem)
    (hkeeps : Keeps (· = d) m m₁) (hassign : s.assign A.layout A.cx.vars dst w = some s')
    (hkept : ∀ v, live' v → A.cx.vars.vreg? dst ≠ some v → live v)
    (hapart : ∀ u v l l', A.cx.vars.vreg? dst = some u → live' v → v ≠ u →
      A.cx.placed.locs[u]? = some l → A.cx.placed.locs[v]? = some l' → l.clashes l' = false) :
    ∃ m₂, line? A.im A.func m₁ (Lowering.finish A.cx dst d) = some m₂ ∧ A.Related live' s' m₂ ∧
      ∀ k, A.data k = false → (∀ u slot n, A.cx.vars.vreg? dst = some u →
        A.cx.placed.locs[u]? = some (.stack slot n) → k ≠ A.frameWord slot) →
          m₂.mem.get k = m.mem.get k := by
  -- a virtual register has a slot or a register of its own; any other target is a global
  cases hu : A.cx.vars.vreg? dst with
  | some u =>
    simp only [Semantics.State.assign, hu] at hassign
    obtain rfl := Option.some.inj hassign
    simp only [Lowering.target, hu] at htarget
    have hkept' : ∀ v, live' v → v ≠ u → live v := fun v hv hne =>
      hkept v hv (by rw [hu]; exact fun heq => hne (Option.some.inj heq).symm)
    split at htarget
    · cases htarget
    · next slot n hl =>
      cases htarget
      obtain ⟨m₂, hline, hrel, hrest⟩ := h.assign_slot hs hu hl hval hmem hkeeps hkept'
        fun v l' hv hne hl' => hapart u v _ l' hu hv hne hl hl'
      exact ⟨m₂, hline, hrel, fun k _ hk => hrest k (hk u slot n rfl hl)⟩
    · next r hl =>
      cases htarget
      obtain ⟨hline, hrel⟩ := h.assign_reg hs hu hl hval hmem hkeeps hkept'
        fun v l' hv hne hl' => hapart u v _ l' hu hv hne hl hl'
      exact ⟨m₁, hline, hrel, fun k _ _ => by rw [hmem]⟩
  | none =>
    have hkept' : ∀ v, live' v → live v := fun v hv => hkept v hv (by rw [hu]; simp)
    cases dst with
    | const n => simp [Semantics.State.assign, hu] at hassign
    | temp n => simp [Semantics.State.assign, hu] at hassign
    | var id =>
      simp only [Semantics.State.assign, hu] at hassign
      simp only [Lowering.target, hu] at htarget
      obtain ⟨x, hx, hassign⟩ := Option.bind_eq_some_iff.1 hassign
      rw [hx] at htarget
      simp only at htarget
      split at hassign
      · next hglobal =>
        rw [if_pos hglobal] at htarget
        cases htarget
        obtain ⟨a, ha, hstore⟩ := Option.bind_eq_some_iff.1 hassign
        obtain ⟨k, hk, rfl⟩ := Option.map_eq_some_iff.1 hstore
        obtain ⟨m₂, hline, hrel, hrest⟩ := h.assign_global hs hu hx ha hk hval hmem hkeeps
        exact ⟨m₂, hline, hrel.mono hkept', fun j hj _ => hrest j hj⟩
      · cases hassign

end Results

end Activation

end Tac
