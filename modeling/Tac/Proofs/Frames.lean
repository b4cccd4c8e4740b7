import Tac.Proofs.Slots
import Tac.Proofs.ZeroFills

/-!
# Frames

Three passes share the frame of a function without seeing each other's work: allocation hands out
words to local arrays and spilled values, the sets of destroyed registers give the number of words
that calls need behind them, and lowering numbers the saved registers of each call again.

* **`Owner`, `Placement.words`** — who owns which words of a frame.
* **`Placement.exactWords`** — the size of a frame before any wrapping.
* **`FrameLayout`** — words of different owners are apart and inside the frame, code names no other
  words, and the return address lies above all of them.
* **`SavesApart`** — a call saves different registers in different words.
* **`ZeroesArray`** — a zero fill writes the words of its array and no others.
* **`program_frames`** — all of this for the functions of a lowered program.
-/

namespace Tac

open Tree.Generate

/-! ## Owners of words -/

/-- What owns words of a frame: a local array, a spilled value, or the register that calls save as
number `k`. -/
inductive Owner where
  | array (id : VarId)
  | value (u : VReg)
  | saved (k : Nat)
deriving DecidableEq, Repr

namespace Placement

/-- The words of the frame that belong to an owner; calls save up to `saves` registers. -/
def words (q : Placement) (saves : Nat) : Owner → Set Int
  | .array id => (q.arrays[id]?).elim ∅ Loc.words
  | .value u => (q.locs[u]?).elim ∅ Loc.words
  | .saved k => {s | k < saves ∧ s = q.spillSize + k}

/-- The values that live in the frame. -/
def spilled (q : Placement) : List VReg :=
  (q.locs.toList.filter fun z => z.2.isStack).map Prod.fst

/-- The words that a frame needs, counted without wrapping. -/
def exactWords (vars : VarTable) (sets : ClobberSets) (q : Placement) : Int :=
  Coloring.arrayWords vars q.func.locals + q.spilled.length + Clobber.callerSave sets q

/-- The bytes of the frame can be counted in 64 bits. -/
def Countable (vars : VarTable) (sets : ClobberSets) (q : Placement) : Prop :=
  4 * q.exactWords vars sets + 16 < 9223372036854775808

/-- The spilled values are those with a slot. -/
theorem mem_spilled {q : Placement} {u : VReg} :
    u ∈ q.spilled ↔ ∃ s n, q.locs[u]? = some (.stack s n) := by
  simp only [spilled, List.mem_map, List.mem_filter, Prod.exists, exists_and_right, exists_eq_right,
    Std.TreeMap.mem_toList_iff_getElem?_eq_some]
  constructor
  · rintro ⟨l, hl, hstack⟩
    cases l with
    | reg r => cases hstack
    | stack s n => exact ⟨s, n, hl⟩
  · rintro ⟨s, n, hl⟩
    exact ⟨_, hl, rfl⟩

/-- No value is listed twice. -/
theorem nodup_spilled (q : Placement) : q.spilled.Nodup := by
  apply List.Nodup.sublist (List.filter_sublist.map _)
  refine List.pairwise_map.2 (q.locs.distinct_keys_toList.imp fun h heq => h ?_)
  rw [heq]
  exact Std.ReflCmp.compare_self

namespace Allocated

variable {vars : VarTable} {regs : List Reg} {f : Func} {q : Placement} {a : Analysis}
  {c : Coloring} (h : q.Allocated vars regs f a c) (hregs : ∀ r ∈ regs, r.Valid)

include h hregs

/-- The coloring that was found is right for the graph and the arrays. -/
theorem colored : Coloring.Colored a.graph (Coloring.layoutArrays vars 0 {} q.func.locals).2 c := by
  have hgrow : a.graph.Growing := by
    obtain ⟨-, -, -, -, hgraph, -⟩ := Func.analyze_spec h.analyzed
    rw [hgraph]
    exact Graph.growing_build _ _
  have hok := h.no_error
  rw [← h.run_eq] at hok ⊢
  exact Coloring.run_spec hgrow (fun u hu => Func.lt_of_has_graph h.analyzed hu) hregs hok

/-- As many values have slots as were spilled. -/
theorem length_spilled : q.spilled.length = c.spills.length := by
  have hc := h.colored hregs
  have hperm : q.spilled.Perm (c.spills.map Spill.node) := by
    refine (List.perm_ext_iff_of_nodup q.nodup_spilled hc.nodup).2 fun u => ?_
    rw [mem_spilled, h.locs_eq, List.mem_map]
    constructor
    · rintro ⟨s, n, hl⟩
      obtain ⟨p, hp, hnode, -⟩ := (hc.stack_iff u s n).1 hl
      exact ⟨p, hp, hnode⟩
    · rintro ⟨p, hp, hnode⟩
      exact ⟨_, _, (hc.stack_iff u _ _).2 ⟨p, hp, hnode, rfl, rfl⟩⟩
  rw [hperm.length_eq, List.length_map]

end Allocated

/-- The words that a placement hands out, as long as their number fits 64 bits. -/
structure Arranged (vars : VarTable) (q : Placement) : Prop where
  size : q.spillSize = Coloring.arrayWords vars q.func.locals + q.spilled.length
  size_nonneg : 0 ≤ q.spillSize
  array : ∀ (id : VarId) (l : Loc), q.arrays[id]? = some l →
    ∃ s n, l = .stack s n ∧ 0 ≤ s ∧ 0 < n ∧ s + n ≤ q.spillSize
  spans : ∀ id ∈ q.func.locals, ∀ v, vars.get? id = some v → v.isArray = true →
    ∃ s, q.arrays[id]? = some (.stack s v.elems)
  value : ∀ (u : VReg) (s n : Int), q.locs[u]? = some (.stack s n) →
    n = 1 ∧ 0 ≤ s ∧ s < q.spillSize
  arrays_apart : ∀ (id jd : VarId) (l m : Loc), id ≠ jd → q.arrays[id]? = some l →
    q.arrays[jd]? = some m → Disjoint l.words m.words
  values_apart : ∀ (u v : VReg) (l m : Loc), u ≠ v → q.locs[u]? = some l →
    q.locs[v]? = some m → Disjoint l.words m.words
  apart : ∀ (u : VReg) (id : VarId) (l m : Loc), q.locs[u]? = some l → q.arrays[id]? = some m →
    Disjoint l.words m.words

/-- Allocation arranges the frame: arrays first, then a slot for each spilled value, none
of them shared. -/
theorem Allocated.arranged {vars : VarTable} {regs : List Reg} {f : Func} {q : Placement}
    {a : Analysis} {c : Coloring} (h : q.Allocated vars regs f a c) (hregs : ∀ r ∈ regs, r.Valid)
    (hpos : vars.Positive q.func.locals)
    (hfit : Coloring.arrayWords vars q.func.locals + q.spilled.length < 9223372036854775808) :
    q.Arranged vars := by
  have hc := h.colored hregs
  have hlen := h.length_spilled hregs
  have hok := h.no_error
  rw [hlen] at hfit
  -- arrays first, from word zero on
  obtain ⟨hlaid, hwords⟩ := Coloring.laid_layoutArrays vars q.func.locals 0 {} hpos
    Coloring.laid_empty le_rfl (by omega)
  rw [zero_add] at hlaid
  have harrays : q.arrays = (Coloring.layoutArrays vars 0 {} q.func.locals).1 := by
    rw [h.arrays_eq, ← h.run_eq]
    exact (Coloring.run_phases (h.run_eq ▸ hok)).1
  have hout : c.LaidOut vars q.func := by
    rw [← h.run_eq] at hc hok hfit ⊢
    exact Coloring.laidOut_run hc hok hpos hfit
  rw [Coloring.layoutArrays_slot vars q.func.locals 0 {} rfl, zero_add,
    wrap64_of_range (by omega) (by omega)] at hc
  have hsize : q.spillSize = Coloring.arrayWords vars q.func.locals + q.spilled.length := by
    rw [h.spillSize_eq, hc.size_eq, hlen, wrap64_of_range (by omega) (by omega)]
  refine ⟨hsize, by omega, fun id l hl => ?_, fun id hid v hv harr => ?_, fun u s n hl => ?_, ?_, ?_, ?_⟩
  · rw [harrays] at hl
    obtain ⟨s, n, rfl, h0, hn, htop⟩ := hlaid.inside id l hl
    exact ⟨s, n, rfl, h0, hn, by omega⟩
  · rw [h.arrays_eq]
    exact hout.spans id hid v hv harr
  · rw [h.locs_eq] at hl
    obtain ⟨p, hp, -, rfl, rfl⟩ := (hc.stack_iff u s n).1 hl
    obtain ⟨k, hk, hslot, -⟩ := hc.slot_of_mem hwords hfit hp
    exact ⟨rfl, by omega, by omega⟩
  · rw [h.arrays_eq]
    exact hout.arrays_disjoint
  · rw [h.locs_eq]
    exact hout.values_disjoint
  · rw [h.locs_eq, h.arrays_eq]
    exact hout.values_arrays

end Placement

/-! ## Layout -/

/-- The frame of a lowered function. -/
structure FrameLayout (cx : Lowering.Context) (f : CodeFunc) : Prop where
  stack_eq : f.stack = cx.placed.spillSize + Clobber.callerSave cx.sets cx.placed
  /-- Local arrays have as many words as elements, and spilled values one word. -/
  array : ∀ id ∈ cx.placed.func.locals, ∀ v, cx.vars.get? id = some v → v.isArray = true →
    ∃ s, cx.placed.words (Clobber.callerSave cx.sets cx.placed) (.array id) =
      Set.Ico s (s + v.elems)
  value : ∀ (u : VReg) (s n : Int), cx.placed.locs[u]? = some (.stack s n) →
    cx.placed.words (Clobber.callerSave cx.sets cx.placed) (.value u) = {s}
  inside : ∀ o, cx.placed.words (Clobber.callerSave cx.sets cx.placed) o ⊆ Set.Ico 0 f.stack
  disjoint : Pairwise fun o o' =>
    Disjoint (cx.placed.words (Clobber.callerSave cx.sets cx.placed) o)
      (cx.placed.words (Clobber.callerSave cx.sets cx.placed) o')
  slots : Slots (fun s => 0 ≤ s ∧ s < f.stack) f.body
  /-- The return address lies above all words. -/
  bytes : 4 * f.stack + 4 ≤ frameBytes f.stack ∧ 16 ∣ frameBytes f.stack

/-- The bytes of a frame have room for its words and the return address, and are aligned. -/
theorem frameBytes_room {stack : Int} (h0 : 0 ≤ stack) (hfit : 4 * stack + 16 < 9223372036854775808) :
    4 * stack + 4 ≤ frameBytes stack ∧ 16 ∣ frameBytes stack := by
  have hbytes : frameBytes stack = (stack / 4 + 1) * 16 := by
    rw [frameBytes, Int.tdiv_eq_ediv_of_nonneg h0]
    exact wrap64_of_range (by omega) (by omega)
  rw [hbytes]
  omega

namespace Lowering

open Machine

variable {cx : Context} {f : CodeFunc}

section Layout

variable (h : cx.placed.Arranged cx.vars)
  (hfit : cx.placed.Countable cx.vars cx.sets)

include h hfit

/-- The slots for saved registers lie behind those of the values. -/
theorem saveSlot_eq {k : Nat} (hk : k < Clobber.callerSave cx.sets cx.placed) :
    saveSlot cx k = cx.placed.spillSize + k := by
  have := h.size
  have := h.size_nonneg
  unfold Placement.Countable Placement.exactWords at hfit
  apply wrap64_of_range <;> omega

/-- All slots of lowered code are words of the frame. -/
theorem owned_of_arranged : Owned cx fun s =>
    0 ≤ s ∧ s < cx.placed.spillSize + Clobber.callerSave cx.sets cx.placed := by
  have hsize := h.size
  have hnonneg := h.size_nonneg
  constructor
  · intro u s n hl
    have := h.value u s n hl
    omega
  · intro id l hl
    obtain ⟨s, n, rfl, h0, hn, htop⟩ := h.array id l hl
    show 0 ≤ s ∧ s < _
    omega
  · intro id l hl k hk
    obtain ⟨s, n, rfl, h0, hn, htop⟩ := h.array id l hl
    have hk : k < n.toNat := hk
    -- The slots of an array are computed with wrapping, which does not show for a frame that
    -- can be counted.
    have hwrap : wrap64 (s + k) = s + k := by
      unfold Placement.Countable Placement.exactWords at hfit
      apply wrap64_of_range <;> omega
    show 0 ≤ wrap64 (s + k) ∧ wrap64 (s + k) < _
    omega
  · intro k hk
    rw [saveSlot_eq h hfit hk]
    omega

omit hfit

/-- What allocation hands out lies below the saved registers. -/
theorem words_placed (saves : Nat) {o : Owner} (ho : ∀ k, o ≠ .saved k) :
    cx.placed.words saves o ⊆ Set.Ico 0 cx.placed.spillSize := by
  intro s hs
  rw [Set.mem_Ico]
  -- Everything but the saved registers was placed by allocation.
  cases o with
  | array id =>
    cases hl : cx.placed.arrays[id]? with
    | none => simp [Placement.words, hl] at hs
    | some l =>
      obtain ⟨t, n, rfl, h0, -, htop⟩ := h.array id l hl
      simp only [Placement.words, hl, Option.elim_some, Loc.words, Set.mem_Ico] at hs
      omega
  | value u =>
    cases hl : cx.placed.locs[u]? with
    | none => simp [Placement.words, hl] at hs
    | some l =>
      cases l with
      | reg r => simp [Placement.words, hl, Loc.words] at hs
      | stack t n =>
        have := h.value u t n hl
        simp only [Placement.words, hl, Option.elim_some, Loc.words, Set.mem_Ico] at hs
        omega
  | saved k => exact absurd rfl (ho k)

/-- Every owner's words lie inside the frame. -/
theorem words_inside (saves : Nat) (o : Owner) :
    cx.placed.words saves o ⊆ Set.Ico 0 (cx.placed.spillSize + saves) := by
  have hnonneg := h.size_nonneg
  have hle : Set.Ico 0 cx.placed.spillSize ⊆ Set.Ico 0 (cx.placed.spillSize + saves) :=
    Set.Ico_subset_Ico_right (by omega)
  cases o with
  | array id => exact (words_placed h saves fun _ => Owner.noConfusion).trans hle
  | value u => exact (words_placed h saves fun _ => Owner.noConfusion).trans hle
  | saved k =>
    rintro s ⟨hk, rfl⟩
    rw [Set.mem_Ico]
    omega

/-- Words of different owners are apart. -/
theorem disjoint_words (saves : Nat) {o o' : Owner} (hne : o ≠ o') :
    Disjoint (cx.placed.words saves o) (cx.placed.words saves o') := by
  have hbelow : ∀ {o : Owner} (k : Nat), (∀ j, o ≠ .saved j) →
      Disjoint (cx.placed.words saves o) (cx.placed.words saves (.saved k)) := by
    intro o k ho
    rw [Set.disjoint_left]
    rintro s hs ⟨-, rfl⟩
    have := (words_placed h saves ho hs).2
    omega
  have hlocs : ∀ {x y : Option Loc}, (∀ l m, x = some l → y = some m → Disjoint l.words m.words) →
      Disjoint (x.elim ∅ Loc.words) (y.elim ∅ Loc.words) := by
    intro x y hxy
    cases x with
    | none => exact Set.empty_disjoint _
    | some l =>
      cases y with
      | none => exact Set.disjoint_empty _
      | some m => exact hxy l m rfl rfl
  -- Nine pairs of owners; those that involve saved registers are told apart by `hbelow`.
  cases o with
  | array id =>
    cases o' with
    | array jd => exact hlocs fun l m hl hm => h.arrays_apart id jd l m (fun he => hne (he ▸ rfl)) hl hm
    | value u => exact hlocs fun l m hl hm => (h.apart u id m l hm hl).symm
    | saved k => exact hbelow k fun _ => Owner.noConfusion
  | value u =>
    cases o' with
    | array id => exact hlocs fun l m hl hm => h.apart u id l m hl hm
    | value v => exact hlocs fun l m hl hm => h.values_apart u v l m (fun he => hne (he ▸ rfl)) hl hm
    | saved k => exact hbelow k fun _ => Owner.noConfusion
  | saved j =>
    cases o' with
    | array id => exact (hbelow j fun _ => Owner.noConfusion).symm
    | value u => exact (hbelow j fun _ => Owner.noConfusion).symm
    | saved k =>
      rw [Set.disjoint_left]
      rintro s ⟨-, rfl⟩ ⟨-, heq⟩
      have hjk : j = k := by omega
      exact hne (hjk ▸ rfl)

end Layout

/-! ## Calls -/

/-- The code of a call stores each saved register in a word of its own before the call, and takes
registers back from theirs after it. -/
inductive SavesApart (cx : Context) (i : Nat) (callee : String) (code : List Instr) : Prop where
  | intro (destroy : RegSet) (saved : List Reg) (slot : Reg → Int) (pass result : List Instr)
      (kept : Option Reg) (set : cx.sets[callee]? = some destroy)
      (saved_eq : saved = Clobber.saved cx.placed i destroy)
      (owned : ∀ r ∈ saved, ∃ k,
        slot r ∈ cx.placed.words (Clobber.callerSave cx.sets cx.placed) (.saved k))
      (apart : ∀ r ∈ saved, ∀ r' ∈ saved, slot r = slot r' → r = r')
      (code_eq : code = saved.map (fun r => .storeStack r (slot r)) ++ pass ++ [.call callee] ++
        result ++ (saved.filter fun r => some r ≠ kept).map fun r => .loadStack r (slot r))

/-- The frame slot in which a call saves a register. -/
def slotOf (cx : Context) (saved : List Reg) (r : Reg) : Int := saveSlot cx (saved.idxOf r)

section Numbering

variable {saved : List Reg} (h : saved.Nodup)

include h

/-- Each saved register is numbered by where it stands in the list. -/
theorem zipIdx_of_nodup : saved.zipIdx = saved.map fun r => (r, saved.idxOf r) := by
  apply List.ext_getElem
  · simp
  · intro k h1 h2
    simp [h.idxOf_getElem]

/-- Each saved register is stored to its own slot. -/
theorem saveCode_of_nodup :
    saveCode cx saved = saved.map fun r => .storeStack r (slotOf cx saved r) := by
  rw [saveCode, zipIdx_of_nodup h, List.map_map]
  rfl

/-- Each saved register but that of the result is loaded from its own slot. -/
theorem restoreCode_of_nodup (result : Option Reg) : restoreCode cx saved result =
    (saved.filter fun r => some r ≠ result).map fun r => .loadStack r (slotOf cx saved r) := by
  rw [restoreCode, zipIdx_of_nodup h, List.filter_map, List.map_map]
  rfl

end Numbering

/-- The saves of a call lie apart from all that is live across it. -/
theorem savesApart_call (h : cx.placed.Arranged cx.vars)
    (hfit : cx.placed.Countable cx.vars cx.sets) {i : Nat}
    {r : Option Val} {callee : String} {args : List Val} {code : List Instr}
    (hst : cx.placed.func.stmts[i]? = some (.call r callee args))
    (hcode : call cx i r callee args = .ok code) : SavesApart cx i callee code := by
  obtain ⟨destroy, pass, result, hset, -, -, -, -, rfl⟩ := call_parts hcode
  have hlen := Clobber.length_saved_le hst hset
  have hnodup : (Clobber.saved cx.placed i destroy).Nodup := RegSet.nodup_toList _
  rw [saveCode_of_nodup hnodup, restoreCode_of_nodup hnodup]
  generalize hsaved : Clobber.saved cx.placed i destroy = saved at hlen hnodup
  -- A call saves no more registers than the frame was laid out for.
  have hlt : ∀ q ∈ saved, saved.idxOf q < Clobber.callerSave cx.sets cx.placed := fun q hq =>
    (List.idxOf_lt_length_of_mem hq).trans_le hlen
  have hslot : ∀ q ∈ saved, slotOf cx saved q = cx.placed.spillSize + saved.idxOf q := fun q hq =>
    saveSlot_eq h hfit (hlt q hq)
  refine .intro destroy saved (slotOf cx saved) pass result _ hset hsaved.symm (fun q hq => ?_)
    (fun q hq q' hq' heq => ?_) rfl
  · exact ⟨_, hlt q hq, hslot q hq⟩
  · rw [hslot q hq, hslot q' hq'] at heq
    exact (List.idxOf_inj hq).1 (by omega)

/-! ## Zero fills -/

/-- The code at a place of a function writes zero to the words of an array and no other words of
memory, from any machine whose frame lies in memory. -/
def ZeroesArray (f : LoadedFunc) (stack : Int) (pc : Nat) (code : List Instr) (l : Loc) : Prop :=
  CodeAt f pc code ∧ ∀ (im : Image) (m : Machine), m.HasFrame stack → m.val Reg.x0 = 0 →
    ∃ m', Reaches im f m pc m' (pc + code.length) ∧
      m.mem.Filled (m.zeros l.slot l.span.toNat) m'.mem ∧ Keeps Reg.Scratch m m'

/-- The code of a zero fill clears its array and nothing else, inside the loaded function. -/
theorem zeroesArray_of_func {c c' : Counters} {pre : List Instr} {stack : Int}
    (h : cx.placed.Arranged cx.vars) (hfunc : func cx c = .ok (f, c')) (hpre : Unlabelled pre)
    (hfresh : LabelsFresh cx c) (hstack : cx.placed.spillSize ≤ stack) {k : Nat} {v : Val}
    (hst : cx.placed.func.stmts[k]? = some (.zeroFill v)) :
    ∃ id l, v = .var id ∧ cx.placed.arrays[id]? = some l ∧
      ZeroesArray (Image.loadFunc { f with body := pre ++ f.body }) stack
        (pre.length + start cx c k) (codeOf cx c k) l := by
  -- the place of the code and of its loop depend on the function alone
  have hload : Activation.Loaded ⟨⟨{}, {}, 0⟩, Image.loadFunc { f with body := pre ++ f.body }, cx, 0,
      0, fun _ => false⟩ c pre := Activation.loaded_of_func hfunc hpre rfl hfresh
  have hat : CodeAt (Image.loadFunc { f with body := pre ++ f.body })
      (pre.length + start cx c k) (codeOf cx c k) := hload.codeAt hst
  have hcode : zeroFill cx (labelAt cx c k) v = .ok (codeOf cx c k) := by
    have hstmt : stmt cx (labelAt cx c k) k (.zeroFill v) = .ok (codeOf cx c k) := hload.lowered k _ hst
    rwa [stmt, if_neg (by simp [elided, Stmt.dst?])] at hstmt
  obtain ⟨id, l, rfl, hl, hform⟩ := zeroFill_parts hcode
  refine ⟨id, l, rfl, hl, hat, fun im m hframe hz => ?_⟩
  obtain ⟨slot, span, rfl, h0, hpos, htop⟩ := h.array id l hl
  simp only [Loc.slot, Loc.span] at hform ⊢
  have hspan : (span.toNat : Int) = span := Int.toNat_of_nonneg hpos.le
  rcases hform with ⟨-, hform⟩ | ⟨hdraw, hform⟩
  · rw [hform] at hat ⊢
    obtain ⟨m', hline, hfill, hkeep⟩ : ∃ m', line? im (Image.loadFunc { f with body := pre ++ f.body }) m
          ((List.range span.toNat).map fun (k : Nat) => .storeStack Reg.x0 (wrap64 (slot + k))) = some m' ∧
        m.mem.Filled (m.zeros slot span.toNat) m'.mem ∧ Keeps (fun _ => False) m m' :=
      line_zeros hframe hz h0 (by omega)
    exact ⟨m', reaches_line hat hline, hfill, hkeep.mono fun _ hq => hq.elim⟩
  · have hlabel := hload.loop_at hst hdraw (o := (loopHead slot span).length) (by
      show (codeOf cx c k)[_]?.bind Instr.label? = some (labelAt cx c k)
      rw [hform, zeroLoop_eq, List.getElem?_append_right (le_refl _), Nat.sub_self]
      rfl)
    rw [hform] at hat ⊢
    have hloop : ∃ m', Reaches im (Image.loadFunc { f with body := pre ++ f.body }) m
          (pre.length + start cx c k) m'
          (pre.length + start cx c k + (zeroLoop (labelAt cx c k) slot span.toNat).length) ∧
        m.mem.Filled (m.zeros slot span.toNat) m'.mem ∧ Keeps Reg.Scratch m m' := by
      apply reaches_zeroLoop hframe hz h0
      · omega
      · omega
      · rw [hspan]
        exact hat
      · rw [hspan]
        exact hlabel
    rw [hspan] at hloop
    exact hloop

/-! ## Programs -/

/-- The counter of the program is above the labels of the function and has room for all labels that
lowering may draw. -/
structure LabelRoom (p : Program) (q : Func) : Prop where
  low : -9223372036854775808 ≤ p.counters.labels
  room : p.counters.labels + p.labelLimit < 9223372036854775808
  above : ∀ l ∈ labelsOf q.stmts, l < p.counters.labels

/-- The code of function `i`, with the labels drawn before it. -/
theorem exists_func_of_funcs {vars : VarTable} {sets : ClobberSets} {ps : List Placement}
    {c : Counters} {fs : List CodeFunc} (h : funcs vars sets c ps = .ok fs) {i : Nat} {q : Placement}
    (hq : ps[i]? = some q) : ∃ f c₁ c₂ n, fs[i]? = some f ∧
      funcOrBuiltin { vars, sets, placed := q } c₁ = .ok (f, c₂) ∧ c₁.labels = nth c.labels n ∧
      n + (q.func.stmts.length + 3) ≤ (ps.map fun q => q.func.stmts.length + 3).sum := by
  -- On the functions; the counter each of them starts with depends on those before.
  induction ps generalizing c fs i with
  | nil => cases hq
  | cons p ps ih =>
    obtain ⟨f, c', fs', hf, hfs, rfl⟩ := funcs_cons h
    simp only [List.map_cons, List.sum_cons]
    cases i with
    | zero =>
      cases hq
      exact ⟨f, c, c', 0, rfl, hf, rfl, by omega⟩
    | succ i =>
      obtain ⟨g, c₁, c₂, n, hg, hlower, hlabels, hle⟩ := ih hfs hq
      obtain ⟨d, hd, hlabel, -⟩ := emits_funcOrBuiltin hf
      refine ⟨g, c₁, c₂, d + n, hg, hlower, ?_, by simp only at hd; omega⟩
      rw [hlabels, hlabel, nth_add]

/-- The labels that are drawn for loops are none of the function's own. -/
theorem LabelRoom.fresh {p : Program} {c : Counters} {n : Nat} (h : LabelRoom p cx.placed.func)
    (hc : c.labels = nth p.counters.labels n)
    (hn : n + (cx.placed.func.stmts.length + 3) ≤ p.labelLimit) : LabelsFresh cx c := by
  have hlow := h.low
  have hroom := h.room
  -- The counter has not wrapped, as all labels stay below the limit.
  have heq : c.labels = p.counters.labels + n := by
    rw [hc, nth_eq (wrap64_of_range (by omega) (by omega)), wrap64_of_range (by omega) (by omega)]
  apply labelsFresh_of_room
  · omega
  · omega
  · intro l hl
    have := h.above l (List.mem_filterMap.2 ⟨_, hl, rfl⟩)
    omega

/-- A body behind the entry code is kept as it is, unless it is followed by that of a further `main`. -/
theorem getElem?_install {e : Entry} {zs : List (CodeFunc × Bool)} {i : Nat} {z : CodeFunc × Bool}
    (hz : zs[i]? = some z)
    (hlast : z.2 = true → ∀ j z', i < j → zs[j]? = some z' → z'.2 = false) :
    (e.install zs)[i]? = some (withEntry e z) := by
  obtain ⟨f, main⟩ := z
  simp only [Entry.install, List.getElem?_map, hz, Option.map_some]
  cases main with
  | false => rfl
  | true =>
    -- the last body that is written over the storage of the entry code is this one
    obtain ⟨hi, hget⟩ := List.getElem?_eq_some_iff.1 hz
    have hrest : (zs.drop (i + 1)).filter Prod.snd = [] := by
      refine List.filter_eq_nil_iff.2 fun z' hz' => ?_
      obtain ⟨k, hk⟩ := List.mem_iff_getElem?.1 hz'
      rw [List.getElem?_drop] at hk
      rw [hlast rfl _ z' (by omega) hk]
      exact Bool.false_ne_true
    have hsplit : zs.filter Prod.snd = (zs.take i).filter Prod.snd ++ [(f, true)] := by
      conv_lhs => rw [← List.take_append_drop i zs, List.drop_eq_getElem_cons hi, hget]
      rw [List.filter_append, List.filter_cons_of_pos rfl, hrest]
    simp only [hsplit, List.map_append, List.map_cons, List.map_nil, Entry.join_tail_concat, withEntry,
      if_true]

/-- What the code of a function does with its frame; `pre` stands before the code of statement
zero. -/
structure FrameCode (cx : Context) (p : Program) (f : CodeFunc) (c : Counters) (pre : List Instr) :
    Prop where
  body_eq : f.body = pre ++ codeTo cx c cx.placed.func.stmts.length
  saves : ∀ k r callee args, cx.placed.func.stmts[k]? = some (.call r callee args) →
    SavesApart cx k callee (codeOf cx c k)
  zeroes : LabelRoom p cx.placed.func → ∀ k v, cx.placed.func.stmts[k]? = some (.zeroFill v) →
    ∃ id l, v = .var id ∧ cx.placed.arrays[id]? = some l ∧
      ZeroesArray (Image.loadFunc f) f.stack (pre.length + start cx c k) (codeOf cx c k) l

/-- The layout of a lowered function: arrays, spilled values and saved registers have
words of their own, and the code stays inside the frame. -/
theorem frameLayout_of_arranged (h : cx.placed.Arranged cx.vars)
    (hfit : cx.placed.Countable cx.vars cx.sets)
    (hstack : f.stack = cx.placed.spillSize + Clobber.callerSave cx.sets cx.placed)
    (hslots : Slots (fun s => 0 ≤ s ∧ s < f.stack) f.body) : FrameLayout cx f := by
  have hsize := h.size
  have hnonneg := h.size_nonneg
  refine ⟨hstack, fun id hid v hv harray => ?_, fun u s n hl => ?_, fun o => ?_,
    fun o o' hne => disjoint_words h _ hne, hslots, frameBytes_room ?_ ?_⟩
  · obtain ⟨s, hs⟩ := h.spans id hid v hv harray
    exact ⟨s, by simp only [Placement.words, hs, Option.elim_some, Loc.words]⟩
  -- A spilled value takes one word.
  · obtain ⟨rfl, -, -⟩ := h.value u s n hl
    ext t
    simp only [Placement.words, hl, Option.elim_some, Loc.words, Set.mem_Ico, Set.mem_singleton_iff]
    omega
  · rw [hstack]
    exact words_inside h _ o
  · omega
  · unfold Placement.Countable Placement.exactWords at hfit
    omega

section Function

variable {c c' : Counters} (hfunc : func cx c = .ok (f, c')) (h : cx.placed.Arranged cx.vars)
  (hfit : cx.placed.Countable cx.vars cx.sets)

include hfunc h hfit

/-- The frame of a lowered function is what its values take and what its calls save. -/
theorem stack_of_func : f.stack = cx.placed.spillSize + Clobber.callerSave cx.sets cx.placed := by
  have hsize := h.size
  have hnonneg := h.size_nonneg
  unfold Placement.Countable Placement.exactWords at hfit
  rw [(func_parts hfunc).2.2]
  apply wrap64_of_range <;> omega

/-- The frame of one function, whose code stands behind plain code that names no slots. -/
theorem frame_of_func {p : Program} {pre : List Instr} (hpre : Plain pre)
    (hslots : ∀ P, Slots P pre) (hfresh : LabelRoom p cx.placed.func → LabelsFresh cx c) :
    FrameLayout cx { f with body := pre ++ f.body } ∧
      FrameCode cx p { f with body := pre ++ f.body } c pre := by
  have hstack := stack_of_func hfunc h hfit
  obtain ⟨hbody, hcodes⟩ := func_ok hfunc
  -- The layout speaks of the slots the code uses, the rest of its calls and zero fills.
  constructor
  · refine frameLayout_of_arranged h hfit hstack ((slots_append _ _).2 ⟨hslots _, ?_⟩)
    rw [hstack]
    exact slots_func (owned_of_arranged h hfit) hfunc
  · refine ⟨congrArg (pre ++ ·) hbody, fun k r callee args hst => ?_, fun hroom k v hst => ?_⟩
    · have hcall := hcodes k _ hst
      rw [stmt, if_neg (by simp [elided, Stmt.callee?])] at hcall
      exact savesApart_call h hfit hst hcall
    · refine zeroesArray_of_func h hfunc hpre.unlabelled (hfresh hroom) ?_ hst
      rw [hstack]
      omega

end Function

/-- The code of a function of a program: behind the entry code, if it is a `main` that no other one
follows. -/
theorem exists_code_of_program {p : Program} {sets : ClobberSets} {ps : List Placement} {code : Code}
    (hcode : program p sets ps = .ok code) {i : Nat} {q : Placement} (hq : ps[i]? = some q)
    (hlast : q.func.name = "main" → ∀ j q', i < j → ps[j]? = some q' → q'.func.name ≠ "main") :
    ∃ f c c' n pre, funcOrBuiltin ⟨p.vars, sets, q⟩ c = .ok (f, c') ∧
      code.funcs[i]? = some { f with body := pre ++ f.body } ∧ Plain pre ∧ (∀ P, Slots P pre) ∧
      c.labels = nth p.counters.labels n ∧
      n + (q.func.stmts.length + 3) ≤ (ps.map fun q => q.func.stmts.length + 3).sum := by
  obtain ⟨gs, fs, -, hfs, -, hinstall⟩ := program_parts hcode
  obtain ⟨f, c, c', n, hf, hlower, hlabels⟩ := exists_func_of_funcs hfs hq
  have hinstalled : code.funcs[i]? = some (withEntry (entry p gs) (f, q.func.name == "main")) := by
    rw [hinstall]
    -- The entry code goes to the last function of that name, so no later one may have it.
    refine getElem?_install ?_ fun hmain j z hj hz => ?_
    · rw [List.getElem?_zip_eq_some]
      exact ⟨hf, by simp [hq]⟩
    · obtain ⟨-, hflag⟩ := List.getElem?_zip_eq_some.1 hz
      rw [List.getElem?_map] at hflag
      obtain ⟨q', hq', hname⟩ := Option.map_eq_some_iff.1 hflag
      rw [← hname]
      exact beq_false_of_ne (hlast (beq_iff_eq.1 hmain) j q' hj hq')
  unfold withEntry at hinstalled
  -- Only the main function got the entry code before its own.
  split at hinstalled
  · exact ⟨f, c, c', n, _, hlower, hinstalled, plain_entry p gs, fun P => slots_entry p gs, hlabels⟩
  · exact ⟨f, c, c', n, [], hlower, hinstalled, plain_nil, fun P => slots_nil, hlabels⟩

/-- **Frames**: in a program whose functions are placed and lowered, every function without a
hand-written body has a frame whose words belong to one array, value or saved register each, code
that stays inside the frame, calls that save registers apart, and zero fills that write their array
and nothing else.  The words of the frame are to be countable in 64 bits, and a `main` must not be
followed by another one, with which it would share the storage of the entry code. -/
theorem program_frames {p : Program} {regs : List Reg} {sets : ClobberSets} {ps : List Placement}
    {code : Code} (hregs : ∀ r ∈ regs, r.Valid)
    (hplace : Program.placeFuncs p.vars regs p.funcs = .ok ps)
    (hcode : program p sets ps = .ok code) {i : Nat} {q : Placement} (hq : ps[i]? = some q)
    (hown : q.func.builtin = none) (hpos : p.vars.Positive q.func.locals)
    (hfit : q.Countable p.vars sets)
    (hlast : q.func.name = "main" → ∀ j q', i < j → ps[j]? = some q' → q'.func.name ≠ "main") :
    ∃ f c pre, code.funcs[i]? = some f ∧ FrameLayout ⟨p.vars, sets, q⟩ f ∧
      FrameCode ⟨p.vars, sets, q⟩ p f c pre := by
  have hforall := Program.forall₂_of_placeFuncs hplace
  -- The arrangement is a property of allocation, the rest is read off the code.
  have harranged : q.Arranged p.vars := by
    obtain ⟨g, -, hq'⟩ := exists_left_of_forall₂ hforall (List.mem_of_getElem? hq)
    obtain ⟨a, c, halloc⟩ := Func.allocated_of_ok hq'
    refine halloc.arranged hregs hpos ?_
    unfold Placement.Countable Placement.exactWords at hfit
    omega
  obtain ⟨f, c, c', n, pre, hlower, hf, hpre, hslots, hlabels, hn⟩ :=
    exists_code_of_program hcode hq hlast
  have hfunc := func_of_own hlower hown
  have hlimit : (ps.map fun q => q.func.stmts.length + 3).sum ≤ p.labelLimit :=
    Program.lengths_of_keeps (hforall.imp fun _ _ => Func.keeps_of_allocate)
  -- Labels are drawn from where the program's own end, so there have to be enough.
  have hfresh : LabelRoom p q.func → LabelsFresh ⟨p.vars, sets, q⟩ c := fun hroom =>
    LabelRoom.fresh hroom hlabels (hn.trans hlimit)
  have hframe : FrameLayout ⟨p.vars, sets, q⟩ { f with body := pre ++ f.body } ∧
      FrameCode ⟨p.vars, sets, q⟩ p { f with body := pre ++ f.body } c pre :=
    frame_of_func hfunc harranged hfit hpre hslots hfresh
  exact ⟨_, c, pre, hf, hframe⟩

/-! ## Frames of every kind -/

/-- A function of its own with local arrays of positive sizes and a frame that can be counted. -/
def Fitting (vars : VarTable) (sets : ClobberSets) (q : Placement) : Prop :=
  q.func.builtin = none ∧ vars.Positive q.func.locals ∧ q.Countable vars sets

instance (vars : VarTable) (sets : ClobberSets) (q : Placement) : Decidable (Fitting vars sets q) :=
  inferInstanceAs (Decidable (q.func.builtin = none ∧
    (∀ id ∈ q.func.locals, ∀ v ∈ vars.get? id, v.isArray = true → 0 < v.elems) ∧
      4 * q.exactWords vars sets + 16 < 9223372036854775808))

/-- A long and a short array. -/
def busyVars : VarTable := #[⟨"A", .loc, 0, some [20]⟩, ⟨"B", .loc, 1, some [3]⟩]

/-- Three values are live around a call. -/
def busyMain : Func where
  name := "main"
  void := false
  locals := [0, 1]
  stmts := [.zeroFill (.var 0), .zeroFill (.var 1), .move (.temp 0) (.const 1),
    .move (.temp 1) (.const 2), .move (.temp 2) (.const 3), .call none "putch" [.const 10],
    .binary (.temp 3) (.temp 0) .add (.temp 1), .binary (.temp 4) (.temp 3) .add (.temp 2),
    .ret (some (.temp 4))]

/-- The function alone. -/
def busyProgram : Program where
  vars := busyVars
  funcs := [busyMain]

/-- With two registers one value is spilled and two are saved, behind the words of the arrays. -/
theorem program_frames_busy : ∃ ps r code q f c pre,
    Program.placeFuncs busyVars [Reg.a 0, Reg.a 1] [busyMain] = .ok ps ∧
      Program.clobber ps = .ok r ∧ program busyProgram r.sets ps = .ok code ∧ ps[0]? = some q ∧
      code.funcs[0]? = some f ∧ f.stack = 26 ∧ FrameLayout ⟨busyVars, r.sets, q⟩ f ∧
      FrameCode ⟨busyVars, r.sets, q⟩ busyProgram f c pre ∧ LabelRoom busyProgram q.func := by
  -- Everything that can be computed is computed at once.
  have htest : ([busyMain].mapM (Func.placeOnce busyVars [Reg.a 0, Reg.a 1])).toOption.any (fun ps =>
      (Program.clobber ps).toOption.any fun r =>
        (program busyProgram r.sets ps).toOption.any fun code =>
          (code.funcs[0]?).any (fun f => f.stack == 26) && ps.length == 1 &&
          (ps[0]?).any fun q => decide (Fitting busyVars r.sets q) &&
            decide (labelsOf q.func.stmts = [])) = true := by
    decide +kernel
  obtain ⟨ps, hps, htest⟩ := exists_ok_of_any htest
  obtain ⟨r, hr, htest⟩ := exists_ok_of_any htest
  obtain ⟨code, hcode, htest⟩ := exists_ok_of_any htest
  simp only [Bool.and_eq_true, beq_iff_eq, Option.any_eq_true, decide_eq_true_eq] at htest
  obtain ⟨⟨⟨f', hf', hstack⟩, hlen⟩, q, hq, ⟨hown, hpos, hfit⟩, hlabels⟩ := htest
  have hplace := Program.placeFuncs_of_placeOnce hps
  have hlast : q.func.name = "main" → ∀ j q', 0 < j → ps[j]? = some q' → q'.func.name ≠ "main" := by
    intro _ j q' hj hq'
    have := (List.getElem?_eq_some_iff.1 hq').1
    omega
  obtain ⟨f, c, pre, hf, hlayout, hframe⟩ := program_frames (p := busyProgram) (by decide) hplace hcode
    hq hown hpos hfit hlast
  obtain rfl := Option.some.inj (hf'.symm.trans hf)
  refine ⟨ps, r, code, q, f', c, pre, hplace, hr, hcode, hq, hf, hstack, hlayout, hframe, by decide,
    by decide, fun l hl => ?_⟩
  rw [hlabels] at hl
  cases hl

/-! ## Sharpness -/

/-- The program has code, and all of its functions are as they should be. -/
def Lowers (p : Program) (code : Code) : Prop :=
  ∃ ps r, Program.placeFuncs p.vars [] p.funcs = .ok ps ∧ Program.clobber ps = .ok r ∧
    program p r.sets ps = .ok code ∧ ∀ q ∈ ps, Fitting p.vars r.sets q

/-- The code of a program of which nothing is pruned, if it is as `Lowers` asks. -/
def codeOnce? (p : Program) : Option Code :=
  match p.funcs.mapM (Func.placeOnce p.vars []) with
  | .error _ => none
  | .ok ps =>
    match Program.clobber ps with
    | .error _ => none
    | .ok r =>
      if ∀ q ∈ ps, Fitting p.vars r.sets q then (program p r.sets ps).toOption else none

/-- A program whose code was computed at once was lowered. -/
theorem lowers_of_codeOnce? {p : Program} {code : Code} (h : codeOnce? p = some code) :
    Lowers p code := by
  unfold codeOnce? at h
  split at h
  · cases h
  -- Each stage either failed, and then there is no code, or gives the next one its input.
  · next ps hps =>
    split at h
    · cases h
    · next r hr =>
      split at h
      · next hall =>
        refine ⟨ps, r, Program.placeFuncs_of_placeOnce hps, hr, ?_, hall⟩
        cases hcode : program p r.sets ps with
        | error e =>
          rw [hcode] at h
          cases h
        | ok c =>
          rw [hcode] at h
          rw [Option.some.inj h]
      · cases h

/-- One function leaves a value in word 1 of its frame; another one zeroes an array of `n` words there
and returns element 1, with the statements `between` behind the zero fill. -/
def staleProgram (k n : Int) (between : List Stmt) : Program where
  vars := #[⟨"A", .loc, 0, some [n]⟩, ⟨"D", .loc, 1, some [k]⟩]
  funcs := [{ name := "dirty", void := true, locals := [1]
              stmts := [.store (.var 1) 4 (.const 5), .ret none] },
    { name := "main", void := false, locals := [0]
      stmts := .zeroFill (.var 0) :: between ++ [.load (.temp 0) (.var 0) 4, .ret (some (.temp 0))] }]

/-- What `main` returns after `dirty` ran. -/
def afterDirty? (c : Code) : Option Word :=
  (ofCode? c []).map fun m =>
    ((m.call (Image.ofCode c) {} "dirty" []).1.call (Image.ofCode c) {} "main" []).1.val (Reg.a 0)

example : (codeOnce? (staleProgram 20 20 [])).bind afterDirty? = some 0 := by decide +kernel

/-- Two functions called `main`, the first without a frame. -/
def twinProgram : Program where
  vars := #[⟨"G", .global, 0, some [4]⟩, ⟨"A", .loc, 1, some [2]⟩]
  globals := [0]
  inits := [⟨0, 0, 1⟩, ⟨0, 4, 2⟩, ⟨0, 8, 3⟩, ⟨0, 12, 4⟩]
  funcs := [{ name := "main", void := true, stmts := [.ret none] },
    { name := "main", void := true, locals := [1], stmts := [.zeroFill (.var 1), .ret none] }]

/-- Its entry code: nine instructions in storage for twelve. -/
def twinEntry : Entry where
  code := [.addrGlobal (Reg.t 1) 0, .imm (Reg.t 0) 1, .store (Reg.t 1) 0 (Reg.t 0),
    .imm (Reg.t 0) 2, .store (Reg.t 1) 4 (Reg.t 0), .imm (Reg.t 0) 3, .store (Reg.t 1) 8 (Reg.t 0),
    .imm (Reg.t 0) 4, .store (Reg.t 1) 12 (Reg.t 0)]
  room := 3

/-- The entry code of the example. -/
theorem entry_twin : entry twinProgram [(0, ⟨"G", .global, 0, some [4]⟩)] = twinEntry := by
  have hinits : arrayInits twinProgram 0 = twinProgram.inits :=
    List.mergeSort_of_pairwise (by decide)
  have hpieces : arrayPieces twinProgram 0 ⟨"G", .global, 0, some [4]⟩ =
      [.addrGlobal Reg.scratch1 0] :: initPieces 0 twinProgram.inits := by
    rw [arrayPieces, hinits]
    rfl
  simp only [entry, List.flatMap_cons, List.flatMap_nil, hpieces]
  rw [twinEntry, Entry.mk.injEq]
  decide

/-- The first of the two functions has the code of the second. -/
theorem lowers_twin : ∃ code f, Lowers twinProgram code ∧ code.funcs[0]? = some f ∧ f.stack = 0 ∧
    .storeStack Reg.x0 0 ∈ f.body := by
  -- The functions are lowered, but the entry code is not evaluated: it is known from
  -- `entry_twin`.
  have htest : (twinProgram.funcs.mapM (Func.placeOnce twinProgram.vars [])).toOption.any (fun ps =>
      (Program.clobber ps).toOption.any fun r =>
        (funcs twinProgram.vars r.sets twinProgram.counters ps).toOption.any fun fs =>
          decide (∀ q ∈ ps, Fitting twinProgram.vars r.sets q) && decide (∃ q ∈ ps, q.func.name = "main") &&
          ((twinEntry.install (fs.zip (ps.map fun q => q.func.name == "main")))[0]?).any fun f =>
            f.stack == 0 && decide (.storeStack Reg.x0 0 ∈ f.body)) = true := by
    decide +kernel
  obtain ⟨ps, hps, htest⟩ := exists_ok_of_any htest
  obtain ⟨r, hr, htest⟩ := exists_ok_of_any htest
  obtain ⟨fs, hfs, htest⟩ := exists_ok_of_any htest
  simp only [Bool.and_eq_true, beq_iff_eq, Option.any_eq_true, decide_eq_true_eq] at htest
  obtain ⟨⟨hall, hmain⟩, f, hf, hstack, hmem⟩ := htest
  have hgs : globals? twinProgram = some [(0, ⟨"G", .global, 0, some [4]⟩)] := by decide
  obtain ⟨code, hcode⟩ := program_of_funcs hgs hfs hmain
  obtain ⟨fs', hfs', -, hfuncs⟩ := program_inv hcode hgs
  obtain rfl := Except.ok.inj (hfs.symm.trans hfs')
  rw [entry_twin] at hfuncs
  exact ⟨code, f, ⟨ps, r, Program.placeFuncs_of_placeOnce hps, hr, hcode, hall⟩, hfuncs ▸ hf, hstack, hmem⟩

/-- **No condition can go**: an array whose bytes wrap around 32 bits is not zeroed, and neither is one
whose loop draws a label that the function uses itself; and the first of two functions called `main`
stores outside its frame, as it shows the code of the second. -/
theorem program_frames_sharp :
    (∃ code, Lowers (staleProgram 3 1073741824 []) code ∧ afterDirty? code = some 5) ∧
      (∃ code, Lowers (staleProgram 20 20 [.label 0]) code ∧ afterDirty? code = some 5) ∧
      ∃ code f, Lowers twinProgram code ∧ code.funcs[0]? = some f ∧ f.stack = 0 ∧
        .storeStack Reg.x0 0 ∈ f.body := by
  have hlarge : (codeOnce? (staleProgram 3 1073741824 [])).any
      (fun code => afterDirty? code == some 5) = true := by decide +kernel
  have htaken : (codeOnce? (staleProgram 20 20 [.label 0])).any
      (fun code => afterDirty? code == some 5) = true := by decide +kernel
  simp only [Option.any_eq_true, beq_iff_eq] at hlarge htaken
  obtain ⟨large, hlarge, hstale⟩ := hlarge
  obtain ⟨taken, htaken, hstale'⟩ := htaken
  exact ⟨⟨large, lowers_of_codeOnce? hlarge, hstale⟩, ⟨taken, lowers_of_codeOnce? htaken, hstale'⟩,
    lowers_twin⟩

end Lowering

end Tac
