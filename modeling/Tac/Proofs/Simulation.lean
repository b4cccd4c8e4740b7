import Mathlib
import Tac.Proofs.Places

/-!
# Lowered code does what statements mean

A step of a statement is followed by the machine: from a state related to the one before the step it
gets to the code of the successor that the step chose, in a state related to the one after it.

* **`line_unrolled`, `reaches_loop`** — the two forms of a zero fill.  The loop is an induction on the
  words still to be cleared; its invariant (`Clearing`) says where the two scratch registers stand.
* **`AtCode`** — a jump goes on behind the label that it names, so a statement can be entered at two
  places.
* **`Follows`** — what the machine does for each outcome of a step.
* **`Activation.follows_step`** — the simulation, for every statement but calls.
-/

namespace Tac

namespace Semantics.State

/-- The words of an array are cleared one after the other. -/
theorem clear_of_le {L : Layout} {s s' : State} {a : Word} {n : Nat} (h : s.clear L a n = some s')
    {k : Nat} (hk : k ≤ n) : ∃ t, s.clear L a k = some t := by
  -- On the words; what is cleared later does not undo what is cleared already.
  induction n generalizing s' with
  | zero =>
    obtain rfl : k = 0 := by omega
    exact ⟨s, rfl⟩
  | succ n ih =>
    by_cases hkn : k = n + 1
    · exact ⟨s', by rw [hkn, h]⟩
    · obtain ⟨t, ht, _⟩ := Option.bind_eq_some_iff.1 h
      exact ih ht (by omega)

/-- Clearing one more word. -/
theorem clear_succ {L : Layout} {s t s' : State} {a : Word} {n : Nat}
    (ht : s.clear L a n = some t) (h : s.clear L a (n + 1) = some s') :
    ∃ k, L.index? (a + word (4 * n)) = some k ∧
      s' = { t with mem := Function.update t.mem k 0 } := by
  obtain ⟨t', ht', hstore⟩ := Option.bind_eq_some_iff.1 h
  rw [ht] at ht'
  obtain rfl := Option.some.inj ht'
  obtain ⟨k, hk, rfl⟩ := Option.map_eq_some_iff.1 hstore
  exact ⟨k, hk, rfl⟩

end Semantics.State

namespace Activation

open Machine Lowering

variable {A : Activation} {fl : Flow} {live : VReg → Prop} {s s' : Semantics.State} {m : Machine}

/-! ## Zero fills -/

section ZeroFill

variable (hs : A.cx.placed.Sound A.cx.vars fl) {slot : Int}

include hs

/-- Stores of zero, one for each word. -/
theorem line_unrolled (h : A.Related live s m) (h0 : 0 ≤ slot) {n : Nat}
    (hn : slot + n ≤ A.words) (hclear : s.clear A.layout (A.sp + word (4 * slot)) n = some s') :
    ∃ m', line? A.im A.func m
        ((List.range n).map fun (k : Nat) => .storeStack Reg.x0 (wrap64 (slot + k))) = some m' ∧
      A.Related live s' m' := by
  induction n generalizing s' with
  | zero =>
    cases hclear
    exact ⟨m, rfl, h⟩
  | succ n ih =>
    obtain ⟨t, ht⟩ := Semantics.State.clear_of_le hclear (Nat.le_succ n)
    obtain ⟨m₁, hline₁, hrel₁⟩ := ih (by omega) ht
    obtain ⟨k, hk, rfl⟩ := Semantics.State.clear_succ ht hclear
    obtain ⟨hidx, hdata⟩ := hrel₁.fits.wordIndex?_data rfl hk
    have hsmall := hrel₁.fits.small
    have habove := hrel₁.fits.above
    -- the frame is small, so slots do not wrap and their addresses are consecutive
    have haddr : m₁.slotAddr (wrap64 (slot + n)) = A.sp + word (4 * slot) + word (4 * n) := by
      rw [slotAddr, hrel₁.sp_eq, wrap64_of_range (by omega) (by omega), mul_add, word_add,
        Int32.add_assoc]
    obtain ⟨m₂, hline₂, hmem₂, hkeeps₂⟩ : Stores A.im A.func m₁
      [.storeStack Reg.x0 (wrap64 (slot + n))] k (m₁.val Reg.x0) :=
        stores_storeStack hrel₁.zero (by decide) (by rw [haddr, hidx])
    rw [hrel₁.zero] at hmem₂
    refine ⟨m₂, ?_, hrel₁.store hs (hkeeps₂.mono fun q hq => hq.elim) hdata hmem₂⟩
    rw [List.range_succ, List.map_append]
    exact line?_append_of hline₁ hline₂

/-- An instruction that only moves control keeps the relation. -/
theorem Related.idle (h : A.Related live s m) : A.Related live s m.tick.resetZero :=
  h.scratch hs ((keeps_idle h.zero).mono fun _ hq => hq.elim) rfl

/-- In a zeroing loop `t` words are cleared: the first scratch register holds the address of the next
one, the second the address to stop at. -/
structure Clearing (A : Activation) (live : VReg → Prop) (a : Word) (n t : Nat)
    (s : Semantics.State) (m : Machine) : Prop where
  related : A.Related live s m
  next : m.val Reg.scratch0 = a + word (4 * t)
  stop : m.val Reg.scratch1 = a + word (4 * n)

/-- Passing a label changes nothing for the loop. -/
theorem Clearing.idle {a : Word} {n t : Nat} (h : Clearing A live a n t s m) :
    Clearing A live a n t s m.tick.resetZero := by
  have hkeeps : Keeps (fun _ => False) m m.tick.resetZero := keeps_idle h.related.zero
  refine ⟨h.related.idle hs, ?_, ?_⟩
  · rw [hkeeps.val _ (by decide) not_false, h.next]
  · rw [hkeeps.val _ (by decide) not_false, h.stop]

/-- The code before the loop sets both registers. -/
theorem line_loopHead (h : A.Related live s m) (n : Nat) :
    ∃ m', line? A.im A.func m (loopHead slot n) = some m' ∧
      Clearing A live (A.sp + word (4 * slot)) n 0 s m' := by
  obtain ⟨m₁, hline₁, hval₁, hmem₁, hkeeps₁⟩ : Writes A.im A.func m
    [.addrStack Reg.scratch0 slot] Reg.scratch0 (m.slotAddr slot) :=
      writes_addrStack h.zero (by decide) (by decide) slot
  rw [slotAddr, h.sp_eq] at hval₁
  have hrel₁ := h.scratch hs (hkeeps₁.mono fun q hq => Or.inl hq) hmem₁
  -- both ways to add the size leave the stop address in the second register
  have hsize : Writes A.im A.func m₁
      (if immOverflows (wrap64 (4 * n)) then
        [.imm Reg.scratch1 (wrap64 (4 * n)), .binary Reg.scratch1 .add Reg.scratch0 Reg.scratch1]
      else [.addImm Reg.scratch1 Reg.scratch0 (wrap64 (4 * n))]) Reg.scratch1
      (A.sp + word (4 * slot) + word (4 * n)) := by
    rw [← word_wrap64 (4 * n), ← hval₁]
    split
    · obtain ⟨m₂, hline₂, hval₂, hmem₂, hkeeps₂⟩ : Writes A.im A.func m₁
        [.imm Reg.scratch1 (wrap64 (4 * n))] Reg.scratch1 (word (wrap64 (4 * n))) :=
          writes_imm hrel₁.zero (by decide) (by decide) _
      have hrel₂ := hrel₁.scratch hs (hkeeps₂.mono fun q hq => Or.inr hq) hmem₂
      obtain ⟨m₃, hline₃, hval₃, hmem₃, hkeeps₃⟩ : Writes A.im A.func m₂
        [.binary Reg.scratch1 .add Reg.scratch0 Reg.scratch1] Reg.scratch1
          (m₂.val Reg.scratch0 + m₂.val Reg.scratch1) :=
            writes_binary hrel₂.zero (by decide) (by decide) (by decide) (by decide) rfl
      refine ⟨m₃, line?_append_of hline₂ hline₃, ?_, by rw [hmem₃, hmem₂], hkeeps₂.trans hkeeps₃⟩
      rw [hval₃, hval₂, hkeeps₂.val _ (by decide) (by decide)]
    · next hsmall =>
      exact writes_addImm hrel₁.zero (by decide) (by decide) (by simpa using hsmall) (by decide)
  obtain ⟨m₂, hline₂, hval₂, hmem₂, hkeeps₂⟩ := hsize
  refine ⟨m₂, line?_append_of hline₁ hline₂,
    hrel₁.scratch hs (hkeeps₂.mono fun q hq => Or.inr hq) hmem₂, ?_, hval₂⟩
  rw [hkeeps₂.val _ (by decide) (by decide), hval₁]
  exact (Int32.add_zero _).symm

/-- The store and the increment of one turn. -/
theorem Clearing.turn {a : Word} {n t : Nat} {s₀ : Semantics.State}
    (h : Clearing A live a n t s m) (ht : s₀.clear A.layout a t = some s)
    (hclear : s₀.clear A.layout a (t + 1) = some s') :
    ∃ m', line? A.im A.func m [.store Reg.scratch0 0 Reg.x0, .addImm Reg.scratch0 Reg.scratch0 4] =
        some m' ∧ Clearing A live a n (t + 1) s' m' := by
  obtain ⟨k, hk, rfl⟩ := Semantics.State.clear_succ ht hclear
  obtain ⟨hidx, hdata⟩ := h.related.fits.wordIndex?_data rfl hk
  have haddr : m.val Reg.scratch0 + word 0 = a + word (4 * t) := by
    rw [h.next]
    exact Int32.add_zero _
  -- The store clears the word on both sides.
  obtain ⟨m₁, hline₁, hmem₁, hkeeps₁⟩ : Stores A.im A.func m
    [.store Reg.scratch0 0 Reg.x0] k (m.val Reg.x0) :=
      stores_store h.related.zero (by decide) (by decide) (by decide) (by rw [haddr, hidx])
  rw [h.related.zero] at hmem₁
  have hrel₁ := h.related.store hs (hkeeps₁.mono fun q hq => hq.elim) hdata hmem₁
  -- The pointer moves on to the next word.
  obtain ⟨m₂, hline₂, hval₂, hmem₂, hkeeps₂⟩ : Writes A.im A.func m₁
    [.addImm Reg.scratch0 Reg.scratch0 4] Reg.scratch0 (m₁.val Reg.scratch0 + word 4) :=
      writes_addImm hrel₁.zero (by decide) (by decide) (by decide) (by decide)
  refine ⟨m₂, line?_append_of hline₁ hline₂,
    hrel₁.scratch hs (hkeeps₂.mono fun q hq => Or.inl hq) hmem₂, ?_, ?_⟩
  · rw [hval₂, hkeeps₁.val _ (by decide) not_false, h.next, Int32.add_assoc, ← word_add]
    congr 2
  · rw [hkeeps₂.val _ (by decide) (by decide), hkeeps₁.val _ (by decide) not_false, h.stop]

/-- The loop clears the words that are left. -/
theorem reaches_loop {loop : Int} {pc : Nat} {a : Word} {n : Nat} {s₀ : Semantics.State}
    (hcode : CodeAt A.func pc (.label loop :: loopTurn loop))
    (hlabel : A.func.labels[loop]? = some pc) (hclear : s₀.clear A.layout a n = some s')
    (hlt : ∀ t : Nat, t < n → (a + word (4 * t)).toInt < (a + word (4 * n)).toInt) :
    ∀ (d t : Nat) (s : Semantics.State) (m : Machine), t + (d + 1) = n →
      s₀.clear A.layout a t = some s → Clearing A live a n t s m →
        ∃ m', Reaches A.im A.func m (pc + 1) m' (pc + 4) ∧ A.Related live s' m' := by
  have hbody : CodeAt A.func (pc + 1) (loopTurn loop) := hcode.tail
  have hline : CodeAt A.func (pc + 1)
      [.store Reg.scratch0 0 Reg.x0, .addImm Reg.scratch0 Reg.scratch0 4] := hbody.left
  have hbranch : A.func.body[pc + 3]? = some (.branch Reg.scratch0 Reg.scratch1 .lt loop) :=
    hbody.tail.tail.head
  intro d
  -- induction on the turns left after this one, with the invariant at the head of the turn
  induction d with
  | zero =>
    intro t s m ht hs₁ hinv
    subst ht
    -- the last turn: the next address is the one to stop at
    obtain ⟨m₁, hline₁, hinv₁⟩ := hinv.turn hs hs₁ hclear
    refine ⟨m₁.tick.resetZero, (reaches_line hline hline₁).trans
      (reaches_untaken hbranch (by decide) (by decide) ?_), ?_⟩
    · rw [hinv₁.next, hinv₁.stop]
      exact decide_eq_false Int32.lt_irrefl
    · exact hinv₁.related.idle hs
  | succ d ih =>
    intro t s m ht hs₁ hinv
    obtain ⟨s₂, hs₂⟩ := Semantics.State.clear_of_le hclear (show t + 1 ≤ n by omega)
    obtain ⟨m₁, hline₁, hinv₁⟩ := hinv.turn hs hs₁ hs₂
    obtain ⟨m', hreach, hrel⟩ := ih (t + 1) s₂ _ (by omega) hs₂ (hinv₁.idle hs)
    refine ⟨m', ((reaches_line hline hline₁).trans
      (reaches_taken hbranch (by decide) (by decide) ?_ hlabel)).trans hreach, hrel⟩
    rw [hinv₁.next, hinv₁.stop]
    exact decide_eq_true (Int32.lt_iff_toInt_lt.2 (hlt (t + 1) (by omega)))

/-- Either form of a zero fill clears the array. -/
theorem reaches_zeroFill {c : Counters} {pre : List Instr} (hload : A.Loaded c pre) {i : Nat}
    {id : VarId} (hst : A.cx.placed.func.stmts[i]? = some (.zeroFill (.var id)))
    (hcode : zeroFill A.cx (labelAt A.cx c i) (.var id) = .ok (codeOf A.cx c i))
    (h : A.Related live s m) {a : Word} {n : Nat} (harray : A.layout.array id = some (a, n))
    (hclear : s.clear A.layout a n = some s') :
    ∃ m', Reaches A.im A.func m (pre.length + start A.cx c i) m'
        (pre.length + start A.cx c (i + 1)) ∧ A.Related live s' m' := by
  obtain ⟨l, hl, heq⟩ := Option.map_eq_some_iff.1 harray
  obtain ⟨slot, span, rfl, h0, hpos, hend⟩ := hs.arrays_inside id l hl
  obtain ⟨rfl, rfl⟩ := Prod.mk.inj heq
  simp only [Loc.slot, Loc.span] at hclear
  have hcovers := h.fits.covers
  have hspan : (span.toNat : Int) = span := Int.toNat_of_nonneg (by omega)
  have hat := hload.codeAt hst
  rw [start_succ, ← add_assoc]
  by_cases hun : unrolls slot span = true
  · have hcode' : (List.range span.toNat).map (fun (k : Nat) =>
        Instr.storeStack Reg.x0 (wrap64 (slot + k))) = codeOf A.cx c i := by
      simpa [zeroFill, hl, Loc.slot, Loc.span, hun] using hcode
    rw [← hcode'] at hat ⊢
    obtain ⟨m', hline, hrel⟩ := line_unrolled hs h h0 (by omega) hclear
    exact ⟨m', reaches_line hat hline, hrel⟩
  · have hcode' : zeroLoop (labelAt A.cx c i) slot span = codeOf A.cx c i := by
      simpa [zeroFill, hl, Loc.slot, Loc.span, hun] using hcode
    rw [zeroLoop_eq] at hcode'
    have hlabel : A.func.labels[labelAt A.cx c i]? =
        some (pre.length + start A.cx c i + (loopHead slot span).length) := by
      refine hload.loop_at hst ?_ ?_
      · simpa [drawsLabel, hl, Loc.slot, Loc.span] using hun
      · rw [← hcode', List.getElem?_append_right (le_refl _), Nat.sub_self]
        rfl
    rw [← hcode'] at hat ⊢
    obtain ⟨m₁, hline₁, hinv⟩ : ∃ m', line? A.im A.func m (loopHead slot span.toNat) = some m' ∧
      Clearing A live (A.sp + word (4 * slot)) span.toNat 0 s m' := line_loopHead hs h span.toNat
    rw [hspan] at hline₁
    -- the label itself is passed once, on the way in
    have hhead := reaches_line hat.left hline₁
    have hpass : Reaches A.im A.func m₁ _ m₁.tick.resetZero _ := reaches_next hat.right.head rfl
    -- the addresses of the array are in order, so the comparison of the loop is exact
    have haddr : ∀ t : Nat, t ≤ span.toNat →
        (A.sp + word (4 * slot) + word (4 * t)).toInt = A.sp.toInt + 4 * slot + 4 * t := by
      intro t ht
      have habove := h.fits.above
      have hsmall := h.fits.small
      have hslot := h.fits.toInt_slot h0 (by omega)
      rw [toInt_add_word (by omega) (by omega), hslot]
    obtain ⟨m', hloop, hrel⟩ := reaches_loop hs hat.right hlabel hclear
      (fun t ht => by rw [haddr t (by omega), haddr _ (le_refl _)]; omega)
      (span.toNat - 1) 0 s _ (by omega) rfl (hinv.idle hs)
    refine ⟨m', (hhead.trans hpass).trans ?_, hrel⟩
    rw [List.length_append, ← add_assoc]
    exact hloop

end ZeroFill

/-! ## Successors -/

/-- The machine is about to run the code of statement `j`: at its first instruction, or behind its
label, where jumps arrive. -/
def AtCode (A : Activation) (c : Counters) (pre : List Instr) (j pc : Nat) : Prop :=
  pc = pre.length + start A.cx c j ∨
    ((∃ l, A.cx.placed.func.stmts[j]? = some (.label l)) ∧ pc = pre.length + start A.cx c j + 1)

/-- What the machine does for an outcome: it gets to the code of the successor in a related state, or
returns with the value in the result register and the frame given back. -/
def Follows (A : Activation) (c : Counters) (pre : List Instr) (m : Machine) (pc : Nat) :
    Semantics.Outcome → Prop
  | .next j s => ∃ m' pc', Reaches A.im A.func m pc m' pc' ∧ A.AtCode c pre j pc' ∧
      A.Related (A.cx.placed.Live j) s m'
  | .ret v s => ∃ m', Returns A.im A.func m pc m' ∧ (∀ x, v = some x → m'.val (Reg.a 0) = x) ∧
      m'.sp = A.sp + A.func.frame ∧ ∀ k, A.data k = true → m'.mem.get k = s.mem k
  | .call .. => False

section Follow

variable {c : Counters} {pre : List Instr} {i pc : Nat} {st : Stmt} {o : Semantics.Outcome}

/-- A statement that is no label starts where its code does. -/
theorem AtCode.first {j : Nat} (h : A.AtCode c pre j pc)
    (hst : A.cx.placed.func.stmts[j]? = some st) (hlabel : ∀ l, st ≠ .label l) :
    pc = pre.length + start A.cx c j := by
  rcases h with h | ⟨⟨l, hl⟩, _⟩
  · exact h
  · rw [hst] at hl
    exact absurd (Option.some.inj hl) (hlabel l)

/-- What is live before a successor is live before the statement, unless the statement writes it. -/
theorem live_of_live_successor (hs : A.cx.placed.Sound A.cx.vars fl)
    (hst : A.cx.placed.func.stmts[i]? = some st) (hdst : st.dst? = none) {j : Nat}
    (hj : j ∈ fl.nextOf i) {u : VReg} (hu : A.cx.placed.Live j u) : A.cx.placed.Live i u :=
  hs.live_of_meet hst ((hs.meet_iff i u).2 ⟨j, hj, hu⟩) (by simp [Stmt.defs, hdst])

/-- A straight line goes on to the next statement. -/
theorem follows_line (hload : A.Loaded c pre) (hst : A.cx.placed.func.stmts[i]? = some st)
    {m' : Machine} (hline : line? A.im A.func m (codeOf A.cx c i) = some m')
    (hrel : A.Related (A.cx.placed.Live (i + 1)) s' m') :
    A.Follows c pre m (pre.length + start A.cx c i) (.next (i + 1) s') := by
  refine ⟨m', _, reaches_line (hload.codeAt hst) hline, Or.inl ?_, hrel⟩
  rw [start_succ, add_assoc]

/-- A statement with a result gives it a value and goes on. -/
theorem step_assigns {labels : Std.TreeMap Int Nat} {dst : Val} (hcall : st.callee? = none)
    (hdst : st.dst? = some dst)
    (hstep : Semantics.step A.layout A.cx.vars labels i s st = some o) :
    ∃ w s', s.assign A.layout A.cx.vars dst w = some s' ∧ o = .next (i + 1) s' := by
  -- Whatever computes a value ends with assigning it.
  cases st with
  | binary d l op r =>
    cases hdst
    simp only [Semantics.step, Option.bind_eq_bind, Option.bind_eq_some_iff] at hstep
    obtain ⟨x, _, y, _, w, _, t, hassign, hout⟩ := hstep
    exact ⟨w, t, hassign, (Option.some.inj hout).symm⟩
  | unary d op v =>
    cases hdst
    simp only [Semantics.step, Option.bind_eq_bind, Option.bind_eq_some_iff] at hstep
    obtain ⟨x, _, t, hassign, hout⟩ := hstep
    exact ⟨_, t, hassign, (Option.some.inj hout).symm⟩
  | move d v =>
    cases hdst
    simp only [Semantics.step, Option.bind_eq_bind, Option.bind_eq_some_iff] at hstep
    obtain ⟨x, _, t, hassign, hout⟩ := hstep
    exact ⟨x, t, hassign, (Option.some.inj hout).symm⟩
  | load d b off =>
    cases hdst
    simp only [Semantics.step, Option.bind_eq_bind, Option.bind_eq_some_iff] at hstep
    obtain ⟨a, _, x, _, t, hassign, hout⟩ := hstep
    exact ⟨x, t, hassign, (Option.some.inj hout).symm⟩
  | call r f args => cases hcall
  | store | branch | jump | label | ret | zeroFill => cases hdst

variable (hs : A.cx.placed.Sound A.cx.vars fl) (hload : A.Loaded c pre)
  (h : A.Related (A.cx.placed.Live i) s m)

include hs hload h

/-- A statement whose result nobody reads has no code. -/
theorem follows_elided {dst : Val} {w : Word} (hst : A.cx.placed.func.stmts[i]? = some st)
    (hplain : ∀ labels n, Flow.successors labels n i st = .ok (Flow.following n i))
    (hcode : codeOf A.cx c i = []) (hdst : st.dst? = some dst)
    (hunread : unread A.cx i dst = true)
    (hassign : s.assign A.layout A.cx.vars dst w = some s') :
    A.Follows c pre m (pre.length + start A.cx c i) (.next (i + 1) s') :=
  follows_line hload hst (by rw [hcode]; rfl) (h.elide hs hst hplain hdst hunread hassign)

/-- A statement that computes a result. -/
theorem follows_assigning {labels : Std.TreeMap Int Nat} {dst : Val}
    (hst : A.cx.placed.func.stmts[i]? = some st) (hcall : st.callee? = none)
    (hdst : st.dst? = some dst)
    (hstep : Semantics.step A.layout A.cx.vars labels i s st = some o) :
    A.Follows c pre m (pre.length + start A.cx c i) o := by
  obtain ⟨w, s', hassign, rfl⟩ := step_assigns hcall hdst hstep
  have hcode := hload.lowered i st hst
  have helided : elided A.cx i st = unread A.cx i dst := by
    simp [elided, hcall, hdst]
  unfold Lowering.stmt at hcode
  rw [helided] at hcode
  -- A value that nobody reads is not computed; then the state may change without the machine.
  cases hunread : unread A.cx i dst with
  | true =>
    rw [hunread] at hcode
    refine follows_elided hs hload h hst ?_ (Except.ok.inj hcode).symm hdst hunread hassign
    intro labels n
    cases st <;> first | rfl | cases hdst
  | false =>
    rw [hunread] at hcode
    obtain ⟨m', hline, hrel⟩ : ∃ m', line? A.im A.func m (codeOf A.cx c i) = some m' ∧
        A.Related (A.cx.placed.Live (i + 1)) s' m' := by
      cases st with
      | binary d l op r =>
        cases hdst
        exact line_binary hs h hst hunread hcode hstep
      | unary d op v =>
        cases hdst
        exact line_unary hs h hst hunread hcode hstep
      | move d v =>
        cases hdst
        exact line_move hs h hst hunread hcode hstep
      | load d b off =>
        cases hdst
        exact line_load hs h hst hunread hcode hstep
      | call r f args => cases hcall
      | store | branch | jump | label | ret | zeroFill => cases hdst
    exact follows_line hload hst hline hrel

/-- A jump goes on behind its label. -/
theorem follows_jump {l : Int} (hst : A.cx.placed.func.stmts[i]? = some (.jump l))
    (hstep : Semantics.step A.layout A.cx.vars (Flow.labelTable A.cx.placed.func.stmts) i s
      (.jump l) = some o) : A.Follows c pre m (pre.length + start A.cx c i) o := by
  obtain ⟨j, hj, hout⟩ := Option.bind_eq_some_iff.1 hstep
  cases hout
  have hcode : [.jump l] = codeOf A.cx c i := Except.ok.inj (hload.lowered i _ hst)
  have hat := hload.codeAt hst
  rw [← hcode] at hat
  -- The label is the target of the jump, where all that is live is live before the jump.
  refine ⟨m.tick.resetZero, _, reaches_jump hat.head (hload.label_at hj), Or.inr ⟨⟨l, ?_⟩, rfl⟩, ?_⟩
  · exact ((Flow.getElem?_labelTable _ _ _).1 hj).1
  · refine (h.idle hs).mono fun u hu => live_of_live_successor hs hst rfl ?_ hu
    obtain ⟨j₀, hj₀, hnext⟩ := hs.describes.label_of_jump hst
    rw [hs.describes.labels_eq, hj] at hj₀
    rw [hnext, Option.some.inj hj₀]
    exact List.mem_singleton_self j₀

/-- A conditional jump fetches its operands, compares them and goes either way. -/
theorem follows_branch {l r : Val} {rel : Rel} {t : Int}
    (hst : A.cx.placed.func.stmts[i]? = some (.branch l rel r t))
    (hstep : Semantics.step A.layout A.cx.vars (Flow.labelTable A.cx.placed.func.stmts) i s
      (.branch l rel r t) = some o) : A.Follows c pre m (pre.length + start A.cx c i) o := by
  simp only [Semantics.step, Option.bind_eq_bind, Option.bind_eq_some_iff] at hstep
  obtain ⟨x, hx, y, hy, hout⟩ := hstep
  have hcode : branch A.cx l rel r t = .ok (codeOf A.cx c i) := hload.lowered i _ hst
  unfold branch at hcode
  obtain ⟨⟨c₁, a⟩, h₁, hcode⟩ := bind_eq_ok.1 hcode
  obtain ⟨⟨c₂, b⟩, h₂, hcode⟩ := bind_eq_ok.1 hcode
  have hcode : c₁ ++ c₂ ++ [Instr.branch a b rel t] = codeOf A.cx c i := Except.ok.inj hcode
  have hat := hload.codeAt hst
  rw [← hcode] at hat
  have hsrc : ∀ v ∈ [l, r], ∀ u, A.cx.vars.vreg? v = some u → A.cx.placed.Live i u :=
    fun v hv u hu => live_of_source hs hst hv hu
  obtain ⟨m₁, hline, hva, hvb, ha, hb, hrel⟩ := h.fetch_pair hs h₁ h₂ (hsrc l (by simp))
    (hsrc r (by simp)) hx hy
  have hfetch := reaches_line hat.left hline
  -- both ways out are among the successors, which is where liveness comes from
  obtain ⟨j₀, hj₀, hnext⟩ := hs.describes.label_of_branch hst
  cases hholds : rel.holds x y with
  | true =>
    rw [if_pos hholds] at hout
    obtain ⟨j, hj, hout⟩ := Option.bind_eq_some_iff.1 hout
    cases hout
    rw [hs.describes.labels_eq, hj] at hj₀
    obtain rfl := Option.some.inj hj₀
    refine ⟨m₁.tick.resetZero, _, hfetch.trans (reaches_taken hat.right.head ha hb
      (by rw [hva, hvb, hholds]) (hload.label_at hj)), Or.inr ⟨⟨t, ?_⟩, rfl⟩, ?_⟩
    · exact ((Flow.getElem?_labelTable _ _ _).1 hj).1
    · refine (hrel.idle hs).mono fun u hu => live_of_live_successor hs hst rfl ?_ hu
      rw [hnext]
      exact List.mem_cons_self
  | false =>
    rw [if_neg (by rw [hholds]; decide)] at hout
    cases hout
    refine ⟨m₁.tick.resetZero, _, hfetch.trans (reaches_untaken hat.right.head ha hb
      (by rw [hva, hvb, hholds])), Or.inl ?_, ?_⟩
    · rw [start_succ, ← hcode]
      simp only [List.length_append, List.length_singleton]
      omega
    · refine (hrel.idle hs).mono fun u hu => ?_
      have hlt : i + 1 < A.cx.placed.func.stmts.length := by
        by_contra hge
        exact hs.not_live_of_ge (by omega) u hu
      refine live_of_live_successor hs hst rfl ?_ hu
      rw [hnext]
      exact List.mem_cons_of_mem _ ((Flow.mem_following_iff _ _ _).2 ⟨rfl, hlt⟩)

/-- A label is passed, unless a jump has passed it already. -/
theorem follows_label {l : Int} (hst : A.cx.placed.func.stmts[i]? = some (.label l))
    (hat : A.AtCode c pre i pc) : A.Follows c pre m pc (.next (i + 1) s) := by
  have hcode : [.label l] = codeOf A.cx c i := Except.ok.inj (hload.lowered i _ hst)
  have hsub : ∀ u, A.cx.placed.Live (i + 1) u → A.cx.placed.Live i u := fun u hu =>
    live_of_live_next hs hst (fun _ _ => rfl) hu (by simp [Stmt.defs, Stmt.dst?])
  have hstart : start A.cx c (i + 1) = start A.cx c i + 1 := by
    rw [start_succ, ← hcode, List.length_singleton]
  -- entered at the label, or behind it by a jump
  rcases hat with rfl | ⟨_, rfl⟩
  · have hbody := hload.codeAt hst
    rw [← hcode] at hbody
    exact ⟨m.tick.resetZero, _, reaches_next hbody.head rfl, Or.inl (by rw [hstart]; omega),
      (h.idle hs).mono hsub⟩
  · exact ⟨m, _, Reaches.refl, Or.inl (by rw [hstart]; omega), h.mono hsub⟩

/-- A return leaves its value in the result register. -/
theorem follows_ret {v : Option Val} (hst : A.cx.placed.func.stmts[i]? = some (.ret v))
    {labels : Std.TreeMap Int Nat}
    (hstep : Semantics.step A.layout A.cx.vars labels i s (.ret v) = some o) :
    A.Follows c pre m (pre.length + start A.cx c i) o := by
  have hcode : ret A.cx v = .ok (codeOf A.cx c i) := hload.lowered i _ hst
  have hat := hload.codeAt hst
  cases v with
  | none =>
    cases hstep
    have hcode : [Instr.ret] = codeOf A.cx c i := Except.ok.inj hcode
    rw [← hcode] at hat
    refine ⟨_, returns_ret hat.head, fun x hx => (nomatch hx), ?_, h.words_eq⟩
    rw [← h.sp_eq]
    rfl
  | some v =>
    obtain ⟨x, hx, hout⟩ := Option.bind_eq_some_iff.1 hstep
    cases hout
    obtain ⟨c', hmove, hcode⟩ := bind_eq_ok.1 hcode
    have hcode : c' ++ [Instr.ret] = codeOf A.cx c i := Except.ok.inj hcode
    rw [← hcode] at hat
    -- the result register may have held a live value; nothing is live after a return
    obtain ⟨c₁, instr, m₁, rfl, hline₁, hmem₁, hkeeps₁, m₂, hline₂, hval₂, hmem₂, hkeeps₂⟩ :=
      h.moveInto hs (by decide) (by decide)
        (fun u hu => live_of_source hs hst (List.mem_singleton_self v) hu) hmove hx
    have hrel₁ := h.scratch hs (hkeeps₁.mono fun q hq => Or.inr hq) hmem₁
    have hz₂ : m₂.val Reg.x0 = 0 := by
      rw [hkeeps₂.val _ (by decide) (by decide), hrel₁.zero]
    refine ⟨_, (reaches_line hat.left (line?_append_of hline₁ hline₂)).returns
      (returns_ret hat.right.head), fun y hy => ?_, ?_, fun k hk => ?_⟩
    · obtain rfl := Option.some.inj hy
      rw [← hval₂]
      exact (keeps_idle hz₂).val (Reg.a 0) (by decide) not_false
    · rw [← hrel₁.sp_eq, ← hkeeps₂.sp]
      rfl
    · rw [← hrel₁.words_eq k hk, ← hmem₂]
      rfl

/-- The machine follows a zero fill. -/
theorem follows_zeroFill {v : Val} (hst : A.cx.placed.func.stmts[i]? = some (.zeroFill v))
    {labels : Std.TreeMap Int Nat}
    (hstep : Semantics.step A.layout A.cx.vars labels i s (.zeroFill v) = some o) :
    A.Follows c pre m (pre.length + start A.cx c i) o := by
  -- Only an array can be cleared.
  cases v with
  | const n => cases hstep
  | temp n => cases hstep
  | var id =>
    obtain ⟨⟨a, n⟩, harray, hstep⟩ := Option.bind_eq_some_iff.1 hstep
    obtain ⟨s', hclear, hout⟩ := Option.bind_eq_some_iff.1 hstep
    cases hout
    obtain ⟨m', hreach, hrel⟩ := reaches_zeroFill hs hload hst (hload.lowered i _ hst) h harray
      hclear
    refine ⟨m', _, hreach, Or.inl rfl, hrel.mono fun u hu => ?_⟩
    exact live_of_live_next hs hst (fun _ _ => rfl) hu (by simp [Stmt.defs, Stmt.dst?])

/-- The machine follows a store. -/
theorem follows_store {b v : Val} {off : Int}
    (hst : A.cx.placed.func.stmts[i]? = some (.store b off v)) {labels : Std.TreeMap Int Nat}
    (hstep : Semantics.step A.layout A.cx.vars labels i s (.store b off v) = some o) :
    A.Follows c pre m (pre.length + start A.cx c i) o := by
  have hout : ∃ s', o = .next (i + 1) s' := by
    simp only [Semantics.step, Option.bind_eq_bind, Option.bind_eq_some_iff] at hstep
    obtain ⟨_, _, _, _, s', _, hout⟩ := hstep
    exact ⟨s', (Option.some.inj hout).symm⟩
  obtain ⟨s', rfl⟩ := hout
  obtain ⟨m', hline, hrel⟩ := line_store hs h hst (hload.lowered i _ hst) hstep
  exact follows_line hload hst hline hrel

/-- One step, for every statement but calls. -/
theorem follows_stmt (hst : A.cx.placed.func.stmts[i]? = some st) (hcall : st.callee? = none)
    (hat : A.AtCode c pre i pc)
    (hstep : Semantics.step A.layout A.cx.vars (Flow.labelTable A.cx.placed.func.stmts) i s st =
      some o) : A.Follows c pre m pc o := by
  -- A label may be reached before or behind its own instruction; all others start where their
  -- code does.
  cases st with
  | label l =>
    cases hstep
    exact follows_label hs hload h hst hat
  | binary d l op r =>
    rw [hat.first hst nofun]
    exact follows_assigning hs hload h hst hcall rfl hstep
  | unary d op v =>
    rw [hat.first hst nofun]
    exact follows_assigning hs hload h hst hcall rfl hstep
  | move d v =>
    rw [hat.first hst nofun]
    exact follows_assigning hs hload h hst hcall rfl hstep
  | load d b off =>
    rw [hat.first hst nofun]
    exact follows_assigning hs hload h hst hcall rfl hstep
  | store b off v =>
    rw [hat.first hst nofun]
    exact follows_store hs hload h hst hstep
  | branch l rel r t =>
    rw [hat.first hst nofun]
    exact follows_branch hs hload h hst hstep
  | jump l =>
    rw [hat.first hst nofun]
    exact follows_jump hs hload h hst hstep
  | ret v =>
    rw [hat.first hst nofun]
    exact follows_ret hs hload h hst hstep
  | zeroFill v =>
    rw [hat.first hst nofun]
    exact follows_zeroFill hs hload h hst hstep
  | call r f args => cases hcall

end Follow

/-- The machine may take some steps first. -/
theorem Follows.of_reaches {c : Counters} {pre : List Instr} {m' : Machine} {pc pc' : Nat}
    {o : Semantics.Outcome} (hreach : Reaches A.im A.func m pc m' pc')
    (h : A.Follows c pre m' pc' o) : A.Follows c pre m pc o := by
  cases o with
  | next j s =>
    obtain ⟨m'', pc'', hreach', hrest⟩ := h
    exact ⟨m'', pc'', hreach.trans hreach', hrest⟩
  | ret v s =>
    obtain ⟨m'', hret, hrest⟩ := h
    exact ⟨m'', hreach.returns hret, hrest⟩
  | call f xs d s => exact h

/-- Any number of steps up to the next call. -/
theorem follows_steps (hs : A.cx.placed.Sound A.cx.vars fl) {c : Counters} {pre : List Instr}
    (hload : A.Loaded c pre) {n i pc : Nat} {o : Semantics.Outcome}
    (h : A.Related (A.cx.placed.Live i) s m) (hat : A.AtCode c pre i pc)
    (hsteps : Semantics.steps A.layout A.cx.vars A.cx.placed.func.stmts n i s = some o)
    (hcall : ∀ f xs d t, o ≠ .call f xs d t) : A.Follows c pre m pc o := by
  -- On the number of steps; the relation holds at every statement, so each step starts where
  -- the last one ended.
  induction n generalizing i pc s m with
  | zero =>
    cases hsteps
    exact ⟨m, pc, Reaches.refl, hat, h⟩
  | succ n ih =>
    obtain ⟨st, hst, hsteps⟩ := Option.bind_eq_some_iff.1 hsteps
    obtain ⟨o₁, hstep, hsteps⟩ := Option.bind_eq_some_iff.1 hsteps
    -- a call would have ended the run
    have hplain : st.callee? = none := by
      cases st with
      | call r f args =>
        obtain ⟨xs, _, hout⟩ := Option.bind_eq_some_iff.1 hstep
        cases hout
        cases hsteps
        exact absurd rfl (hcall f xs r s)
      | _ => rfl
    have hone := follows_stmt hs hload h hst hplain hat hstep
    cases o₁ with
    | next j t =>
      obtain ⟨m₁, pc₁, hreach, hat₁, hrel₁⟩ := hone
      exact Follows.of_reaches hreach (ih hrel₁ hat₁ hsteps)
    | ret v t =>
      cases hsteps
      exact hone
    | call f xs d t => exact hone.elim

/-- Code made without error, loaded behind code without labels, follows every step of a statement
that is not a call: from a related state at the code of the statement it gets to the code of the
successor that the step chose, in a state related to the one after the step, or returns with the
value in the result register. -/
theorem follows_step {A : Activation} {fl : Flow} {c c' : Counters} {cf : CodeFunc}
    {pre : List Instr} {s : Semantics.State} {m : Machine} {i pc : Nat} {st : Stmt}
    {o : Semantics.Outcome} (hs : A.cx.placed.Sound A.cx.vars fl) (hfresh : LabelsFresh A.cx c)
    (hlower : Lowering.func A.cx c = .ok (cf, c')) (hpre : Unlabelled pre)
    (hfunc : A.func = Image.loadFunc { cf with body := pre ++ cf.body })
    (hst : A.cx.placed.func.stmts[i]? = some st) (hcall : st.callee? = none)
    (h : A.Related (A.cx.placed.Live i) s m) (hat : A.AtCode c pre i pc)
    (hstep : Semantics.step A.layout A.cx.vars (Flow.labelTable A.cx.placed.func.stmts) i s st =
      some o) : A.Follows c pre m pc o :=
  follows_stmt hs (loaded_of_func hlower hpre hfunc hfresh) h hst hcall hat hstep

/-! ## A zero fill at work -/

/-- An array of twenty words, too long for its zero fill to be unrolled. -/
def clearedVars : VarTable := #[⟨"A", .loc, 0, some [20]⟩]

/-- A value is kept in the frame while the array beside it is cleared. -/
def clearedFunc : Func where
  name := "f"
  void := false
  locals := [0]
  stmts := [.move (.temp 0) (.const 7), .zeroFill (.var 0), .load (.temp 1) (.var 0) 76,
    .binary (.temp 2) (.temp 0) .add (.temp 1), .ret (some (.temp 2))]

/-- The flow of the example, whose only statement that counts is a zero fill. -/
def clearedFlow : Flow where
  labels := {}
  next := #[[1], [2], [3], [4], []]
  prev := Flow.predecessors [[1], [2], [3], [4], []]

/-- Where the example is lowered: its array takes the whole frame. -/
def clearedContext : Context where
  vars := clearedVars
  sets := {}
  placed :=
    { func := clearedFunc
      live := (Liveness.analyze clearedVars clearedFunc clearedFlow).live
      meet := (Liveness.analyze clearedVars clearedFunc clearedFlow).meet
      locs := .ofList [(0, Loc.stack 20 1), (3, Loc.reg (Reg.a 0)), (6, Loc.reg (Reg.a 0))]
      arrays := .ofList [((0 : VarId), Loc.stack 0 20)]
      spillSize := 21 }

/-- The code of the example. -/
def clearedCode : CodeFunc :=
  ((Lowering.func clearedContext {}).toOption.map Prod.fst).getD default

/-- The frame starts at word 100, with the array in front and the value behind it. -/
def cleared : Activation where
  im := { funcs := {}, globals := {}, stackBase := 4 }
  func := Image.loadFunc clearedCode
  cx := clearedContext
  sp := 400
  words := 21
  data k := 100 ≤ k && k < 120

/-- A state before the zero fill. -/
def clearedState : Semantics.State where
  env _ := 7
  mem k := if k = 105 then 9 else 0

/-- The machine in that state. -/
def clearedMachine : Machine where
  regs := Vector.replicate Reg.count 0
  mem := (({ size := 200 } : Memory).set 120 7).set 105 9
  sp := 400

/-- What is live before and behind each statement of the example. -/
theorem analyze_cleared :
    (Liveness.analyze clearedVars clearedFunc clearedFlow).live =
        #[.empty, .ofList [0], .ofList [0], .ofList [0, 3], .ofList [6]] ∧
      (Liveness.analyze clearedVars clearedFunc clearedFlow).meet =
        #[.ofList [0], .ofList [0], .ofList [0, 3], .ofList [6], .empty] := by
  rw [Liveness.analyze_eq_solveList]
  decide +kernel

/-- The placement of the example is sound. -/
theorem sound_cleared : clearedContext.placed.Sound clearedVars clearedFlow := by
  refine .of_wellPlaced rfl rfl rfl ?_ (by decide)
  simp only [clearedContext, analyze_cleared]
  decide

/-- What the example is lowered to. -/
theorem lowered_cleared : ∃ c', Lowering.func clearedContext {} = .ok (clearedCode, c') := by
  have htest : (Lowering.func clearedContext {}).toOption.any (fun _ => true) = true := by
    simp only [clearedContext, analyze_cleared]
    decide
  obtain ⟨⟨cf, c'⟩, hok, _⟩ := exists_ok_of_any htest
  refine ⟨c', ?_⟩
  rw [clearedCode, hok]
  rfl

/-- The example fits the memory. -/
theorem fits_cleared : cleared.Fits 200 := by
  refine ⟨by decide, by decide, by decide, by decide, by decide, ?_, ?_⟩
  · intro k hk
    simp only [cleared, Bool.and_eq_true, decide_eq_true_eq] at hk
    omega
  · intro slot h0 h1 hd
    have hsp : Int32.toInt 400 = 400 := by decide
    simp only [frameWord, cleared, Bool.and_eq_true, decide_eq_true_eq, hsp] at hd
    refine ⟨0, .stack 0 20, by decide, ?_⟩
    simp only [Loc.words, Set.mem_Ico]
    omega

/-- The loop of the example draws the only label. -/
theorem fresh_cleared : LabelsFresh clearedContext {} := by
  refine labelsFresh_of_room (by decide) (by decide) fun l hl => ?_
  simp [clearedContext, clearedFunc] at hl

/-- State and machine of the example are related. -/
theorem related_cleared : cleared.Related (clearedContext.placed.Live 1) clearedState
    clearedMachine := by
  refine ⟨by decide, rfl, fits_cleared, fun u l hu hl => ?_, fun k hk => ?_⟩
  · -- one computed test for all locations: whatever is live is worth 7
    have htest : clearedContext.placed.locs.toList.all (fun p =>
        !(clearedContext.placed.live.getD 1 BitSet.empty).contains p.1 ||
          decide (cleared.valueAt clearedMachine p.2 = 7)) = true := by
      simp only [cleared, clearedContext, analyze_cleared]
      decide
    have := List.all_eq_true.1 htest (u, l) (Std.TreeMap.mem_toList_iff_getElem?_eq_some.2 hl)
    rw [Placement.Live] at hu
    simp only [hu, Bool.not_true, Bool.false_or, decide_eq_true_eq] at this
    exact this
  · simp only [cleared, Bool.and_eq_true, decide_eq_true_eq] at hk
    simp only [clearedMachine, clearedState, Memory.get_set]
    rw [if_neg (show ¬ 120 = k by omega)]
    by_cases h : k = 105
    · rw [if_pos h.symm, if_pos h]
    · rw [if_neg (Ne.symm h), if_neg h]
      rfl

/-- The loop clears the array and the value beside it stays. -/
theorem follows_step_cleared : ∃ s', Semantics.step cleared.layout clearedVars
      (Flow.labelTable clearedFunc.stmts) 1 clearedState (.zeroFill (.var 0)) = some (.next 2 s') ∧
    s'.mem 105 = 0 ∧ cleared.Follows {} [] clearedMachine 2 (.next 2 s') := by
  have harray : cleared.layout.array 0 = some (400, 20) := by decide
  have htest : (clearedState.clear cleared.layout 400 20).any (fun s => decide (s.mem 105 = 0)) =
      true := by decide
  obtain ⟨s', hclear, hmem⟩ := (Option.any_eq_true _ _).1 htest
  have hstep : Semantics.step cleared.layout clearedVars (Flow.labelTable clearedFunc.stmts) 1
      clearedState (.zeroFill (.var 0)) = some (.next 2 s') := by
    simp only [Semantics.step, harray, Option.bind_eq_bind, Option.bind_some, hclear]
  obtain ⟨c', hlower⟩ := lowered_cleared
  -- The array is declared first, so its zero fill starts at the third instruction.
  have hstart : start clearedContext {} 1 = 2 := by
    simp only [clearedContext, analyze_cleared]
    decide
  have hat : cleared.AtCode {} [] 1 2 := by
    refine Or.inl ?_
    rw [List.length_nil, zero_add]
    exact hstart.symm
  exact ⟨s', hstep, of_decide_eq_true hmem,
    follows_step sound_cleared fresh_cleared hlower unlabelled_nil rfl rfl rfl related_cleared hat hstep⟩

end Activation

end Tac
