import Mathlib
import Tac.Proofs.Lowering

/-!
# Statements without jumps

The code of a statement that computes is a straight line: operands are fetched, one instruction
does the operation, the result is taken to its place.  This module proves that the line takes related
states to related states, for every operand and every form of the operation.

* **`byConstant?_writes`** — the short forms compute what the operator does on all words.
* **`Related.result`** — the last instruction and the way of its result to its place.
* **`Related.elide`** — a statement whose result nobody reads may be left out.
* **`line_binary`, `line_unary`, `line_move`, `line_store`, `line_load`** — one lemma for each
  statement.
-/

namespace Tac

/-! ## Short forms -/

/-- A shift to the left multiplies by a power of two. -/
theorem shiftLeft_word (x : Word) {k : Nat} (hk : k < 32) :
    x <<< word k = x * word (Nat.pow 2 k : Nat) := by
  have hshift : ∀ k : Fin 32, (word (k.val : Int)).toBitVec.smod 32 = BitVec.ofNat 32 k.val := by
    decide
  have hpow : ∀ k : Fin 32,
      (word ((Nat.pow 2 k.val : Nat) : Int)).toBitVec = BitVec.twoPow 32 k.val := by
    decide
  apply Int32.toBitVec_inj.1
  rw [Int32.toBitVec_mul, Int32.toBitVec_shiftLeft, hshift ⟨k, hk⟩, hpow ⟨k, hk⟩,
    BitVec.mul_twoPow_eq_shiftLeft]
  simp only [BitVec.shiftLeft_eq', BitVec.toNat_ofNat]
  rw [Nat.mod_eq_of_lt (by omega)]

/-- What the logarithm says when it says something. -/
theorem log2?_eq {c : Int} {k : Nat} (h : Lowering.log2? c = some k) :
    k < 31 ∧ c = (Nat.pow 2 k : Nat) := by
  have hp := List.find?_some h
  have hm := List.mem_of_find?_eq_some h
  simp only [beq_iff_eq] at hp
  exact ⟨List.mem_range.1 hm, hp.symm⟩

namespace Activation

open Machine

/-- The short forms compute what the operator does. -/
theorem byConstant?_writes {im : Image} {f : LoadedFunc} {m : Machine} {d x : Reg} {op : BinOp}
    {c : Int} {instr : Instr} {w : Word} (hz : m.val Reg.x0 = 0) (hd : d.Valid)
    (hd0 : d ≠ Reg.x0) (hx : x.Valid) (hinstr : Lowering.byConstant? d x op c = some instr)
    (hw : Machine.binary op (m.val x) (word c) = .ok w) : Writes im f m [instr] d w := by
  cases op with
  | add =>
    simp only [Lowering.byConstant?] at hinstr
    split at hinstr
    · cases hinstr
    · next hn =>
      cases hinstr
      cases hw
      exact writes_addImm hz hd hd0 (by simpa using hn) hx
  | sub =>
    simp only [Lowering.byConstant?] at hinstr
    split at hinstr
    · cases hinstr
    · next hn =>
      cases hinstr
      cases hw
      -- subtracting is adding the negated constant, which may have wrapped
      have h : Writes im f m [.addImm d x (wrap64 (-c))] d (m.val x + word (wrap64 (-c))) :=
        writes_addImm hz hd hd0 (by simpa using hn) hx
      rwa [word_wrap64, word_neg, ← Int32.sub_eq_add_neg] at h
  | mul =>
    obtain ⟨n, hn, rfl⟩ := Option.map_eq_some_iff.1 hinstr
    obtain ⟨k, hk, rfl⟩ : ∃ k, Lowering.log2? c = some k ∧ (k : Int) = n := by
      simpa [Option.bind_eq_some_iff] using hn
    obtain ⟨hlt, rfl⟩ := log2?_eq hk
    cases hw
    -- a power of two shifts
    refine writes_shift hz hd hd0 hx ?_
    rw [shift?, if_neg (by omega), if_pos (by omega), shiftLeft_word _ (by omega)]
  | div =>
    obtain ⟨n, hn, rfl⟩ := Option.map_eq_some_iff.1 hinstr
    obtain ⟨k, hk, rfl⟩ : ∃ k, Lowering.log2? c = some k ∧ (k : Int) = n := by
      simpa [Option.bind_eq_some_iff] using hn
    obtain ⟨hlt, rfl⟩ := log2?_eq hk
    simp only [Machine.binary] at hw
    split at hw
    · cases hw
    · cases hw
      split
      · next h0 =>
        -- division by one is a move, since the instruction for powers of two starts at two
        have h : Writes im f m [.move d x] d (m.val x) := writes_move hz hd hd0 hx
        have hone : m.val x / word (Nat.pow 2 k : Nat) = m.val x := by
          rw [show k = 0 by omega]
          exact Int32.div_one
        rwa [hone]
      · refine writes_divPow2 hz hd hd0 hx ?_
        rw [divPow2?, if_pos (by omega), Int.toNat_natCast]
  | mod | cmp | and | or => cases hinstr

variable {A : Activation} {fl : Flow} {s s' : Semantics.State} {m : Machine} {i : Nat} {st : Stmt}

/-! ## Results -/

/-- Control falls through a statement that neither jumps nor returns. -/
theorem nextOf_plain {f : Func} (d : Flow.Describes f fl) (hst : f.stmts[i]? = some st)
    (hplain : ∀ labels n, Flow.successors labels n i st = .ok (Flow.following n i)) :
    fl.nextOf i = Flow.following f.stmts.length i := by
  have h := d.successors_eq i st hst
  rw [hplain] at h
  exact (Except.ok.inj h).symm

/-- A result goes to a register of the machine that can be written. -/
theorem target_valid (hs : A.cx.placed.Sound A.cx.vars fl) {v : Val} {d : Reg}
    (h : Lowering.target A.cx v = .ok d) : d.Valid ∧ d ≠ Reg.x0 := by
  have hscr : Reg.scratch0.Valid ∧ Reg.scratch0 ≠ Reg.x0 := by decide
  -- spilled values and globals are computed in the scratch register
  unfold Lowering.target at h
  split at h
  · next u _ =>
    split at h
    · cases h
    · cases h
      exact hscr
    · next r hr =>
      cases h
      have hd := hs.allocatable u d hr
      exact ⟨Reg.valid_of_mem_allocatable hd, Reg.ne_x0_of_allocatable hd⟩
  · split at h
    · cases h
    · cases h
    · split at h
      · cases h
      · split at h
        · cases h
          exact hscr
        · cases h

/-- A value that is not live is not looked at. -/
theorem Related.unseen {live : VReg → Prop} (h : A.Related live s m) {u : VReg} (hu : ¬ live u)
    (w : Word) : A.Related live { s with env := Function.update s.env u w } m := by
  refine ⟨h.zero, h.sp_eq, h.fits, fun v l hv hl => ?_, h.words_eq⟩
  have hne : v ≠ u := by
    rintro rfl
    exact hu hv
  rw [h.values v l hv hl]
  exact (Function.update_of_ne hne _ _).symm

section Fallthrough

variable (hs : A.cx.placed.Sound A.cx.vars fl) (hst : A.cx.placed.func.stmts[i]? = some st)
  (hplain : ∀ labels n, Flow.successors labels n i st = .ok (Flow.following n i))

include hs hst hplain

/-- Live behind a statement is live at the next one, if the statement goes on to it. -/
theorem meet_iff_live (u : VReg) : A.cx.placed.Meet i u ↔ A.cx.placed.Live (i + 1) u :=
  hs.meet_of_fallthrough (nextOf_plain hs.describes hst hplain) u

/-- A statement that writes no virtual register leaves everything live that is live after it. -/
theorem live_of_live_next {u : VReg} (hu : A.cx.placed.Live (i + 1) u)
    (hdef : u ∉ st.defs A.cx.vars) : A.cx.placed.Live i u :=
  hs.live_of_meet hst ((meet_iff_live hs hst hplain u).2 hu) hdef

/-- The last instruction of a statement leaves the result in the target register, and the rest of
the code takes it to its place. -/
theorem Related.result (h : A.Related (A.cx.placed.Live i) s m) {dst : Val} {d : Reg} {w : Word}
    {instr : Instr} (hdst : st.dst? = some dst)
    (hread : Lowering.unread A.cx i dst = false)
    (htarget : Lowering.target A.cx dst = .ok d) (hw : Writes A.im A.func m [instr] d w)
    (hassign : s.assign A.layout A.cx.vars dst w = some s') :
    ∃ m', line? A.im A.func m ([instr] ++ Lowering.finish A.cx dst d) = some m' ∧
      A.Related (A.cx.placed.Live (i + 1)) s' m' := by
  obtain ⟨m₁, hline, hval, hmem, hkeeps⟩ := hw
  have hdefs : ∀ v, v ∈ st.defs A.cx.vars ↔ A.cx.vars.vreg? dst = some v := by
    intro v
    simp [Stmt.defs, hdst]
  have hkept : ∀ v, A.cx.placed.Live (i + 1) v → A.cx.vars.vreg? dst ≠ some v →
      A.cx.placed.Live i v := fun v hv hne =>
    live_of_live_next hs hst hplain hv fun hdef => hne ((hdefs v).1 hdef)
  -- the result and any other value that is live after the statement are apart
  have hapart : ∀ u v l l', A.cx.vars.vreg? dst = some u → A.cx.placed.Live (i + 1) v → v ≠ u →
      A.cx.placed.locs[u]? = some l → A.cx.placed.locs[v]? = some l' →
        l.clashes l' = false := by
    intro u v l l' hu hv hne hl hl'
    have hmeet : A.cx.placed.Meet i u := by
      simpa [Lowering.unread, hu, Placement.Meet] using hread
    have hlive := (meet_iff_live hs hst hplain u).1 hmeet
    exact (hs.separates (i + 1)).apart u v l l' hlive hv (Ne.symm hne) hl hl'
  obtain ⟨m₂, hfinish, hrel, _⟩ := h.assign hs htarget hval hmem hkeeps hassign hkept hapart
  exact ⟨m₂, line?_append_of hline hfinish, hrel⟩

/-- A statement whose result nobody reads may be left out. -/
theorem Related.elide (h : A.Related (A.cx.placed.Live i) s m) {dst : Val} {w : Word}
    (hdst : st.dst? = some dst) (hunread : Lowering.unread A.cx i dst = true)
    (hassign : s.assign A.layout A.cx.vars dst w = some s') :
    A.Related (A.cx.placed.Live (i + 1)) s' m := by
  unfold Lowering.unread at hunread
  obtain ⟨u, hu, hnot⟩ := (Option.any_eq_true _ _).1 hunread
  simp only [Semantics.State.assign, hu] at hassign
  obtain rfl := Option.some.inj hassign
  have hdead : ¬ A.cx.placed.Live (i + 1) u := by
    intro hlive
    have hmeet := (meet_iff_live hs hst hplain u).2 hlive
    rw [Placement.Meet] at hmeet
    rw [hmeet] at hnot
    cases hnot
  refine Related.unseen (h.mono fun v hv => live_of_live_next hs hst hplain hv ?_) hdead w
  -- only `u` is written, and it is not live
  simp only [Stmt.defs, hdst, Option.toList_some, List.filterMap_cons, hu, List.filterMap_nil,
    List.mem_singleton]
  rintro rfl
  exact hdead hv

end Fallthrough

/-! ## Operands in order -/

section Lines

variable (hs : A.cx.placed.Sound A.cx.vars fl) {live : VReg → Prop}

include hs

/-- After a fetch the states are still related. -/
theorem Related.fetched (h : A.Related live s m) {scratch r : Reg} (hscr : scratch.Scratch)
    {code : List Instr} {w : Word} {m' : Machine} (hf : Fetched A scratch code r w m m') :
    A.Related live s m' :=
  h.scratch hs (hf.keeps.mono fun q hq => by rw [hq]; exact hscr) hf.mem_eq

/-- Two operands are fetched one after the other; the second leaves the first alone. -/
theorem Related.fetch_pair (h : A.Related live s m) {l r : Val} {c₁ c₂ : List Instr} {x y : Reg}
    {v w : Word} (h₁ : Lowering.fetch A.cx Reg.scratch0 l = .ok (c₁, x))
    (h₂ : Lowering.fetch A.cx Reg.scratch1 r = .ok (c₂, y))
    (hl : ∀ u, A.cx.vars.vreg? l = some u → live u)
    (hr : ∀ u, A.cx.vars.vreg? r = some u → live u)
    (hv : s.eval A.layout A.cx.vars l = some v) (hw : s.eval A.layout A.cx.vars r = some w) :
    ∃ m', line? A.im A.func m (c₁ ++ c₂) = some m' ∧ m'.val x = v ∧ m'.val y = w ∧ x.Valid ∧
      y.Valid ∧ A.Related live s m' := by
  obtain ⟨m₁, hf₁⟩ := h.fetch hs (Or.inl rfl) h₁ hl hv
  have h' := h.fetched hs (Or.inl rfl) hf₁
  obtain ⟨m₂, hf₂⟩ := h'.fetch hs (Or.inr rfl) h₂ hr hw
  -- the first operand is in its own scratch register or in none
  have hne : ¬ x = Reg.scratch1 := by
    rintro rfl
    rcases hf₁.source with heq | hnot
    · exact absurd heq (by decide)
    · exact hnot (Or.inr rfl)
  refine ⟨m₂, line?_append_of hf₁.line hf₂.line, ?_, hf₂.val_eq, hf₁.valid, hf₂.valid,
    h'.fetched hs (Or.inr rfl) hf₂⟩
  rw [hf₂.keeps.val x hf₁.valid hne, hf₁.val_eq]

/-- An address is computed as a register and an offset that fits. -/
theorem Related.address (h : A.Related live s m) {b : Val} {off o : Int} {code : List Instr}
    {r : Reg} {a : Word} (hcode : Lowering.address A.cx b off = .ok (code, r, o))
    (hb : ∀ u, A.cx.vars.vreg? b = some u → live u)
    (ha : s.eval A.layout A.cx.vars b = some a) :
    ∃ m', line? A.im A.func m code = some m' ∧ m'.val r + word o = a + word off ∧ r.Valid ∧
      r ≠ Reg.scratch1 ∧ immOverflows o = false ∧ A.Related live s m' := by
  unfold Lowering.address at hcode
  obtain ⟨⟨c₁, x⟩, h₁, hcode⟩ := bind_eq_ok.1 hcode
  obtain ⟨m₁, hf⟩ := h.fetch hs (Or.inl rfl) h₁ hb ha
  have hne : x ≠ Reg.scratch1 := by
    rintro rfl
    rcases hf.source with heq | hnot
    · exact absurd heq (by decide)
    · exact hnot (Or.inr rfl)
  have hrel := h.fetched hs (Or.inl rfl) hf
  simp only at hcode
  split at hcode
  · -- the offset goes through the second scratch register
    cases hcode
    obtain ⟨m₂, hline₂, hval₂, hmem₂, hkeeps₂⟩ : Writes A.im A.func m₁
      [.imm Reg.scratch1 off] Reg.scratch1 (word off) :=
        writes_imm hrel.zero (by decide) (by decide) off
    have hrel₂ := hrel.scratch hs (hkeeps₂.mono fun q hq => Or.inr hq) hmem₂
    have hx : m₂.val x = a := by
      rw [hkeeps₂.val x hf.valid hne, hf.val_eq]
    obtain ⟨m₃, hline₃, hval₃, hmem₃, hkeeps₃⟩ : Writes A.im A.func m₂
      [.binary Reg.scratch0 .add x Reg.scratch1] Reg.scratch0 (a + word off) :=
        writes_binary hrel₂.zero (by decide) (by decide) hf.valid (by decide)
          (by rw [hx, hval₂]; rfl)
    refine ⟨m₃, ?_, ?_, by decide, by decide, by decide,
      hrel₂.scratch hs (hkeeps₃.mono fun q hq => Or.inl hq) hmem₃⟩
    · exact line?_append_of hf.line (line?_append_of hline₂ hline₃)
    · rw [hval₃]
      exact Int32.add_zero _
  · next hoff =>
    cases hcode
    exact ⟨m₁, hf.line, by rw [hf.val_eq], hf.valid, hne, by simpa using hoff, hrel⟩

/-- An operand is moved to a register of any kind: the last instruction writes the register, what
comes before it touches a scratch register alone. -/
theorem Related.moveInto (h : A.Related live s m) {q : Reg} {v : Val} {x : Word}
    {code : List Instr} (hq : q.Valid) (hq0 : q ≠ Reg.x0)
    (hlive : ∀ u, A.cx.vars.vreg? v = some u → live u)
    (hcode : Lowering.moveInto A.cx q v = .ok code)
    (hx : s.eval A.layout A.cx.vars v = some x) :
    ∃ c₁ instr m₁, code = c₁ ++ [instr] ∧ line? A.im A.func m c₁ = some m₁ ∧ m₁.mem = m.mem ∧
      Keeps (· = Reg.scratch1) m m₁ ∧ Writes A.im A.func m₁ [instr] q x := by
  -- all but constants are fetched first and moved then
  have hfetched : ∀ {c₁ : List Instr} {a : Reg}, Lowering.fetch A.cx Reg.scratch1 v = .ok (c₁, a) →
      ∃ m₁, line? A.im A.func m c₁ = some m₁ ∧ m₁.mem = m.mem ∧ Keeps (· = Reg.scratch1) m m₁ ∧
        Writes A.im A.func m₁ [.move q a] q x := by
    intro c₁ a h₁
    obtain ⟨m₁, hf⟩ := h.fetch hs (Or.inr rfl) h₁ hlive hx
    have hrel := h.fetched hs (Or.inr rfl) hf
    refine ⟨m₁, hf.line, hf.mem_eq, hf.keeps, ?_⟩
    rw [← hf.val_eq]
    exact writes_move hrel.zero hq hq0 hf.valid
  cases v with
  | const n =>
    cases hcode
    cases hx
    exact ⟨[], _, m, rfl, rfl, rfl, Keeps.refl _ _, writes_imm h.zero hq hq0 n⟩
  | temp n =>
    obtain ⟨⟨c₁, a⟩, h₁, hcode⟩ := bind_eq_ok.1 hcode
    cases hcode
    obtain ⟨m₁, hline, hmem, hkeeps, hwrites⟩ := hfetched h₁
    exact ⟨c₁, _, m₁, rfl, hline, hmem, hkeeps, hwrites⟩
  | var id =>
    obtain ⟨⟨c₁, a⟩, h₁, hcode⟩ := bind_eq_ok.1 hcode
    cases hcode
    obtain ⟨m₁, hline, hmem, hkeeps, hwrites⟩ := hfetched h₁
    exact ⟨c₁, _, m₁, rfl, hline, hmem, hkeeps, hwrites⟩

end Lines

/-! ## One lemma for each statement -/

/-- What a statement reads is live there. -/
theorem live_of_source (hs : A.cx.placed.Sound A.cx.vars fl)
    (hst : A.cx.placed.func.stmts[i]? = some st) {v : Val} (hv : v ∈ st.sources) {u : VReg}
    (hu : A.cx.vars.vreg? v = some u) : A.cx.placed.Live i u :=
  hs.live_of_use hst (List.mem_filterMap.2 ⟨v, hv, hu⟩)

/-- Operands change places only where the operator commutes. -/
theorem orient_cases {op : BinOp} {l r l' r' : Val} (h : Lowering.orient op l r = (l', r')) :
    (l' = l ∧ r' = r) ∨ (l' = r ∧ r' = l ∧
      ∀ x y, Machine.binary op x y = Machine.binary op y x) := by
  unfold Lowering.orient at h
  split at h
  · next hcond =>
    cases h
    refine Or.inr ⟨rfl, rfl, fun x y => ?_⟩
    simp only [Bool.and_eq_true, Bool.or_eq_true, decide_eq_true_eq] at hcond
    -- Operands are only exchanged when the operator commutes.
    rcases hcond.2 with rfl | rfl
    · simp only [Machine.binary, Int32.add_comm]
    · simp only [Machine.binary, Int32.mul_comm]
  · cases h
    exact Or.inl ⟨rfl, rfl⟩

section Statements

variable (hs : A.cx.placed.Sound A.cx.vars fl) (h : A.Related (A.cx.placed.Live i) s m)
  {code : List Instr} {j : Nat} {labels : Std.TreeMap Int Nat}

include hs h

-- The equations of a step are made once, before the lemmas that invert it.
attribute [local simp] Semantics.step

/-- The code of an operation keeps the relation. -/
theorem line_binary {d l r : Val} {op : BinOp}
    (hst : A.cx.placed.func.stmts[i]? = some (.binary d l op r))
    (hread : Lowering.unread A.cx i d = false)
    (hcode : Lowering.binary A.cx d l op r = .ok code)
    (hstep : Semantics.step A.layout A.cx.vars labels i s (.binary d l op r) = some (.next j s')) :
    ∃ m', line? A.im A.func m code = some m' ∧ A.Related (A.cx.placed.Live (i + 1)) s' m' := by
  simp only [Semantics.step, Option.bind_eq_bind, Option.bind_eq_some_iff] at hstep
  obtain ⟨x, hx, y, hy, w, hw, t, hassign, hout⟩ := hstep
  cases hout
  have hw : Machine.binary op x y = .ok w := by
    cases hb : Machine.binary op x y with
    | error c => rw [hb] at hw; cases hw
    | ok z => rw [hb] at hw; cases hw; rfl
  obtain ⟨l', r', q, c₁, a, horient, htarget, h₁, hform⟩ := Lowering.binary_parts hcode
  obtain ⟨hq, hq0⟩ := target_valid hs htarget
  have hsrc : ∀ v ∈ [l, r], ∀ u, A.cx.vars.vreg? v = some u → A.cx.placed.Live i u :=
    fun v hv u hu => live_of_source hs hst hv hu
  -- whichever way the operands stand, their values give the same result
  obtain ⟨x', y', hx', hy', hw', hl', hr'⟩ : ∃ x' y', s.eval A.layout A.cx.vars l' = some x' ∧
      s.eval A.layout A.cx.vars r' = some y' ∧ Machine.binary op x' y' = .ok w ∧
      l' ∈ [l, r] ∧ r' ∈ [l, r] := by
    rcases orient_cases horient with ⟨rfl, rfl⟩ | ⟨rfl, rfl, hcomm⟩
    · exact ⟨x, y, hx, hy, hw, by simp, by simp⟩
    · exact ⟨y, x, hy, hx, by rw [← hcomm, hw], by simp, by simp⟩
  rcases hform with ⟨n, instr, rfl, hby, rfl⟩ | ⟨c₂, b, h₂, rfl⟩
  · obtain rfl : word n = y' := Option.some.inj hy'
    obtain ⟨m₁, hf⟩ := h.fetch hs (Or.inl rfl) h₁ (hsrc l' hl') hx'
    have hrel := h.fetched hs (Or.inl rfl) hf
    have hwrites : Writes A.im A.func m₁ [instr] q w :=
      byConstant?_writes hrel.zero hq hq0 hf.valid hby (by rw [hf.val_eq, hw'])
    obtain ⟨m₂, hline, hrel₂⟩ := hrel.result hs hst (fun _ _ => rfl) rfl hread htarget hwrites
      hassign
    exact ⟨m₂, by rw [List.append_assoc]; exact line?_append_of hf.line hline, hrel₂⟩
  · obtain ⟨m₁, hline₁, hva, hvb, ha, hb, hrel⟩ := h.fetch_pair hs h₁ h₂ (hsrc l' hl')
      (hsrc r' hr') hx' hy'
    have hwrites : Writes A.im A.func m₁ [.binary q op a b] q w :=
      writes_binary hrel.zero hq hq0 ha hb (by rw [hva, hvb, hw'])
    obtain ⟨m₂, hline, hrel₂⟩ := hrel.result hs hst (fun _ _ => rfl) rfl hread htarget hwrites
      hassign
    exact ⟨m₂, by rw [List.append_assoc]; exact line?_append_of hline₁ hline, hrel₂⟩

/-- The code of a unary operation keeps the relation. -/
theorem line_unary {d v : Val} {op : UnOp}
    (hst : A.cx.placed.func.stmts[i]? = some (.unary d op v))
    (hread : Lowering.unread A.cx i d = false)
    (hcode : Lowering.unary A.cx d op v = .ok code)
    (hstep : Semantics.step A.layout A.cx.vars labels i s (.unary d op v) = some (.next j s')) :
    ∃ m', line? A.im A.func m code = some m' ∧ A.Related (A.cx.placed.Live (i + 1)) s' m' := by
  simp only [Semantics.step, Option.bind_eq_bind, Option.bind_eq_some_iff] at hstep
  obtain ⟨x, hx, t, hassign, hout⟩ := hstep
  cases hout
  unfold Lowering.unary at hcode
  obtain ⟨⟨c₁, a⟩, h₁, hcode⟩ := bind_eq_ok.1 hcode
  obtain ⟨q, htarget, hcode⟩ := bind_eq_ok.1 hcode
  obtain ⟨hq, hq0⟩ := target_valid hs htarget
  obtain ⟨m₁, hf⟩ := h.fetch hs (Or.inr rfl) h₁
    (fun u hu => live_of_source hs hst (List.mem_singleton_self v) hu) hx
  have hrel := h.fetched hs (Or.inr rfl) hf
  -- The unary plus is lowered to a move.
  obtain ⟨instr, rfl, hwrites⟩ : ∃ instr, code = c₁ ++ [instr] ++ Lowering.finish A.cx d q ∧
      Writes A.im A.func m₁ [instr] q (Machine.unary op (m₁.val a)) := by
    cases op with
    | plus => exact ⟨_, (Except.ok.inj hcode).symm, writes_move hrel.zero hq hq0 hf.valid⟩
    | neg => exact ⟨_, (Except.ok.inj hcode).symm, writes_unary hrel.zero hq hq0 .neg hf.valid⟩
    | not => exact ⟨_, (Except.ok.inj hcode).symm, writes_unary hrel.zero hq hq0 .not hf.valid⟩
  rw [hf.val_eq] at hwrites
  obtain ⟨m₂, hline, hrel₂⟩ := hrel.result hs hst (fun _ _ => rfl) rfl hread htarget hwrites hassign
  exact ⟨m₂, by rw [List.append_assoc]; exact line?_append_of hf.line hline, hrel₂⟩

/-- The code of a move keeps the relation. -/
theorem line_move {d v : Val} (hst : A.cx.placed.func.stmts[i]? = some (.move d v))
    (hread : Lowering.unread A.cx i d = false) (hcode : Lowering.move A.cx d v = .ok code)
    (hstep : Semantics.step A.layout A.cx.vars labels i s (.move d v) = some (.next j s')) :
    ∃ m', line? A.im A.func m code = some m' ∧ A.Related (A.cx.placed.Live (i + 1)) s' m' := by
  simp only [Semantics.step, Option.bind_eq_bind, Option.bind_eq_some_iff] at hstep
  obtain ⟨x, hx, t, hassign, hout⟩ := hstep
  cases hout
  unfold Lowering.move at hcode
  obtain ⟨q, htarget, hcode⟩ := bind_eq_ok.1 hcode
  obtain ⟨c, hmove, hcode⟩ := bind_eq_ok.1 hcode
  cases hcode
  obtain ⟨hq, hq0⟩ := target_valid hs htarget
  obtain ⟨c₁, instr, m₁, rfl, hline₁, hmem₁, hkeeps₁, hwrites⟩ := h.moveInto hs hq hq0
    (fun u hu => live_of_source hs hst (List.mem_singleton_self v) hu) hmove hx
  have hrel := h.scratch hs (hkeeps₁.mono fun q hq => Or.inr hq) hmem₁
  obtain ⟨m₂, hline, hrel₂⟩ := hrel.result hs hst (fun _ _ => rfl) rfl hread htarget hwrites hassign
  exact ⟨m₂, by rw [List.append_assoc]; exact line?_append_of hline₁ hline, hrel₂⟩

/-- The code of a load keeps the relation. -/
theorem line_load {d b : Val} {off : Int} (hst : A.cx.placed.func.stmts[i]? = some (.load d b off))
    (hread : Lowering.unread A.cx i d = false) (hcode : Lowering.load A.cx d b off = .ok code)
    (hstep : Semantics.step A.layout A.cx.vars labels i s (.load d b off) = some (.next j s')) :
    ∃ m', line? A.im A.func m code = some m' ∧ A.Related (A.cx.placed.Live (i + 1)) s' m' := by
  simp only [Semantics.step, Option.bind_eq_bind, Option.bind_eq_some_iff] at hstep
  obtain ⟨a, ha, x, hx, t, hassign, hout⟩ := hstep
  cases hout
  obtain ⟨k, hk, rfl⟩ := Option.map_eq_some_iff.1 hx
  unfold Lowering.load at hcode
  obtain ⟨⟨c₁, r, o⟩, haddr, hcode⟩ := bind_eq_ok.1 hcode
  obtain ⟨q, htarget, hcode⟩ := bind_eq_ok.1 hcode
  cases hcode
  obtain ⟨hq, hq0⟩ := target_valid hs htarget
  obtain ⟨m₁, hline₁, hsum, hr, _, ho, hrel⟩ := h.address hs haddr
    (fun u hu => live_of_source hs hst (List.mem_singleton_self b) hu) ha
  -- The words that the statements can reach lie where the machine has them.
  obtain ⟨hidx, hdata⟩ : m₁.wordIndex? (a + word off) = some k ∧ A.data k = true :=
    hrel.fits.wordIndex?_data rfl hk
  have hwrites : Writes A.im A.func m₁ [.load q r o] q (s.mem k) := by
    rw [← hrel.words_eq k hdata]
    exact writes_load hrel.zero hq hq0 ho hr (by rw [hsum, hidx])
  obtain ⟨m₂, hline, hrel₂⟩ := hrel.result hs hst (fun _ _ => rfl) rfl hread htarget hwrites hassign
  exact ⟨m₂, by rw [List.append_assoc]; exact line?_append_of hline₁ hline, hrel₂⟩

/-- The code of a store keeps the relation. -/
theorem line_store {b v : Val} {off : Int}
    (hst : A.cx.placed.func.stmts[i]? = some (.store b off v))
    (hcode : Lowering.store A.cx b off v = .ok code)
    (hstep : Semantics.step A.layout A.cx.vars labels i s (.store b off v) = some (.next j s')) :
    ∃ m', line? A.im A.func m code = some m' ∧ A.Related (A.cx.placed.Live (i + 1)) s' m' := by
  simp only [Semantics.step, Option.bind_eq_bind, Option.bind_eq_some_iff] at hstep
  obtain ⟨a, ha, x, hx, t, hstore, hout⟩ := hstep
  cases hout
  obtain ⟨k, hk, rfl⟩ := Option.map_eq_some_iff.1 hstore
  unfold Lowering.store at hcode
  obtain ⟨⟨c₁, r, o⟩, haddr, hcode⟩ := bind_eq_ok.1 hcode
  obtain ⟨⟨c₂, y⟩, h₂, hcode⟩ := bind_eq_ok.1 hcode
  cases hcode
  have hsrc : ∀ w ∈ [b, v], ∀ u, A.cx.vars.vreg? w = some u → A.cx.placed.Live i u :=
    fun w hw u hu => live_of_source hs hst hw hu
  obtain ⟨m₁, hline₁, hsum, hr, hr1, ho, hrel⟩ := h.address hs haddr (hsrc b (by simp)) ha
  obtain ⟨m₂, hf⟩ := hrel.fetch hs (Or.inr rfl) h₂ (hsrc v (by simp)) hx
  have hrel₂ := hrel.fetched hs (Or.inr rfl) hf
  obtain ⟨hidx, hdata⟩ : m₂.wordIndex? (a + word off) = some k ∧ A.data k = true :=
    hrel₂.fits.wordIndex?_data rfl hk
  -- fetching the value leaves the address alone, which is not in the second scratch register
  obtain ⟨m₃, hline₃, hmem₃, hkeeps₃⟩ : Stores A.im A.func m₂ [.store r o y] k (m₂.val y) :=
    stores_store hrel₂.zero ho hr hf.valid (by rw [hf.keeps.val r hr hr1, hsum, hidx])
  rw [hf.val_eq] at hmem₃
  refine ⟨m₃, line?_append_of (line?_append_of hline₁ hf.line) hline₃, ?_⟩
  refine Related.mono (hrel₂.store hs (hkeeps₃.mono fun q hq => hq.elim) hdata hmem₃) fun u hu => ?_
  exact live_of_live_next hs hst (fun _ _ => rfl) hu (by simp [Stmt.defs, Stmt.dst?])

end Statements

end Activation

end Tac
