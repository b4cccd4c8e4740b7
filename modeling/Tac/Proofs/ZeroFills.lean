import Tac.Proofs.Initialization

/-!
# Zeroed words

The code of a zero fill, short or long, writes zero to the words of its array and leaves all other
words of memory alone.  It is run on its own here, from any machine whose frame lies in memory.

* **`HasFrame`** — the frame of the running function lies in memory; calling a function makes it so
  (`hasFrame_take`).
* **`line_zeros`** — stores of zero, one for each word.
* **`Zeroing`** — the invariant of a zeroing loop; `reaches_zeros` is the induction on the words still
  to be written.
* **`reaches_zeroLoop`** — the whole loop with the code before it.
-/

namespace Tac

namespace Machine

variable {im : Image} {f : LoadedFunc} {m m₀ m₁ m' : Machine} {stack slot : Int}

/-! ## Frames in memory -/

/-- The `stack` words above the stack pointer lie in memory and have addresses. -/
structure HasFrame (m : Machine) (stack : Int) : Prop where
  aligned : m.sp.toInt % 4 = 0
  above : 4 ≤ m.sp.toInt
  inside : m.sp.toInt + 4 * stack ≤ 4 * m.mem.size
  small : m.sp.toInt + 4 * stack < 2147483648

/-- The memory word of a frame slot. -/
def slotWord (m : Machine) (slot : Int) : Nat := (m.sp.toInt / 4 + slot).toNat

/-- Code that keeps the stack pointer keeps the frame. -/
theorem HasFrame.of_keeps {touched : Reg → Prop} (h : m.HasFrame stack) (hk : Keeps touched m m') :
    m'.HasFrame stack := by
  obtain ⟨h1, h2, h3, h4⟩ := h
  rw [← hk.sp] at h1 h2 h3 h4
  rw [← hk.size] at h3
  exact ⟨h1, h2, h3, h4⟩

/-- Code that keeps the stack pointer keeps the addresses of slots. -/
theorem Keeps.slotAddr {touched : Reg → Prop} (hk : Keeps touched m m') (slot : Int) :
    m'.slotAddr slot = m.slotAddr slot := by
  unfold Machine.slotAddr
  rw [hk.sp]

/-- The address of a slot does not wrap. -/
theorem HasFrame.toInt_slotAddr (h : m.HasFrame stack) (h0 : 0 ≤ slot) (h1 : slot ≤ stack) :
    (m.slotAddr slot).toInt = m.sp.toInt + 4 * slot := by
  have := h.above
  have := h.small
  apply toInt_add_word <;> omega

/-- The address of a slot is a word of the memory. -/
theorem HasFrame.wordIndex?_slot (h : m.HasFrame stack) (h0 : 0 ≤ slot) (h1 : slot < stack) :
    m.wordIndex? (m.slotAddr slot) = some (m.slotWord slot) := by
  have := h.aligned
  have := h.above
  have := h.inside
  unfold wordIndex? slotWord
  simp only [h.toInt_slotAddr h0 h1.le]
  rw [if_neg (by omega)]
  congr 1
  omega

/-- Different slots are different words. -/
theorem HasFrame.slotWord_injective (h : m.HasFrame stack) {s t : Int} (hs : 0 ≤ s) (ht : 0 ≤ t)
    (heq : m.slotWord s = m.slotWord t) : s = t := by
  have := h.above
  unfold slotWord at heq
  omega

/-- A call leaves the frame of its function in memory, if the frame has a size that fits a word and
the check of the stack accepts it. -/
theorem hasFrame_take {base : Word} (halign : m.sp.toInt % 4 = 0) (h0 : 0 ≤ m.sp.toInt)
    (htop : m.sp.toInt ≤ 4 * m.mem.size) (hstack : 0 ≤ stack)
    (hsmall : frameBytes stack < 2147483648) (hbytes : 4 * stack + 4 ≤ frameBytes stack)
    (hmul : 16 ∣ frameBytes stack) (hframe : f.frame = word (frameBytes stack))
    (hbase : 4 ≤ base.toInt) (hcheck : ¬ m.sp - f.frame < base) : (m.take f).HasFrame stack := by
  have hle : base.toInt ≤ (m.sp - f.frame).toInt :=
    Int.not_lt.1 fun h => hcheck (Int32.lt_iff_toInt_lt.2 h)
  have hmax := m.sp.toInt_lt
  have hsp : (m.sp - f.frame).toInt = m.sp.toInt - frameBytes stack := by
    rw [hframe, Int32.sub_eq_add_neg, ← word_neg]
    apply toInt_add_word <;> omega
  constructor <;> simp only [take, hsp] at * <;> omega

/-! ## Stores -/

/-- Zero for each of `n` words of the frame from slot `slot` on. -/
def zeros (m : Machine) (slot : Int) (n : Nat) : List (Nat × Word) :=
  (List.range n).map fun (k : Nat) => (m.slotWord (slot + k), 0)

/-- One more word to be cleared. -/
theorem zeros_succ (m : Machine) (slot : Int) (n : Nat) :
    m.zeros slot (n + 1) = m.zeros slot n ++ [(m.slotWord (slot + n), 0)] := by
  rw [zeros, List.range_succ, List.map_append]
  rfl

/-- One more word is zero. -/
theorem HasFrame.filled_succ (h : m.HasFrame stack) (h0 : 0 ≤ slot) {n : Nat} {μ : Memory}
    (hfill : m.mem.Filled (m.zeros slot n) μ) :
    m.mem.Filled (m.zeros slot (n + 1)) (μ.set (m.slotWord (slot + n)) 0) := by
  rw [zeros_succ]
  refine hfill.append (Memory.filled_set ..) fun w hw w' hw' heq => ?_
  obtain ⟨k, hk, rfl⟩ := List.mem_map.1 hw
  obtain rfl := List.mem_singleton.1 hw'
  have := h.slotWord_injective (by omega) (by omega) heq
  have := List.mem_range.1 hk
  omega

variable (hframe : m.HasFrame stack) (hz : m.val Reg.x0 = 0) (h0 : 0 ≤ slot)

include hframe hz h0

/-- Stores of zero, one for each word. -/
theorem line_zeros {n : Nat} (hn : slot + n ≤ stack) :
    ∃ m', line? im f m ((List.range n).map fun (k : Nat) =>
        Instr.storeStack Reg.x0 (wrap64 (slot + k))) = some m' ∧
      m.mem.Filled (m.zeros slot n) m'.mem ∧ Keeps (fun _ => False) m m' := by
  -- On the words cleared so far; the last store comes behind the others.
  induction n with
  | zero => exact ⟨m, rfl, Memory.Filled.nil _, Keeps.refl ..⟩
  | succ n ih =>
    obtain ⟨m₁, hline₁, hfill₁, hkeep₁⟩ := ih (by omega)
    have hz₁ : m₁.val Reg.x0 = 0 := (hkeep₁.val _ (by decide) not_false).trans hz
    -- the frame is small, so the slot does not wrap
    have hindex : m₁.wordIndex? (m₁.slotAddr (wrap64 (slot + n))) = some (m.slotWord (slot + n)) := by
      have := hframe.above
      have := hframe.small
      rw [wrap64_of_range (by omega) (by omega),
        (hframe.of_keeps hkeep₁).wordIndex?_slot (by omega) (by omega), slotWord, hkeep₁.sp]
      rfl
    obtain ⟨m₂, hline₂, hmem₂, hkeep₂⟩ : Stores im f m₁ [.storeStack Reg.x0 (wrap64 (slot + n))]
        (m.slotWord (slot + n)) (m₁.val Reg.x0) := stores_storeStack hz₁ (by decide) hindex
    rw [hz₁] at hmem₂
    refine ⟨m₂, ?_, hmem₂ ▸ hframe.filled_succ h0 hfill₁, hkeep₁.trans hkeep₂⟩
    rw [List.range_succ, List.map_append]
    exact line?_append_of hline₁ hline₂

omit hframe hz h0

/-! ## Loops -/

/-- A zeroing loop has written `t` of `n` words: the first scratch register holds the address of the
next word, the second the address to stop at. -/
structure Zeroing (m : Machine) (slot : Int) (n t : Nat) (m' : Machine) : Prop where
  next : m'.val Reg.scratch0 = m.slotAddr (slot + t)
  stop : m'.val Reg.scratch1 = m.slotAddr (slot + n)
  filled : m.mem.Filled (m.zeros slot t) m'.mem
  keeps : Keeps Reg.Scratch m m'

/-- The addresses of slots are evenly spaced. -/
theorem slotAddr_add (m : Machine) (slot n : Int) :
    m.slotAddr (slot + n) = m.slotAddr slot + word (4 * n) := by
  rw [slotAddr, slotAddr, Int.mul_add, word_add, Int32.add_assoc]

/-- During the loop the zero register is zero. -/
theorem Zeroing.zero {n t : Nat} (h : Zeroing m slot n t m') (hz : m.val Reg.x0 = 0) :
    m'.val Reg.x0 = 0 := by
  rw [h.keeps.val _ (by decide) (by simp [Reg.Scratch]; decide)]
  exact hz

/-- Passing a label or a branch keeps the invariant. -/
theorem Zeroing.idle {n t : Nat} (h : Zeroing m slot n t m') (hz : m.val Reg.x0 = 0) :
    Zeroing m slot n t m'.tick.resetZero := by
  have hkeep : Keeps (fun _ => False) m' m'.tick.resetZero := keeps_idle (h.zero hz)
  refine ⟨?_, ?_, h.filled, h.keeps.trans (hkeep.mono fun _ hq => hq.elim)⟩
  · rw [hkeep.val _ (by decide) not_false, h.next]
  · rw [hkeep.val _ (by decide) not_false, h.stop]

/-- The code before the loop sets both registers. -/
theorem line_head (hz : m.val Reg.x0 = 0) (n : Nat) :
    ∃ m', line? im f m (Lowering.loopHead slot n) = some m' ∧ Zeroing m slot n 0 m' := by
  obtain ⟨m₁, hline₁, hval₁, hmem₁, hkeep₁⟩ : Writes im f m [.addrStack Reg.scratch0 slot]
      Reg.scratch0 (m.slotAddr slot) := writes_addrStack hz (by decide) (by decide) slot
  have hz₁ : m₁.val Reg.x0 = 0 := (hkeep₁.val _ (by decide) (by decide)).trans hz
  -- both ways to add the size leave the address to stop at in the second register
  have hsize : Writes im f m₁
      (if immOverflows (wrap64 (4 * n)) then
        [.imm Reg.scratch1 (wrap64 (4 * n)), .binary Reg.scratch1 .add Reg.scratch0 Reg.scratch1]
      else [.addImm Reg.scratch1 Reg.scratch0 (wrap64 (4 * n))]) Reg.scratch1
      (m.slotAddr (slot + n)) := by
    rw [slotAddr_add, ← word_wrap64 (4 * n), ← hval₁]
    split
    · obtain ⟨m₂, hline₂, hval₂, hmem₂, hkeep₂⟩ : Writes im f m₁
          [.imm Reg.scratch1 (wrap64 (4 * n))] Reg.scratch1 (word (wrap64 (4 * n))) :=
        writes_imm hz₁ (by decide) (by decide) _
      have hz₂ : m₂.val Reg.x0 = 0 := (hkeep₂.val _ (by decide) (by decide)).trans hz₁
      obtain ⟨m₃, hline₃, hval₃, hmem₃, hkeep₃⟩ : Writes im f m₂
          [.binary Reg.scratch1 .add Reg.scratch0 Reg.scratch1] Reg.scratch1
          (m₂.val Reg.scratch0 + m₂.val Reg.scratch1) :=
        writes_binary hz₂ (by decide) (by decide) (by decide) (by decide) rfl
      refine ⟨m₃, line?_append_of hline₂ hline₃, ?_, hmem₃.trans hmem₂, hkeep₂.trans hkeep₃⟩
      rw [hval₃, hval₂, hkeep₂.val _ (by decide) (by decide)]
    · next hsmall =>
      exact writes_addImm hz₁ (by decide) (by decide) (by simpa using hsmall) (by decide)
  obtain ⟨m₂, hline₂, hval₂, hmem₂, hkeep₂⟩ := hsize
  refine ⟨m₂, line?_append_of hline₁ hline₂, ?_, hval₂, ?_,
    (hkeep₁.mono fun _ h => Or.inl h).trans (hkeep₂.mono fun _ h => Or.inr h)⟩
  · rw [hkeep₂.val _ (by decide) (by decide), hval₁, Int.natCast_zero, Int.add_zero]
  · rw [hmem₂, hmem₁]
    exact Memory.Filled.nil _

section Turns

variable (hframe : m.HasFrame stack) (hz : m.val Reg.x0 = 0) (h0 : 0 ≤ slot)

include hframe hz h0

/-- The store and the increment of one turn. -/
theorem Zeroing.turn {n t : Nat} (h : Zeroing m slot n t m₁) (ht : slot + t < stack) :
    ∃ m', line? im f m₁ [.store Reg.scratch0 0 Reg.x0, .addImm Reg.scratch0 Reg.scratch0 4] =
      some m' ∧ Zeroing m slot n (t + 1) m' := by
  have hz₁ := h.zero hz
  -- The pointer stands at the next word of the array.
  have hindex : m₁.wordIndex? (m₁.val Reg.scratch0 + word 0) = some (m.slotWord (slot + t)) := by
    rw [h.next, show word 0 = 0 from rfl, Int32.add_zero, ← h.keeps.slotAddr,
      (hframe.of_keeps h.keeps).wordIndex?_slot (by omega) ht, slotWord, h.keeps.sp]
    rfl
  obtain ⟨m₂, hline₂, hmem₂, hkeep₂⟩ : Stores im f m₁ [.store Reg.scratch0 0 Reg.x0]
      (m.slotWord (slot + t)) (m₁.val Reg.x0) :=
    stores_store hz₁ (by decide) (by decide) (by decide) hindex
  rw [hz₁] at hmem₂
  have hz₂ : m₂.val Reg.x0 = 0 := (hkeep₂.val _ (by decide) not_false).trans hz₁
  obtain ⟨m₃, hline₃, hval₃, hmem₃, hkeep₃⟩ : Writes im f m₂
      [.addImm Reg.scratch0 Reg.scratch0 4] Reg.scratch0 (m₂.val Reg.scratch0 + word 4) :=
    writes_addImm hz₂ (by decide) (by decide) (by decide) (by decide)
  refine ⟨m₃, line?_append_of hline₂ hline₃, ?_, ?_, ?_, ?_⟩
  · rw [hval₃, hkeep₂.val _ (by decide) not_false, h.next, Nat.cast_succ, ← Int.add_assoc,
      slotAddr_add _ _ 1]
    rfl
  · rw [hkeep₃.val _ (by decide) (by decide), hkeep₂.val _ (by decide) not_false, h.stop]
  · rw [hmem₃, hmem₂]
    exact hframe.filled_succ h0 h.filled
  · exact (h.keeps.trans (hkeep₂.mono fun _ hq => hq.elim)).trans (hkeep₃.mono fun _ hq => Or.inl hq)

/-- The loop writes the words that are left. -/
theorem reaches_zeros {loop : Int} {pc n : Nat}
    (hcode : CodeAt f pc (.label loop :: Lowering.loopTurn loop)) (hlabel : f.labels[loop]? = some pc)
    (hn : slot + n ≤ stack) (d t : Nat) (hd : t + (d + 1) = n) (h : Zeroing m slot n t m₁) :
    ∃ m', Reaches im f m₁ (pc + 1) m' (pc + 4) ∧
      m.mem.Filled (m.zeros slot n) m'.mem ∧ Keeps Reg.Scratch m m' := by
  have hline : CodeAt f (pc + 1)
      [.store Reg.scratch0 0 Reg.x0, .addImm Reg.scratch0 Reg.scratch0 4] := hcode.tail.left
  have hbranch : f.body[pc + 3]? = some (.branch Reg.scratch0 Reg.scratch1 .lt loop) :=
    hcode.tail.tail.tail.head
  have hturn : ∀ (t : Nat) (m₁ : Machine), slot + t < stack → Zeroing m slot n t m₁ →
      ∃ m', line? im f m₁ [.store Reg.scratch0 0 Reg.x0, .addImm Reg.scratch0 Reg.scratch0 4] =
        some m' ∧ Zeroing m slot n (t + 1) m' := fun t m₁ ht h => h.turn hframe hz h0 ht
  -- induction on the turns left after this one, with the invariant at the head of the turn
  induction d generalizing t m₁ with
  | zero =>
    subst hd
    obtain ⟨m₂, hline₂, h₂⟩ := hturn t m₁ (by omega) h
    refine ⟨m₂.tick.resetZero, (reaches_line hline hline₂).trans
      (reaches_untaken hbranch (by decide) (by decide) ?_), (h₂.idle hz).filled, (h₂.idle hz).keeps⟩
    rw [h₂.next, h₂.stop]
    exact decide_eq_false Int32.lt_irrefl
  | succ d ih =>
    obtain ⟨m₂, hline₂, h₂⟩ := hturn t m₁ (by omega) h
    obtain ⟨m', hreach, hdone⟩ := ih (t + 1) (by omega) (h₂.idle hz)
    refine ⟨m', ((reaches_line hline hline₂).trans
      (reaches_taken hbranch (by decide) (by decide) ?_ hlabel)).trans hreach, hdone⟩
    -- addresses in the frame are in order, so the comparison is exact
    rw [h₂.next, h₂.stop]
    apply decide_eq_true
    rw [Int32.lt_iff_toInt_lt, hframe.toInt_slotAddr (by omega) (by omega),
      hframe.toInt_slotAddr (by omega) (by omega)]
    omega

/-- The whole loop. -/
theorem reaches_zeroLoop {loop : Int} {pc n : Nat} (hpos : 0 < n) (hn : slot + n ≤ stack)
    (hcode : CodeAt f pc (Lowering.zeroLoop loop slot n))
    (hlabel : f.labels[loop]? = some (pc + (Lowering.loopHead slot n).length)) :
    ∃ m', Reaches im f m pc m' (pc + (Lowering.zeroLoop loop slot n).length) ∧
      m.mem.Filled (m.zeros slot n) m'.mem ∧ Keeps Reg.Scratch m m' := by
  rw [Lowering.zeroLoop_eq] at hcode ⊢
  obtain ⟨m₁, hline₁, h₁⟩ : ∃ m', line? im f m (Lowering.loopHead slot n) = some m' ∧
      Zeroing m slot n 0 m' := line_head hz n
  -- The label of the loop is an instruction of its own.
  have hpass : Reaches im f m₁ _ m₁.tick.resetZero _ := reaches_next hcode.right.head rfl
  obtain ⟨m', hreach, hdone⟩ : ∃ m', Reaches im f m₁.tick.resetZero
        (pc + (Lowering.loopHead slot n).length + 1) m' (pc + (Lowering.loopHead slot n).length + 4) ∧
      m.mem.Filled (m.zeros slot n) m'.mem ∧ Keeps Reg.Scratch m m' :=
    reaches_zeros hframe hz h0 hcode.right hlabel hn (n - 1) 0 (by omega) (h₁.idle hz)
  refine ⟨m', ((reaches_line hcode.left hline₁).trans hpass).trans ?_, hdone⟩
  rw [List.length_append, ← Nat.add_assoc]
  exact hreach

end Turns

end Machine

end Tac
