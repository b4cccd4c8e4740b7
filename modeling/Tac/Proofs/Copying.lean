import Mathlib
import Tac.Proofs.CopyLoop
import Tac.Proofs.Labels
import Tac.Proofs.Preserved
import Tac.Proofs.Walks

/-!
# The code of the word copy

The loop that the hand-written code replaces counts an index and computes both addresses from it.  The
code walks two pointers up to the end of the source, which is compared as a signed number.  When every
access of the loop is to a word of a memory below 2^31 bytes, the source pointer never wraps around, so
it reaches its end exactly when the index reaches the length; the other pointer may wrap around where
the address does.

* **`below_end`** — the test of the pointers is the test of the index.
* **`walk_copy`** — the code walks through the same memories as the loop, word by word, so it does not
  matter how source and destination overlap.
* **`call_memmove`** — calls of the code.
-/

namespace Tac.Builtin

open Machine

/-! ## The code -/

/-- The registers of the code at the head of its loop, with `i` words copied. -/
structure Copied (dst pos src len i : Word) (m : Machine) : Prop where
  zero : m.val Reg.x0 = 0
  source : m.val (Reg.a 2) = src + 4 * i
  target : m.val (Reg.a 1) = dst + 4 * (pos + i)
  stop : m.val (Reg.t 1) = src + 4 * len
  count : m.val (Reg.a 3) = len

/-- Code that touches no register of the loop keeps its invariant. -/
theorem Copied.keep {dst pos src len i : Word} {m m' : Machine} (h : Copied dst pos src len i m)
    (hk : Keeps (fun _ => False) m m') : Copied dst pos src len i m' where
  zero := (hk.val _ (by decide) not_false).trans h.zero
  source := (hk.val _ (by decide) not_false).trans h.source
  target := (hk.val _ (by decide) not_false).trans h.target
  stop := (hk.val _ (by decide) not_false).trans h.stop
  count := (hk.val _ (by decide) not_false).trans h.count

/-- The same addresses are words of the same memory. -/
theorem wordIndex?_of_mem {m m' : Machine} (h : m'.mem = m.mem) {a : Word} {k : Nat}
    (hk : m.wordIndex? a = some k) : m'.wordIndex? a = some k := by
  rw [← hk]
  unfold wordIndex?
  rw [h]

/-- The registers that the code is known to write. -/
abbrev Clobbered (q : Reg) : Prop := memmove.clobber.contains q = true

section Code

variable (im : Image) {f : LoadedFunc} {m : Machine} {dst pos src len i : Word} {loop zero : Int}
  (hbody : f.body = (memmoveCode loop zero).toArray)

include hbody

/-- A turn copies a word and moves both pointers. -/
theorem walk_word {j k : Nat} (h : Copied dst pos src len i m)
    (hj : m.wordIndex? (src + 4 * i) = some j) (hk : m.wordIndex? (dst + 4 * (pos + i)) = some k) :
    ∃ m', Walk (fun _ _ => True) im f 4 m 6 m' 10 ∧ Copied dst pos src len (i + 1) m' ∧
      m'.mem = m.mem.set k (m.mem.get j) ∧ Keeps Clobbered m m' := by
  have hload : CodeAt f 6 [.load (Reg.t 0) (Reg.a 2) 0] := codeAt_of_body hbody ⟨_, rfl⟩
  have hstore : CodeAt f 7 [.store (Reg.a 1) 0 (Reg.t 0)] := codeAt_of_body hbody ⟨_, rfl⟩
  have hsource : CodeAt f 8 [.addImm (Reg.a 2) (Reg.a 2) 4] := codeAt_of_body hbody ⟨_, rfl⟩
  have htarget : CodeAt f 9 [.addImm (Reg.a 1) (Reg.a 1) 4] := codeAt_of_body hbody ⟨_, rfl⟩
  have hzero : ∀ x : Word, x + word 0 = x := fun x => Int32.add_zero x
  obtain ⟨m₁, hwalk₁, hval₁, hmem₁, hkeep₁⟩ := walk_writes im (P := fun _ _ => True) hload
    (writes_load (k := j) h.zero (by decide) (by decide) (by decide)
      (show (Reg.a 2).Valid by decide) (by rw [h.source, hzero, hj]))
    (fun _ _ => trivial) (fun _ _ _ => trivial)
  -- the load changes no address, so the store goes where the loop stores
  have hz₁ : m₁.val Reg.x0 = 0 := (hkeep₁.val _ (by decide) (by decide)).trans h.zero
  have hk₁ : m₁.wordIndex? (m₁.val (Reg.a 1) + word 0) = some k := by
    rw [hkeep₁.val _ (by decide) (by decide), h.target, hzero, ← hk]
    unfold wordIndex?
    rw [hkeep₁.size]
  obtain ⟨m₂, hwalk₂, hmem₂, hkeep₂⟩ := walk_stores im (P := fun _ _ => True) hstore
    (stores_store hz₁ (by decide) (by decide) (show (Reg.t 0).Valid by decide) hk₁)
    (fun _ _ => trivial) (fun _ _ _ => trivial)
  have hz₂ : m₂.val Reg.x0 = 0 := (hkeep₂.val _ (by decide) not_false).trans hz₁
  obtain ⟨m₃, hwalk₃, hval₃, hmem₃, hkeep₃⟩ := walk_writes im (P := fun _ _ => True) hsource
    (writes_addImm hz₂ (by decide) (by decide) (by decide) (by decide))
    (fun _ _ => trivial) (fun _ _ _ => trivial)
  have hz₃ : m₃.val Reg.x0 = 0 := (hkeep₃.val _ (by decide) (by decide)).trans hz₂
  obtain ⟨m₄, hwalk₄, hval₄, hmem₄, hkeep₄⟩ := walk_writes im (P := fun _ _ => True) htarget
    (writes_addImm hz₃ (by decide) (by decide) (by decide) (by decide))
    (fun _ _ => trivial) (fun _ _ _ => trivial)
  have hkeep : Keeps (fun q => q = Reg.t 0 ∨ q = Reg.a 2 ∨ q = Reg.a 1) m m₄ := by
    refine (((hkeep₁.mono ?_).trans (hkeep₂.mono ?_)).trans (hkeep₃.mono ?_)).trans (hkeep₄.mono ?_)
    · exact fun q hq => Or.inl hq
    · exact fun q hq => hq.elim
    · exact fun q hq => Or.inr (Or.inl hq)
    · exact fun q hq => Or.inr (Or.inr hq)
  refine ⟨m₄, ((hwalk₁.trans hwalk₂).trans hwalk₃).trans hwalk₄, ?_, ?_, hkeep.mono ?_⟩
  · exact {
      zero := (hkeep₄.val _ (by decide) (by decide)).trans hz₃
      source := by
        rw [hkeep₄.val _ (by decide) (by decide), hval₃, hkeep₂.val _ (by decide) not_false,
          hkeep₁.val _ (by decide) (by decide), h.source]
        grind [word]
      target := by
        rw [hval₄, hkeep₃.val _ (by decide) (by decide), hkeep₂.val _ (by decide) not_false,
          hkeep₁.val _ (by decide) (by decide), h.target]
        grind [word]
      stop := (hkeep.val _ (by decide) (by decide)).trans h.stop
      count := (hkeep.val _ (by decide) (by decide)).trans h.count }
  · rw [hmem₄, hmem₃, hmem₂, hmem₁, hval₁]
  · rintro q (rfl | rfl | rfl) <;> decide

omit hbody in
/-- The pointer to the next word is below the end exactly when the index is below the length. -/
theorem below_end {m' : Machine} {r : Word} (hsize : 4 * m.mem.size < 2147483648) (h : i < len)
    (hcopy : copyLoop m dst pos src len i = .ok (m', r)) :
    src + 4 * (i + 1) < src + 4 * len ↔ i + 1 < len := by
  -- neither pointer passes the end of memory, so signed comparison is that of the numbers
  have hend := end_le hsize h hcopy
  have hi := toInt_succ h
  have hlt := Int32.lt_iff_toInt_lt.1 h
  have hmin := Int32.le_toInt (src + 4 * i)
  have hnext : (src + 4 * (i + 1)).toInt = (src + 4 * i).toInt + 4 := by
    rw [show src + 4 * (i + 1) = src + 4 * i + word 4 by grind [word]]
    exact toInt_add_word (by omega) (by omega)
  have hstop : (src + 4 * len).toInt = (src + 4 * i).toInt + 4 * (len.toInt - i.toInt) := by
    have hlen : src + 4 * len = src + 4 * i + word (4 * (len.toInt - i.toInt)) := by
      have hword : word (4 * (len.toInt - i.toInt)) = 4 * (len - i) := by
        simp only [word, Int32.ofInt_mul, Int32.ofInt_sub, Int32.ofInt_toInt]
        rfl
      rw [hword]
      grind
    rw [hlen]
    exact toInt_add_word (by omega) (by omega)
  rw [Int32.lt_iff_toInt_lt, Int32.lt_iff_toInt_lt, hnext, hstop, hi]
  omega

/-- The code copies what the loop copies, from the head of its loop to the end. -/
theorem walk_copy (hloop : f.labels[loop]? = some 5) (n : Nat) (hn : len.toInt - i.toInt = n + 1)
    {m' m₁ : Machine} {r : Word} (hsize : 4 * m.mem.size < 2147483648)
    (hcopy : copyLoop m dst pos src len i = .ok (m', r)) (h : Copied dst pos src len i m₁)
    (hmem : m₁.mem = m.mem) :
    ∃ m₂, Walk (fun _ _ => True) im f (5 * (n + 1)) m₁ 6 m₂ 11 ∧ m₂.mem = m'.mem ∧
      Copied dst pos src len len m₂ ∧ r = len ∧ Keeps Clobbered m₁ m₂ := by
  have hbranch : f.body[10]? = some (Instr.branch (Reg.a 2) (Reg.t 1) .lt loop) := by rw [hbody]; rfl
  -- the induction is on the words that are left
  induction n generalizing m m₁ i with
  | zero =>
    have hlt : i < len := Int32.lt_iff_toInt_lt.2 (by omega)
    have hlen : i + 1 = len := Int32.toInt_inj.1 (by rw [toInt_succ hlt]; omega)
    obtain ⟨j, k, hj, hk, hcopy'⟩ := copyLoop_turn hlt hcopy
    obtain ⟨m₂, hwalk₂, h₂, hmem₂, hkeep₂⟩ := walk_word im hbody h
      (wordIndex?_of_mem hmem hj) (wordIndex?_of_mem hmem hk)
    have hdone : ¬ i + 1 < len := by rw [hlen]; exact Int32.lt_irrefl
    rw [copyLoop_of_le hdone] at hcopy'
    cases hcopy'
    have hidle := keeps_idle h₂.zero
    have hexit : Walk (fun _ _ => True) im f 1 m₂ 10 m₂.tick.resetZero 11 :=
      walk_untaken hbranch trivial (by decide) (by decide) (by
        rw [h₂.source, h₂.stop]
        exact decide_eq_false fun hbelow => hdone ((below_end hsize hlt hcopy).1 hbelow))
    refine ⟨_, hwalk₂.trans hexit, ?_, hlen ▸ h₂.keep hidle, hlen, ?_⟩
    · rw [← hmem]
      exact hmem₂
    · exact hkeep₂.trans (hidle.mono fun q hq => hq.elim)
  | succ n ih =>
    have hlt : i < len := Int32.lt_iff_toInt_lt.2 (by omega)
    have hi := toInt_succ hlt
    have hnext : i + 1 < len := Int32.lt_iff_toInt_lt.2 (by omega)
    obtain ⟨j, k, hj, hk, hcopy'⟩ := copyLoop_turn hlt hcopy
    obtain ⟨m₂, hwalk₂, h₂, hmem₂, hkeep₂⟩ := walk_word im hbody h
      (wordIndex?_of_mem hmem hj) (wordIndex?_of_mem hmem hk)
    have hidle := keeps_idle h₂.zero
    have hagain : Walk (fun _ _ => True) im f 1 m₂ 10 m₂.tick.resetZero 6 :=
      walk_taken hbranch trivial (by decide) (by decide) (by
        rw [h₂.source, h₂.stop]
        exact decide_eq_true ((below_end hsize hlt hcopy).2 hnext)) hloop
    have hmem₂' : m₂.tick.resetZero.mem = m.mem.set k (m.mem.get j) := by
      rw [← hmem]
      exact hmem₂
    obtain ⟨m₃, hwalk₃, hmem₃, h₃, hr, hkeep₃⟩ := ih
      (m := { m with mem := m.mem.set k (m.mem.get j) }) (by omega) hsize hcopy' (h₂.keep hidle) hmem₂'
    refine ⟨m₃, ?_, hmem₃, h₃, hr, (hkeep₂.trans (hidle.mono fun q hq => hq.elim)).trans hkeep₃⟩
    have hwalk := (hwalk₂.trans hagain).trans hwalk₃
    rwa [show 4 + 1 + 5 * (n + 1) = 5 * (n + 1 + 1) by omega] at hwalk

/-- Before anything else the code computes the first target. -/
theorem walk_test (h₀ : m.val (Reg.a 0) = dst) (h₁ : m.val (Reg.a 1) = pos) :
    ∃ m', Walk (fun _ _ => True) im f 2 m 0 m' 2 ∧ m'.val Reg.x0 = 0 ∧
      m'.val (Reg.a 1) = dst + 4 * pos ∧ m'.mem = m.mem ∧
      Keeps (fun q => q = Reg.a 1 ∨ q = Reg.x0) m m' := by
  have hshift : f.body[0]? = some (Instr.shift (Reg.a 1) (Reg.a 1) .left 2) := by rw [hbody]; rfl
  have hadd : CodeAt f 1 [.binary (Reg.a 1) .add (Reg.a 0) (Reg.a 1)] :=
    codeAt_of_body hbody ⟨_, rfl⟩
  obtain ⟨m₁, hwalk₁, hz₁, hval₁, hmem₁, hkeep₁⟩ := walk_write im (P := fun _ _ => True) (m := m)
    (r := Reg.a 1) (i := ⟨9, by decide⟩) (w := m.val (Reg.a 1) <<< word 2) hshift trivial rfl
    (by decide) (by decide) rfl
  have hsum : Writes im f m₁ [.binary (Reg.a 1) .add (Reg.a 0) (Reg.a 1)] (Reg.a 1)
      (m₁.val (Reg.a 0) + m₁.val (Reg.a 1)) :=
    writes_binary hz₁ (by decide) (by decide) (by decide) (by decide) rfl
  obtain ⟨m₂, hwalk₂, hval₂, hmem₂, hkeep₂⟩ := walk_writes im (P := fun _ _ => True) hadd hsum
    (fun _ _ => trivial) (fun _ _ _ => trivial)
  refine ⟨m₂, hwalk₁.trans hwalk₂, (hkeep₂.val _ (by decide) (by decide)).trans hz₁, ?_,
    hmem₂.trans hmem₁, hkeep₁.trans (hkeep₂.mono fun q hq => Or.inl hq)⟩
  -- Shifting by two multiplies by four, the bytes of a word.
  have hfour : pos <<< word 2 = pos * word 4 := shiftLeft_word pos (k := 2) (by decide)
  rw [hval₂, hval₁, hkeep₁.val _ (by decide) (by decide), h₀, h₁, hfour]
  grind [word]

/-- Then it computes the end of the source. -/
theorem walk_enter (hz : m.val Reg.x0 = 0) (h₁ : m.val (Reg.a 1) = dst + 4 * pos)
    (h₂ : m.val (Reg.a 2) = src) (h₃ : m.val (Reg.a 3) = len) :
    ∃ m', Walk (fun _ _ => True) im f 3 m 3 m' 6 ∧ Copied dst pos src len 0 m' ∧ m'.mem = m.mem ∧
      Keeps (· = Reg.t 1) m m' := by
  have hcode : CodeAt f 3 [.shift (Reg.t 1) (Reg.a 3) .left 2,
      .binary (Reg.t 1) .add (Reg.a 2) (Reg.t 1)] := codeAt_of_body hbody ⟨_, rfl⟩
  have hlabel : f.body[5]? = some (Instr.label loop) := by rw [hbody]; rfl
  obtain ⟨m₁, hline₁, hval₁, hmem₁, hkeep₁⟩ : Writes im f m [.shift (Reg.t 1) (Reg.a 3) .left 2]
      (Reg.t 1) (m.val (Reg.a 3) <<< word 2) :=
    writes_shift hz (by decide) (by decide) (by decide) rfl
  have hz₁ : m₁.val Reg.x0 = 0 := (hkeep₁.val _ (by decide) (by decide)).trans hz
  obtain ⟨m₂, hline₂, hval₂, hmem₂, hkeep₂⟩ : Writes im f m₁
      [.binary (Reg.t 1) .add (Reg.a 2) (Reg.t 1)] (Reg.t 1) (m₁.val (Reg.a 2) + m₁.val (Reg.t 1)) :=
    writes_binary hz₁ (by decide) (by decide) (by decide) (by decide) rfl
  have hwalk := walk_line (P := fun _ _ => True) hcode (line?_append_of hline₁ hline₂)
    (fun _ _ => trivial) (fun _ _ _ => trivial)
  have hkeep := hkeep₁.trans hkeep₂
  -- Behind the entry the invariant holds with nothing copied yet.
  have hcopied : Copied dst pos src len 0 m₂ := {
    zero := (hkeep.val _ (by decide) (by decide)).trans hz
    source := by
      rw [hkeep.val _ (by decide) (by decide), h₂]
      grind
    target := by
      rw [hkeep.val _ (by decide) (by decide), h₁]
      grind
    stop := by
      have hfour : len <<< word 2 = len * word 4 := shiftLeft_word len (k := 2) (by decide)
      rw [hval₂, hval₁, hkeep₁.val _ (by decide) (by decide), h₂, h₃, hfour]
      grind [word]
    count := (hkeep.val _ (by decide) (by decide)).trans h₃ }
  have hidle := keeps_idle hcopied.zero
  exact ⟨_, hwalk.trans (walk_label hlabel trivial), hcopied.keep hidle, hmem₂.trans hmem₁,
    hkeep.trans (hidle.mono fun q hq => hq.elim)⟩

/-- If there is nothing to copy, the code returns zero. -/
theorem walk_nothing (hzero : f.labels[zero]? = some 13) (hz : m.val Reg.x0 = 0)
    (hlen : ¬ 0 < m.val (Reg.a 3)) : ∃ m', Walk (fun _ _ => True) im f 2 m 2 m' 15 ∧
      m'.val (Reg.a 0) = 0 ∧ m'.mem = m.mem ∧ Keeps Clobbered m m' := by
  have hbranch : f.body[2]? = some (Instr.branch (Reg.a 3) Reg.x0 .le zero) := by rw [hbody]; rfl
  have hcode : CodeAt f 14 [.imm (Reg.a 0) 0] := codeAt_of_body hbody ⟨_, rfl⟩
  have hidle := keeps_idle hz
  -- No length is positive, so the branch is taken to the second exit.
  have hwalk₁ : Walk (fun _ _ => True) im f 1 m 2 m.tick.resetZero 14 :=
    walk_taken hbranch trivial (by decide) (by decide) (by
      rw [hz]
      exact decide_eq_true (Int32.not_lt.1 hlen)) hzero
  obtain ⟨m₂, hwalk₂, hval₂, hmem₂, hkeep₂⟩ := walk_writes im (P := fun _ _ => True) hcode
    (writes_imm ((hidle.val _ (by decide) not_false).trans hz) (by decide) (by decide) 0)
    (fun _ _ => trivial) (fun _ _ _ => trivial)
  refine ⟨m₂, hwalk₁.trans hwalk₂, hval₂, hmem₂, ?_⟩
  exact (hidle.mono fun q hq => hq.elim).trans (hkeep₂.mono (by rintro q rfl; decide))

/-- If there are words to copy, the code copies them and returns their number. -/
theorem walk_words (hloop : f.labels[loop]? = some 5) {m₀ m' : Machine} {r : Word}
    (hsize : 4 * m₀.mem.size < 2147483648) (hcopy : copyLoop m₀ dst pos src len 0 = .ok (m', r))
    (hmem : m.mem = m₀.mem) (hz : m.val Reg.x0 = 0) (h₁ : m.val (Reg.a 1) = dst + 4 * pos)
    (h₂ : m.val (Reg.a 2) = src) (h₃ : m.val (Reg.a 3) = len) (hlen : 0 < len) :
    ∃ m₁, Walk (fun _ _ => True) im f (5 * len.toInt.toNat + 5) m 2 m₁ 12 ∧
      m₁.val (Reg.a 0) = len ∧ m₁.mem = m'.mem ∧ r = len ∧ Keeps Clobbered m m₁ := by
  have hbranch : f.body[2]? = some (Instr.branch (Reg.a 3) Reg.x0 .le zero) := by rw [hbody]; rfl
  have hcode : CodeAt f 11 [.move (Reg.a 0) (Reg.a 3)] := codeAt_of_body hbody ⟨_, rfl⟩
  have hidle := keeps_idle hz
  -- The length is positive, so the branch falls through into the copying.
  have hwalk₁ : Walk (fun _ _ => True) im f 1 m 2 m.tick.resetZero 3 :=
    walk_untaken hbranch trivial (by decide) (by decide) (by
      rw [h₃, hz]
      exact decide_eq_false (Int32.not_le.2 hlen))
  obtain ⟨m₂, hwalk₂, hcopied₂, hmem₂, hkeep₂⟩ := walk_enter im hbody
    ((hidle.val _ (by decide) not_false).trans hz) ((hidle.val _ (by decide) not_false).trans h₁)
    ((hidle.val _ (by decide) not_false).trans h₂) ((hidle.val _ (by decide) not_false).trans h₃)
  have hpositive := Int32.lt_iff_toInt_lt.1 hlen
  have hzero : (0 : Word).toInt = 0 := rfl
  obtain ⟨m₃, hwalk₃, hmem₃, hcopied₃, hr, hkeep₃⟩ := walk_copy im hbody hloop
    (len.toInt.toNat - 1) (by omega) hsize hcopy hcopied₂ (hmem₂.trans hmem)
  obtain ⟨m₄, hwalk₄, hval₄, hmem₄, hkeep₄⟩ := walk_writes im (P := fun _ _ => True) hcode
    (writes_move hcopied₃.zero (by decide) (by decide) (show (Reg.a 3).Valid by decide))
    (fun _ _ => trivial) (fun _ _ _ => trivial)
  refine ⟨m₄, ?_, hval₄.trans hcopied₃.count, hmem₄.trans hmem₃, hr, ?_⟩
  -- Five steps for each word, and five around the loop.
  · have hwalk := ((hwalk₁.trans hwalk₂).trans hwalk₃).trans hwalk₄
    have hsteps : 1 + 3 + 5 * (len.toInt.toNat - 1 + 1) + 1 = 5 * len.toInt.toNat + 5 := by omega
    exact hsteps ▸ hwalk
  · refine (((hidle.mono ?_).trans (hkeep₂.mono ?_)).trans hkeep₃).trans (hkeep₄.mono ?_)
    · exact fun q hq => hq.elim
    · rintro q rfl
      decide
    · rintro q rfl
      decide

/-- Either way the code walks on to a return, with what the loop returns and leaves. -/
theorem walk_memmove (hloop : f.labels[loop]? = some 5) (hzero : f.labels[zero]? = some 13)
    {m₀ ref : Machine} {r : Word} (hsize : 4 * m₀.mem.size < 2147483648)
    (hcopy : copyLoop m₀ dst pos src len 0 = .ok (ref, r)) (hmem : m.mem = m₀.mem)
    (h₀ : m.val (Reg.a 0) = dst) (h₁ : m.val (Reg.a 1) = pos) (h₂ : m.val (Reg.a 2) = src)
    (h₃ : m.val (Reg.a 3) = len) :
    ∃ n m' pc, n ≤ 5 * len.toInt.toNat + 7 ∧ Walk (fun _ _ => True) im f n m 0 m' pc ∧
      f.body[pc]? = some Instr.ret ∧ m'.val (Reg.a 0) = r ∧ m'.mem = ref.mem ∧
      r = (if 0 < len then len else 0) ∧ Keeps (fun q => Clobbered q ∨ q = Reg.x0) m m' := by
  obtain ⟨m₁, hwalk₁, hz₁, htarget, hmem₁, hkeep₁⟩ := walk_test im hbody h₀ h₁
  have hkeep : ∀ q, q.Valid → q ≠ Reg.a 1 → q ≠ Reg.x0 → m₁.val q = m.val q :=
    fun q hq h₁ h₀ => hkeep₁.val q hq (not_or.2 ⟨h₁, h₀⟩)
  have hsource := (hkeep (Reg.a 2) (by decide) (by decide) (by decide)).trans h₂
  have hcount := (hkeep (Reg.a 3) (by decide) (by decide) (by decide)).trans h₃
  have hkeep₁' : Keeps (fun q => Clobbered q ∨ q = Reg.x0) m m₁ := by
    refine hkeep₁.mono ?_
    rintro q (rfl | rfl)
    · exact Or.inl (by decide)
    · exact Or.inr rfl
  -- Without words to copy the code goes to the second return, which gives zero.
  by_cases hlen : 0 < len
  · have hret : f.body[12]? = some Instr.ret := by rw [hbody]; rfl
    obtain ⟨m₂, hwalk₂, hval₂, hmem₂, hr, hkeep₂⟩ := walk_words im hbody hloop hsize hcopy
      (hmem₁.trans hmem) hz₁ htarget hsource hcount hlen
    exact ⟨_, m₂, 12, by omega, hwalk₁.trans hwalk₂, hret, hval₂.trans hr.symm, hmem₂,
      hr.trans (if_pos hlen).symm, hkeep₁'.trans (hkeep₂.mono fun q hq => Or.inl hq)⟩
  · have hret : f.body[15]? = some Instr.ret := by rw [hbody]; rfl
    obtain ⟨m₂, hwalk₂, hval₂, hmem₂, hkeep₂⟩ := walk_nothing im hbody hzero hz₁ (by rwa [hcount])
    rw [copyLoop_of_le hlen] at hcopy
    cases hcopy
    exact ⟨_, m₂, 15, by omega, hwalk₁.trans hwalk₂, hret, hval₂, hmem₂.trans (hmem₁.trans hmem),
      (if_neg hlen).symm, hkeep₁'.trans (hkeep₂.mono fun q hq => Or.inl hq)⟩

end Code

/-! ## Calls -/

/-- Where the labels of the copy stand. -/
theorem labelTable_memmoveCode {loop zero : Int} (h : [loop, zero].Nodup) :
    (Image.labelTable (memmoveCode loop zero))[loop]? = some 5 ∧
      (Image.labelTable (memmoveCode loop zero))[zero]? = some 13 := by
  have htable : Image.labelTable (memmoveCode loop zero) =
      (({} : Std.TreeMap Int Nat).insert loop 5).insert zero 13 := rfl
  simp only [List.nodup_cons, List.mem_singleton] at h
  rw [htable]
  simp only [Std.TreeMap.getElem?_insert, Std.LawfulEqCmp.compare_eq_iff_eq, Ne.symm h.1, if_true,
    if_false, and_self]

/-- When the loop succeeds, a call of the code returns what the loop returns and leaves the memory that
the loop leaves.  It keeps all registers outside its set but `x0`, and no instruction writes another
register. -/
theorem call_memmove (c : Counters) {im : Image} {lim : Limits} {m ref : Machine}
    {dst pos src len r : Word} (hsize : 4 * m.mem.size < 2147483648)
    (href : copyLoop m dst pos src len 0 = .ok (ref, r))
    (hadmits : Admits im lim m "memmove" (Image.loadFunc (memmove.lower c).1))
    (hlim : Allows lim (m.steps + (5 * len.toInt.toNat + 8))) :
    (∃ m', m.call im lim "memmove" [dst, pos, src, len] = (m', .returned r) ∧ m'.mem = ref.mem ∧
      Keeps (fun q => memmove.clobber.contains q = true ∨ q = Reg.x0) m m') ∧
    r = (if 0 < len then len else 0) ∧
    Within (fun q => memmove.clobber.contains q = true) (fun _ => False) (memmove.lower c).1.body := by
  obtain ⟨hloop, hzero⟩ := labelTable_memmoveCode (nodup_drawLabels (n := 2) (by decide) c)
  have hargs : [dst, pos, src, len].length ≤ Reg.argCount := by simp [Reg.argCount]
  have hbody : (Image.loadFunc (memmove.lower c).1).body = (memmoveCode _ _).toArray := rfl
  have harg : ∀ i (hi : i < 4), ((m.passArgs [dst, pos, src, len]).1.entered
      (Image.loadFunc (memmove.lower c).1)).val (Reg.a i) = [dst, pos, src, len][i] :=
    fun i hi => val_passArgs m hargs hi
  have hsame : ((m.passArgs [dst, pos, src, len]).1.entered
      (Image.loadFunc (memmove.lower c).1)).mem = m.mem := by
    rw [keeps_passArgs]
    rfl
  obtain ⟨n, m', pc, hn, hwalk, hret, hval, hmem, hr, hkeep⟩ := walk_memmove im hbody hloop hzero
    hsize href hsame (harg 0 (by decide)) (harg 1 (by decide)) (harg 2 (by decide))
    (harg 3 (by decide))
  have hbound := Int32.toInt_lt len
  have hcall := call_of_walk hargs hadmits hwalk hret (hlim.mono (by omega)) (by omega)
  rw [hval] at hcall
  have hfind : find? "memmove" = some memmove := rfl
  refine ⟨⟨_, hcall, hmem, (keeps_call hkeep).mono ?_⟩, hr, Lowering.within_builtin hfind _ _⟩
  rintro q (hq | hq | rfl)
  · exact hq
  · -- the arguments are in registers of the set
    have hpassed : ∀ q ∈ Reg.args.take 4, Clobbered q := by decide
    exact Or.inl (hpassed q hq)
  · exact Or.inr rfl

/-- Two words copied one place up, over the second of them: the loop reads there what it wrote. -/
theorem call_memmove_overlap : ∃ m', ({ fresh with mem := (fresh.mem.set 1 5).set 2 6 } : Machine).call
    (Image.ofCode { funcs := [(memmove.lower {}).1] }) {} "memmove" [4, 1, 4, 2] =
      (m', .returned 2) ∧ m'.mem.get 2 = 5 ∧ m'.mem.get 3 = 5 := by
  have hadmits := admits_fresh (g := (memmove.lower {}).1) rfl
  -- The target starts one word behind the source, so the first word is copied twice.
  have href : ∃ ref, copyLoop { fresh with mem := (fresh.mem.set 1 5).set 2 6 } 4 1 4 2 0 =
      .ok (ref, 2) ∧ ref.mem.get 2 = 5 ∧ ref.mem.get 3 = 5 := by
    rw [copyLoop_of_lt (j := 1) (k := 2) (by decide) rfl rfl,
      copyLoop_of_lt (j := 2) (k := 3) (by decide) rfl rfl, copyLoop_of_le (by decide)]
    refine ⟨_, rfl, ?_, ?_⟩ <;> simp [Memory.get_set]
  obtain ⟨ref, href, h₂, h₃⟩ := href
  obtain ⟨⟨m', hcall, hmem, -⟩, -, -⟩ := call_memmove {} (by decide) href
    ⟨hadmits.loaded, hadmits.shallow, hadmits.room⟩ (Or.inr (by decide))
  rw [hmem.symm] at h₂ h₃
  exact ⟨m', hcall, h₂, h₃⟩

end Tac.Builtin
