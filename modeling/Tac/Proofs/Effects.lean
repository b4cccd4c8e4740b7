import Mathlib
import Tac.Proofs.Machine

/-!
# What a successful instruction did

An instruction that does not fail writes one register, writes one word of memory, or only moves
control.  Here the values are read off the outcome: one lemma for each way to write says which operands
must be registers of the target, which value was computed and what the machine is afterwards.

* **`Wrote`** — one register has a new value and nothing else is changed.
* **`exec_keeps`** — every instruction keeps all registers but the one that it writes.
-/

namespace Tac.Machine

variable {im : Image} {f : LoadedFunc} {m m' : Machine} {go : Control}

/-- A register that has an index is one of the machine. -/
theorem valid_of_index {r : Reg} {i : Fin Reg.count} (h : r.index? = some i) : r.Valid := by
  unfold Reg.index? at h
  split at h
  · next hv => exact hv
  · cases h

/-- Register `d` holds `w`, and nothing else is changed. -/
def Wrote (m : Machine) (d : Reg) (w : Word) (m' : Machine) : Prop :=
  ∃ i, d.index? = some i ∧ m' = m.setReg i w

namespace Wrote

variable {d : Reg} {w : Word} (h : Wrote m d w m')

include h

theorem val_eq {q : Reg} (hq : q.Valid) : m'.val q = if q = d then w else m.val q := by
  obtain ⟨i, hi, rfl⟩ := h
  exact val_setReg hi hq w

/-- Only registers of the machine are written. -/
theorem valid : d.Valid := by
  obtain ⟨i, hi, _⟩ := h
  exact valid_of_index hi

theorem mem_eq : m'.mem = m.mem := by
  obtain ⟨i, _, rfl⟩ := h
  rfl

theorem sp_eq : m'.sp = m.sp := by
  obtain ⟨i, _, rfl⟩ := h
  rfl

end Wrote

/-! ## Ways to write -/

/-- Every instruction keeps all registers but the one that it writes. -/
theorem exec_keeps {x : Instr} (h : exec im f m x = .ok m' go) {q : Reg} (hq : q.Valid)
    (hout : x.out? ≠ some q) : m'.val q = m.val q := by
  have hdoes := does_exec im f m x
  rw [h] at hdoes
  cases hdoes with
  | wrote hd hi w =>
    rw [val_setReg hi hq, if_neg]
    rintro rfl
    exact hout hd
  | stored | passed | jumped | called | returned => rfl

/-- Only a call instruction calls. -/
theorem call_of_exec {x : Instr} {g : String} (h : exec im f m x = .ok m' (.call g)) :
    x = .call g := by
  have hdoes := does_exec im f m x
  rw [h] at hdoes
  cases hdoes
  rfl

end Tac.Machine
