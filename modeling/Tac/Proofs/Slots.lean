import Tac.Proofs.Passing

/-!
# Frame slots in code

Lowered code names words of the frame by their slots.  A slot comes from one of four places: the
location of a spilled value, the location of a local array, a word of an array that is zeroed word by
word, or the part of the frame that saves registers around calls.

* **`Slots`** — all slots that code names have a property.
* **`Owned`** — a property of the slots of all four kinds.
* **`slots_func`** — then the code of a function names no other slots.
-/

namespace Tac

/-- The frame slot that an instruction names. -/
def Instr.slot? : Instr → Option Int
  | .storeStack _ s | .loadStack _ s | .addrStack _ s => some s
  | _ => none

theorem Instr.OffFrame.slot?_eq_none {x : Instr} (h : x.OffFrame) : x.slot? = none := by
  cases h <;> rfl

/-- All frame slots that code names have the property `P`. -/
def Slots (P : Int → Prop) (code : List Instr) : Prop := ∀ x ∈ code, ∀ s, x.slot? = some s → P s

section Slots

variable {P : Int → Prop}

@[simp] theorem slots_nil : Slots P [] := fun _ h => nomatch h

@[simp] theorem slots_append (xs ys : List Instr) :
    Slots P (xs ++ ys) ↔ Slots P xs ∧ Slots P ys := List.forall_mem_append

end Slots

namespace Lowering

/-- The property holds of the slots that belong to the values, arrays and calls of a function. -/
structure Owned (cx : Context) (P : Int → Prop) : Prop where
  value : ∀ (u : VReg) (s n : Int), cx.placed.locs[u]? = some (.stack s n) → P s
  array : ∀ (id : VarId) (l : Loc), cx.placed.arrays[id]? = some l → P l.slot
  word : ∀ (id : VarId) (l : Loc), cx.placed.arrays[id]? = some l →
    ∀ k < l.span.toNat, P (wrap64 (l.slot + k))
  save : ∀ k < Clobber.callerSave cx.sets cx.placed, P (saveSlot cx k)

variable {cx : Context} {P : Int → Prop} {i : Nat} {st : Stmt} (hP : Owned cx P)

include hP

/-- Moving operands uses the slots of values. -/
theorem slot_of_transfer {x : Instr} (h : Transfer cx x) {s : Int} (hs : x.slot? = some s) : P s := by
  cases h with
  | offFrame h =>
    rw [h.slot?_eq_none] at hs
    cases hs
  | loadStack hr hu | storeStack hr hu =>
    cases hs
    exact hP.value _ _ _ hu
  | addrStack hr hl =>
    cases hs
    exact hP.array _ _ hl

variable (hst : cx.placed.func.stmts[i]? = some st)

include hst

/-- Straight code uses the slots of values and of saves. -/
theorem slot_of_straight {x : Instr} (h : Straight cx i st x) {s : Int} (hs : x.slot? = some s) :
    P s := by
  cases h with
  | transfer h => exact slot_of_transfer hP h hs
  | imm | move | unary | binary | addImm | shift | divPow2 | load | ret => cases hs
  | save hset hq | restore hset hq =>
    -- no call saves more registers than the frame has words for
    cases hs
    exact hP.save _ (lt_of_lt_of_le (List.getElem?_eq_some_iff.1 hq).1 (Clobber.length_saved_le hst hset))
  | savedArg hd hset hk =>
    cases hs
    exact hP.save _ (lt_of_lt_of_le hk (Clobber.length_saved_le hst hset))
  | zeroWord hl hk =>
    cases hs
    exact hP.word _ _ hl _ hk

/-- The code of a statement uses the slots of values, of saves and of its array. -/
theorem slot_of_made {x : Instr} (h : Made cx i st x) {s : Int} (hs : x.slot? = some s) : P s := by
  cases h with
  | straight h => exact slot_of_straight hP hst h hs
  | branch | jump | label | call | loopLabel | loopEnd => cases hs

omit hst

/-- The code of a function names no slots but those that belong to something. -/
theorem slots_func {c c' : Counters} {f : CodeFunc} (h : func cx c = .ok (f, c')) : Slots P f.body := by
  intro x hx s hs
  obtain ⟨k, st, hst, hmade⟩ := exists_made_of_mem (func_parts h).1 hx
  rw [Nat.zero_add] at hmade
  exact slot_of_made hP hst hmade hs

omit hP

/-- The code that initialises globals names no slots. -/
theorem slots_entry (p : Program) (gs : List (VarId × Var)) : Slots P (entry p gs).code := by
  intro x hx s hs
  rw [(offFrame_of_mem_entry hx).slot?_eq_none] at hs
  cases hs

end Lowering

end Tac
