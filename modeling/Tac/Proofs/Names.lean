import Mathlib
import Tac.Program.Reader
import Tac.Proofs.Text

/-!
# Names of program text

Places, labels and functions are named by a marker before a number or a word, and indexes stand between
brackets.  Each kind of name is read back as what it names.

* **`numbered?_of_toList`**, **`numbered?_of_ne`** — a number behind its marker is read, and behind no
  other.
* **`readIndex_decimal`**, **`readLabel_decimal`**, **`funcName_marked`** — indexes, labels and functions.
* **`IsOperand`** — the words of operands, which are no keywords.
* **`isWord_keyword`** and what follows it — the other words of a line are words too.
-/

namespace Tac

/-- The number fits 32 bits. -/
def Fits32 (n : Int) : Prop := -2147483648 ≤ n ∧ n < 2147483648

/-- The number fits a name: it is not negative and fits 64 bits. -/
def FitsName (n : Int) : Prop := 0 ≤ n ∧ n < 9223372036854775808

instance (n : Int) : Decidable (Fits32 n) := inferInstanceAs (Decidable (_ ∧ _))

instance (n : Int) : Decidable (FitsName n) := inferInstanceAs (Decidable (_ ∧ _))

/-! ## Words -/

namespace Text

/-- A digit is no blank. -/
theorem isBlank_of_isDigit {c : Char} (h : c.isDigit = true) : isBlank c = false := by
  have hc : 48 ≤ c.toNat ∧ c.toNat ≤ 57 := by
    simpa [Char.isDigit, Char.le_def, UInt32.le_iff_toNat_le] using h
  simp only [isBlank, Bool.or_eq_false_iff, Bool.and_eq_false_iff, decide_eq_false_iff_not,
    beq_eq_false_iff_ne]
  omega

/-- Text without blanks and slashes is a word. -/
theorem isWord_of_forall {w : String} (hne : w.toList ≠ [])
    (h : ∀ c ∈ w.toList, isBlank c = false ∧ c ≠ '/') : IsWord w :=
  ⟨hne, fun c hc => (h c hc).1, clean_of_forall fun c hc => (h c hc).2⟩

/-- A number in decimal has neither blanks nor slashes in it. -/
theorem solid_decimal {n : Int} : ∀ c ∈ (decimal n).toList, isBlank c = false ∧ c ≠ '/' := by
  intro c hc
  rcases isDigit_of_mem_decimal hc with h | rfl
  · refine ⟨isBlank_of_isDigit h, ?_⟩
    rintro rfl
    exact absurd h (by decide)
  · exact ⟨by decide, by decide⟩

/-- A word with a marker before it. -/
theorem IsWord.marked {marker w : String} (h : IsWord w)
    (hmarker : ∀ c ∈ marker.toList, isBlank c = false ∧ c ≠ '/') : IsWord (marker ++ w) := by
  refine ⟨?_, ?_, ?_⟩
  · rw [String.toList_append]
    exact List.append_ne_nil_of_right_ne_nil _ h.nonempty
  · rw [String.toList_append]
    exact List.forall_mem_append.2 ⟨fun c hc => (hmarker c hc).1, h.solid⟩
  · rw [String.toList_append]
    refine (clean_of_forall fun c hc => (hmarker c hc).2).append h.clean (Or.inl fun hlast => ?_)
    exact (hmarker _ (List.mem_of_getLast? hlast)).2 rfl

/-- A row of words has no line break in it. -/
theorem not_mem_row {ws : List String} (h : ∀ w ∈ ws, IsWord w) : '\n' ∉ row ws := by
  induction ws with
  | nil => exact List.not_mem_nil
  | cons w ws ih =>
    rw [List.forall_mem_cons] at h
    have hw : '\n' ∉ w.toList := fun hmem => absurd (h.1.solid _ hmem) (by decide)
    cases ws with
    | nil => exact hw
    | cons v ws =>
      rw [row_cons_cons, List.mem_append, List.mem_cons]
      exact fun hmem => hmem.elim hw fun hmem => hmem.elim (by decide) (ih h.2)

/-- A number in decimal ends in a digit, which is how operands are told from keywords. -/
theorem exists_last_decimal (n : Int) : ∃ c, (decimal n).toList.getLast? = some c ∧ c.isDigit = true := by
  have hdigit : ∀ c ∈ Nat.toDigits 10 n.natAbs, c.isDigit = true := fun c hc =>
    Nat.isDigit_of_mem_toDigits (by decide) (by decide) hc
  have hlast : (decimal n).toList.getLast? = (Nat.toDigits 10 n.natAbs).getLast? := by
    rw [toList_decimal]
    split
    · exact List.getLast?_cons_of_ne_nil Nat.toDigits_ne_nil
    · rfl
  rw [hlast, List.getLast?_eq_getLast_of_ne_nil Nat.toDigits_ne_nil]
  exact ⟨_, rfl, hdigit _ (List.getLast_mem _)⟩

/-- What does not begin like a number is none. -/
theorem readInt?_eq_none {bits : Nat} {c : Char} {cs : List Char} (hdigit : digit? c = none)
    (hsign : c ≠ '-' ∧ c ≠ '+') : readInt? bits (c :: cs) = none := by
  have hsigned : readSigned? (c :: cs) = (readNat? (c :: cs)).map fun n => (n : Int) := by
    unfold readSigned?
    split
    · next heq => exact absurd (List.cons.inj heq).1 hsign.1
    · next heq => exact absurd (List.cons.inj heq).1 hsign.2
    · rfl
  rw [readInt?, hsigned, readNat?, digitsFrom, hdigit]
  · rfl
  · exact List.cons_ne_nil _ _

end Text

namespace Program.Reader

open Text

/-- A marker with a number behind it is read as that number. -/
theorem numbered?_of_toList {marker : Char} {w : String} {n : Int}
    (hw : w.toList = marker :: (decimal n).toList) (hn : FitsName n) :
    numbered? marker w = some n := by
  obtain ⟨h0, hmax⟩ := hn
  have hread : readInt? 64 (decimal n).toList = some n :=
    readInt?_decimal (by simp; omega) (by simp; omega)
  rw [numbered?, hw]
  simp only [if_true, hread, Option.filter_some, decide_eq_true h0]

/-- Another marker is not read. -/
theorem numbered?_of_ne {marker c : Char} {w : String} {cs : List Char} (hw : w.toList = c :: cs)
    (hc : c ≠ marker) : numbered? marker w = none := by
  rw [numbered?, hw]
  exact if_neg hc

/-- What stands in brackets is read. -/
theorem bracketed?_decimal (n : Int) : bracketed? ("[" ++ decimal n ++ "]") = some (decimal n).toList := by
  have hlist : ("[" ++ decimal n ++ "]").toList = '[' :: ((decimal n).toList ++ [']']) := by
    simp [String.toList_append]
  cases hcs : (decimal n).toList with
  | nil => exact absurd hcs (decimal_ne_nil n)
  | cons c cs =>
    rw [hcs] at hlist
    rw [bracketed?, hlist]
    show (if (c :: (cs ++ [']'])).getLast? = some ']' ∧ cs ++ [']'] ≠ [] then
      some (c :: (cs ++ [']'])).dropLast else none) = some (c :: cs)
    rw [← List.cons_append, if_pos ⟨List.getLast?_concat, by simp⟩, List.dropLast_concat]

/-- What does not begin with a bracket is not in brackets. -/
theorem bracketed?_of_ne {c : Char} {w : String} {cs : List Char} (hw : w.toList = c :: cs)
    (hc : c ≠ '[') : bracketed? w = none := by
  unfold bracketed?
  split
  · next heq =>
    rw [hw] at heq
    exact absurd (List.cons.inj heq).1 hc
  · rfl

theorem readConst_decimal {n : Int} (h : Fits32 n) : readConst (decimal n) = .ok n := by
  rw [readConst, readInt?_decimal (by simpa using h.1) (by simpa using h.2)]

/-- A printed index is read back. -/
theorem readIndex_decimal {n : Int} (h : Fits32 n) :
    readIndex ("[" ++ decimal n ++ "]") = .ok n := by
  have hread : readInt? 32 (decimal n).toList = some n :=
    readInt?_decimal (by simpa using h.1) (by simpa using h.2)
  simp only [readIndex, bracketed?_decimal, hread]

theorem readLabel_decimal {n : Int} (h : FitsName n) : readLabel ("l" ++ decimal n) = .ok n := by
  rw [readLabel, numbered?_of_toList (by simp [String.toList_append]) h]

/-- The mark of a function is taken off again. -/
theorem funcName_marked (g : String) : funcName ("f_" ++ g) = g := by
  have hlist : ("f_" ++ g).toList = 'f' :: '_' :: g.toList := by simp [String.toList_append]
  rw [funcName, hlist]
  show String.ofList (if ['f', '_'].isPrefixOf _ = true then g.toList else _) = g
  rw [if_pos (by simp), String.ofList_toList]

/-! ## Words of operands -/

/-- The word of an operand: it ends in a digit, as no keyword does, and is no index. -/
structure IsOperand (w : String) : Prop where
  word : IsWord w
  last : ∃ c, w.toList.getLast? = some c ∧ c.isDigit = true
  head : bracketed? w = none

/-- An operand ends in a digit, so it is none of the keywords, which do not. -/
theorem IsOperand.ne {w k : String} (h : IsOperand w)
    (hk : k.toList.getLast?.any Char.isDigit = false) : w ≠ k := by
  rintro rfl
  obtain ⟨c, hc, hdigit⟩ := h.last
  rw [hc, Option.any_some, hdigit] at hk
  cases hk

/-- A constant is printed like an operand. -/
theorem isOperand_decimal (n : Int) : IsOperand (decimal n) := by
  refine ⟨isWord_of_forall (decimal_ne_nil n) solid_decimal, exists_last_decimal n, ?_⟩
  cases hcs : (decimal n).toList with
  | nil => exact absurd hcs (decimal_ne_nil n)
  | cons c cs =>
    refine bracketed?_of_ne hcs ?_
    rintro rfl
    rcases isDigit_of_mem_decimal (hcs ▸ List.mem_cons_self : '[' ∈ (decimal n).toList) with h | h <;>
      exact absurd h (by decide)

/-- The name of a place: a marker that is no bracket, before a number. -/
theorem isOperand_name {w : String} {c : Char} {n : Int} (hw : w.toList = c :: (decimal n).toList)
    (hc : isBlank c = false ∧ c ≠ '/' ∧ c ≠ '[') : IsOperand w := by
  refine ⟨isWord_of_forall (by rw [hw]; exact List.cons_ne_nil _ _) ?_, ?_, bracketed?_of_ne hw hc.2.2⟩
  · rw [hw]
    exact List.forall_mem_cons.2 ⟨⟨hc.1, hc.2.1⟩, solid_decimal⟩
  · rw [hw, List.getLast?_cons_of_ne_nil (decimal_ne_nil n)]
    exact exists_last_decimal n

/-! ## The other words of a line -/

/-- The keywords are words. -/
theorem isWord_keyword : ∀ w ∈ ["=", "builtin", "call", "end", "fillzero", "goto", "if",
    "param", "return", "var"], IsWord w := by
  simp only [List.forall_mem_cons]
  refine ⟨?_, ?_, ?_, ?_, ?_, ?_, ?_, ?_, ?_, ?_, List.forall_mem_nil _⟩ <;>
    exact isWord_of_forall (by decide) (by simp; decide)

theorem isWord_rel (r : Rel) : IsWord r.text := by
  cases r <;> exact isWord_of_forall (by decide) (by simp [Rel.text]; decide)

/-- The binary operators are printed as words. -/
theorem isWord_binOp (op : BinOp) : IsWord op.text := by
  cases op with
  | cmp r => exact isWord_rel r
  | div => exact ⟨by decide, by simp [BinOp.text]; decide, rfl⟩
  | _ => exact isWord_of_forall (by decide) (by simp [BinOp.text]; decide)

theorem isWord_unOp (op : UnOp) : IsWord op.text := by
  cases op <;> exact isWord_of_forall (by decide) (by simp [UnOp.text]; decide)

/-- An index is printed as a word. -/
theorem isWord_index (n : Int) : IsWord ("[" ++ decimal n ++ "]") := by
  refine isWord_of_forall (by simp [String.toList_append]) ?_
  simp only [String.toList_append, List.forall_mem_append]
  exact ⟨⟨by simp; decide, solid_decimal⟩, by simp; decide⟩

theorem isWord_label (n : Int) : IsWord ("l" ++ decimal n) :=
  (isOperand_decimal n).word.marked (by simp; decide)

/-- The mark of a label is printed as a word. -/
theorem isWord_mark (n : Int) : IsWord ("l" ++ decimal n ++ ":") := by
  refine isWord_of_forall (by simp [String.toList_append]) ?_
  simp only [String.toList_append, List.forall_mem_append]
  exact ⟨⟨by simp; decide, solid_decimal⟩, by simp; decide⟩

theorem isWord_func {g : String} (h : IsWord g) : IsWord ("f_" ++ g) := h.marked (by simp; decide)

end Program.Reader

end Tac
