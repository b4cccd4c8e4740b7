import Mathlib
import Tac.Text.Blank
import Tac.Text.Decimal

/-!
# Numbers, words and lines

What is written is read back: numbers from their decimal form, the words of a row from the row, and
rows from a text in which each is ended by a newline.

* **`readInt?_decimal`** — a number that fits is read back.
* **`words_row`**, **`splitComment_row`** — the words of a row are read back, and it has no comment.
* **`lines_rows`** — rows are read back.
* **`isBlank_of_mem_words`** — what is read as a word has no blanks.
-/

namespace Tac.Text

/-! ## Numbers -/

/-- A digit is read as its value. -/
theorem digit?_of_isDigit {c : Char} (h : c.isDigit = true) : digit? c = some (c.toNat - '0'.toNat) := by
  have hc : '0' ≤ c ∧ c ≤ '9' := by
    simpa [Char.isDigit, Char.le_def] using h
  simp [digit?, hc]

/-- Reading digits computes the number they write. -/
theorem digitsFrom_eq {cs : List Char} (h : ∀ c ∈ cs, c.isDigit = true) (acc : Nat) :
    digitsFrom acc cs = some (Nat.ofDigitChars 10 cs acc) := by
  induction cs generalizing acc with
  | nil => rfl
  | cons c cs ih =>
    rw [List.forall_mem_cons] at h
    rw [digitsFrom, digit?_of_isDigit h.1, Option.bind_some, ih h.2, Nat.ofDigitChars_cons]

/-- The digits of a number are read back. -/
theorem readNat?_toDigits (n : Nat) : readNat? (Nat.toDigits 10 n) = some n := by
  have hdigits : ∀ c ∈ Nat.toDigits 10 n, c.isDigit = true := fun c hc =>
    Nat.isDigit_of_mem_toDigits (by decide) (by decide) hc
  have hne : Nat.toDigits 10 n ≠ [] := Nat.toDigits_ne_nil
  cases hcs : Nat.toDigits 10 n with
  | nil => exact absurd hcs hne
  | cons c cs =>
    rw [readNat?, ← hcs, digitsFrom_eq hdigits, Nat.ofDigitChars_toDigits (by decide) (by decide)]
    simp

/-- A number in decimal is its digits, behind a sign if it is negative. -/
theorem toList_decimal (n : Int) : (decimal n).toList =
    if n < 0 then '-' :: Nat.toDigits 10 n.natAbs else Nat.toDigits 10 n.natAbs := by
  cases n with
  | ofNat n => simp [decimal, Nat.repr_eq_ofList_toDigits]
  | negSucc n => simp [decimal, Nat.repr_eq_ofList_toDigits]

/-- A number in decimal is read back. -/
theorem readSigned?_decimal (n : Int) : readSigned? (decimal n).toList = some n := by
  rw [toList_decimal]
  split
  · next h =>
    rw [readSigned?, readNat?_toDigits]
    show some (-(n.natAbs : Int)) = some n
    congr 1
    omega
  · next h =>
    -- the first digit is no sign
    have hfirst : ∀ c cs, Nat.toDigits 10 n.natAbs = c :: cs → c ≠ '-' ∧ c ≠ '+' := by
      intro c cs hcs
      have hd : c.isDigit = true := Nat.isDigit_of_mem_toDigits (by decide) (by decide)
        (hcs ▸ List.mem_cons_self : c ∈ Nat.toDigits 10 n.natAbs)
      constructor <;>
        · rintro rfl
          revert hd
          decide
    unfold readSigned?
    split
    · next cs hcs => exact absurd rfl (hfirst _ _ hcs).1
    · next cs hcs => exact absurd rfl (hfirst _ _ hcs).2
    · rw [readNat?_toDigits]
      show some (n.natAbs : Int) = some n
      congr 1
      omega

/-- A number is read back if it fits. -/
theorem readInt?_decimal {bits : Nat} {n : Int} (h : -(2 ^ (bits - 1) : Nat) ≤ n)
    (h' : n < (2 ^ (bits - 1) : Nat)) : readInt? bits (decimal n).toList = some n := by
  rw [readInt?, readSigned?_decimal, Option.filter_some]
  have h1 : decide (-((Nat.pow 2 (bits - 1) : Nat) : Int) ≤ n) = true := decide_eq_true h
  have h2 : decide (n < ((Nat.pow 2 (bits - 1) : Nat) : Int)) = true := decide_eq_true h'
  show (if (decide _ && decide _) = true then some n else none) = some n
  rw [h1, h2]
  rfl

/-- Different numbers are written differently. -/
theorem decimal_injective : Function.Injective decimal := fun m n h => by
  have := readSigned?_decimal m
  rw [h, readSigned?_decimal] at this
  exact (Option.some.inj this).symm

/-- A number in decimal is made of digits and a sign. -/
theorem isDigit_of_mem_decimal {n : Int} {c : Char} (h : c ∈ (decimal n).toList) :
    c.isDigit = true ∨ c = '-' := by
  have hdigit : ∀ c ∈ Nat.toDigits 10 n.natAbs, c.isDigit = true := fun c hc =>
    Nat.isDigit_of_mem_toDigits (by decide) (by decide) hc
  rw [toList_decimal] at h
  split at h
  · rcases List.mem_cons.1 h with rfl | h
    · exact Or.inr rfl
    · exact Or.inl (hdigit c h)
  · exact Or.inl (hdigit c h)

/-- No number is written as nothing. -/
theorem decimal_ne_nil (n : Int) : (decimal n).toList ≠ [] := by
  rw [toList_decimal]
  split
  · exact List.cons_ne_nil _ _
  · exact Nat.toDigits_ne_nil

/-! ## Words -/

/-- Text without a double slash. -/
def Clean (cs : List Char) : Prop := splitComment cs = (cs, none)

theorem clean_nil : Clean [] := rfl

/-- A character before clean text keeps it clean unless it makes two slashes. -/
theorem clean_cons {c : Char} {cs : List Char} (hc : c ≠ '/' ∨ cs.head? ≠ some '/') (h : Clean cs) :
    Clean (c :: cs) := by
  unfold Clean splitComment
  split
  · next cs' heq =>
    cases heq
    simp at hc
  · next c' cs' _ heq =>
    cases heq
    rw [h]
  · next heq => cases heq

/-- The rest of clean text is clean. -/
theorem clean_of_cons {c : Char} {cs : List Char} (h : Clean (c :: cs)) :
    (c ≠ '/' ∨ cs.head? ≠ some '/') ∧ Clean cs := by
  unfold Clean splitComment at h
  split at h
  · cases h
  · next c' cs' hne heq =>
    cases heq
    refine ⟨?_, ?_⟩
    -- Two slashes would have started a comment.
    · by_contra hboth
      rw [not_or, not_not, not_not] at hboth
      obtain ⟨rfl, hhead⟩ := hboth
      cases cs with
      | nil => cases hhead
      | cons d ds =>
        cases hhead
        exact hne ds rfl rfl
    · have h1 := congrArg Prod.fst h
      have h2 := congrArg Prod.snd h
      exact Prod.ext (List.cons.inj h1).2 h2
  · next heq => cases heq

/-- Text without slashes is clean. -/
theorem clean_of_forall {cs : List Char} (h : ∀ c ∈ cs, c ≠ '/') : Clean cs := by
  induction cs with
  | nil => exact clean_nil
  | cons c cs ih =>
    rw [List.forall_mem_cons] at h
    exact clean_cons (Or.inl h.1) (ih h.2)

/-- A double slash does not arise where a text ends or begins with another character. -/
theorem Clean.append {cs ds : List Char} (h : Clean cs) (h' : Clean ds)
    (hne : cs.getLast? ≠ some '/' ∨ ds.head? ≠ some '/') : Clean (cs ++ ds) := by
  -- On the first text; only its last character can make two slashes with the second.
  induction cs with
  | nil => exact h'
  | cons c cs ih =>
    obtain ⟨hc, hcs⟩ := clean_of_cons h
    cases cs with
    | nil =>
      refine clean_cons ?_ h'
      rcases hne with hne | hne
      · exact Or.inl fun heq => hne (by rw [heq]; rfl)
      · exact Or.inr hne
    | cons d ds' =>
      refine clean_cons hc (ih hcs ?_)
      rwa [List.getLast?_cons_cons] at hne

/-- A word: not empty, without blanks and without a double slash. -/
structure IsWord (w : String) : Prop where
  nonempty : w.toList ≠ []
  solid : ∀ c ∈ w.toList, isBlank c = false
  clean : Clean w.toList

/-- Words with a blank between neighbours. -/
def row : List String → List Char
  | [] => []
  | [w] => w.toList
  | w :: ws => w.toList ++ ' ' :: row ws

theorem row_cons_cons (w v : String) (ws : List String) :
    row (w :: v :: ws) = w.toList ++ ' ' :: row (v :: ws) := rfl

/-- Characters that are no blanks are gathered into the current word. -/
theorem wordsFrom_solid {w : List Char} (h : ∀ c ∈ w, isBlank c = false) (cur rest : List Char) :
    wordsFrom cur (w ++ rest) = wordsFrom (w.reverse ++ cur) rest := by
  induction w generalizing cur with
  | nil => rfl
  | cons c w ih =>
    rw [List.forall_mem_cons] at h
    rw [List.cons_append, wordsFrom, if_neg (by rw [h.1]; decide), ih h.2, List.reverse_cons,
      List.append_assoc]
    rfl

/-- The words of a row are read back. -/
theorem wordsFrom_row {ws : List String} (h : ∀ w ∈ ws, IsWord w) :
    wordsFrom [] (row ws) = ws.map String.toList := by
  -- On the words; the last one has no blank behind it.
  induction ws with
  | nil => rfl
  | cons w ws ih =>
    rw [List.forall_mem_cons] at h
    have hne : (w.toList.reverse ++ []).isEmpty = false := by
      rw [List.append_nil, List.isEmpty_reverse]
      exact List.isEmpty_eq_false_iff.2 h.1.nonempty
    have hrev : (w.toList.reverse ++ []).reverse = w.toList := by simp
    cases ws with
    | nil =>
      have := wordsFrom_solid h.1.solid [] []
      rw [List.append_nil] at this
      rw [row, this, wordsFrom, hne, hrev]
      rfl
    | cons v ws =>
      rw [row_cons_cons, wordsFrom_solid h.1.solid, wordsFrom, if_pos (by decide), hne, hrev,
        if_neg (by decide), ih h.2]
      rfl

/-- Blanks at the start of a line are skipped. -/
theorem wordsFrom_blanks {bs : List Char} (h : ∀ c ∈ bs, isBlank c = true) (rest : List Char) :
    wordsFrom [] (bs ++ rest) = wordsFrom [] rest := by
  induction bs with
  | nil => rfl
  | cons c bs ih =>
    rw [List.forall_mem_cons] at h
    rw [List.cons_append, wordsFrom, if_pos h.1]
    exact ih h.2

/-- The words of a row, with blanks before it, are read back. -/
theorem words_row {bs : List Char} {ws : List String} (hbs : ∀ c ∈ bs, isBlank c = true)
    (hws : ∀ w ∈ ws, IsWord w) : words (bs ++ row ws) = ws := by
  rw [words, wordsFrom_blanks hbs, wordsFrom_row hws, List.map_map]
  simp

/-- A row of words is clean. -/
theorem clean_row {ws : List String} (h : ∀ w ∈ ws, IsWord w) : Clean (row ws) := by
  induction ws with
  | nil => exact clean_nil
  | cons w ws ih =>
    rw [List.forall_mem_cons] at h
    cases ws with
    | nil => exact h.1.clean
    | cons v ws =>
      rw [row_cons_cons]
      exact h.1.clean.append (clean_cons (Or.inl (by decide)) (ih h.2)) (Or.inr (by simp))

/-- A row has no comment. -/
theorem splitComment_row {bs : List Char} {ws : List String} (hbs : ∀ c ∈ bs, isBlank c = true)
    (hws : ∀ w ∈ ws, IsWord w) : splitComment (bs ++ row ws) = (bs ++ row ws, none) := by
  have hslash : ∀ c ∈ bs, c ≠ '/' := by
    rintro c hc rfl
    exact absurd (hbs _ hc) (by decide)
  refine (clean_of_forall hslash).append (clean_row hws) (Or.inl fun hlast => ?_)
  exact hslash _ (List.mem_of_getLast? hlast) rfl

/-- The words that are read have no blanks in them. -/
theorem isBlank_of_mem_wordsFrom {cs cur : List Char} (hcur : ∀ c ∈ cur, isBlank c = false)
    {w : List Char} (h : w ∈ wordsFrom cur cs) : ∀ c ∈ w, isBlank c = false := by
  -- On the characters; the invariant is that the current word has no blanks so far.
  induction cs generalizing cur with
  | nil =>
    rw [wordsFrom] at h
    split at h
    · cases h
    · rw [List.mem_singleton.1 h]
      exact fun c hc => hcur c (List.mem_reverse.1 hc)
  | cons c cs ih =>
    rw [wordsFrom] at h
    split at h
    · split at h
      · exact ih (List.forall_mem_nil _) h
      · rcases List.mem_cons.1 h with rfl | h
        · exact fun c hc => hcur c (List.mem_reverse.1 hc)
        · exact ih (List.forall_mem_nil _) h
    · next hc =>
      exact ih (List.forall_mem_cons.2 ⟨Bool.eq_false_iff.2 hc, hcur⟩) h

/-- A word that is read has no blanks. -/
theorem isBlank_of_mem_words {cs : List Char} {w : String} (h : w ∈ words cs) :
    ∀ c ∈ w.toList, isBlank c = false := by
  obtain ⟨w', hw', rfl⟩ := List.mem_map.1 h
  rw [String.toList_ofList]
  exact isBlank_of_mem_wordsFrom (List.forall_mem_nil _) hw'

/-! ## Literals -/

/-- The characters of joined text are those of its pieces.  A literal is its characters by `rfl`, but
decoding a long one again is slow, so text that is evaluated is brought into this form first. -/
theorem append_eq_ofList {s t : String} {cs ds : List Char} (hs : s = String.ofList cs)
    (ht : t = String.ofList ds) : s ++ t = String.ofList (cs ++ ds) := by
  rw [hs, ht, String.ofList_append]

/-! ## Lines -/

/-- Characters that are no line breaks are gathered into the current line. -/
theorem linesFrom_append {l : List Char} (h : '\n' ∉ l) (cur rest : List Char) :
    linesFrom cur (l ++ rest) = linesFrom (l.reverse ++ cur) rest := by
  induction l generalizing cur with
  | nil => rfl
  | cons c l ih =>
    rw [List.mem_cons, not_or] at h
    have hstep : ∀ ds, linesFrom cur (c :: ds) = linesFrom (c :: cur) ds := fun ds => by
      rw [linesFrom]
      exact fun heq => h.1 heq.symm
    rw [List.cons_append, hstep, ih h.2, List.reverse_cons, List.append_assoc]
    rfl

/-- The first line of a text. -/
theorem lines_cons {l : List Char} (h : '\n' ∉ l) (rest : List Char) :
    lines (l ++ '\n' :: rest) = l :: lines rest := by
  rw [lines, linesFrom_append h, linesFrom, List.append_nil, List.reverse_reverse]
  rfl

/-- Rows, each ended by a newline. -/
def rows (ls : List (List Char)) : List Char := ls.flatMap (· ++ ['\n'])

@[simp] theorem rows_nil : rows [] = [] := rfl

/-- Every line is closed by a line break. -/
@[simp] theorem rows_cons (l : List Char) (ls : List (List Char)) :
    rows (l :: ls) = l ++ '\n' :: rows ls := by
  simp [rows]

@[simp] theorem rows_append (ls ks : List (List Char)) : rows (ls ++ ks) = rows ls ++ rows ks :=
  List.flatMap_append

/-- Rows are read back; behind the last newline there is an empty line. -/
theorem lines_rows {ls : List (List Char)} (h : ∀ l ∈ ls, '\n' ∉ l) : lines (rows ls) = ls ++ [[]] := by
  induction ls with
  | nil => rfl
  | cons l ls ih =>
    rw [List.forall_mem_cons] at h
    rw [rows_cons, lines_cons h.1, ih h.2]
    rfl

end Tac.Text
