import Tac.Proofs.Text

/-!
# Nested lists

A nested list is a word, or a head with items in parentheses and a blank before each item.  Nothing
in the text marks where a word ends but the character after it, so a text is read the same way by
everyone as long as no word holds a blank or a parenthesis.

* **`Sexp.text`** — the text of a nested list.
* **`Sexp.text_append_inj`** — a text ends at the same place in all its readings.
* **`Sexp.text_inj`** — nested lists of plain words are equal when their texts are.
-/

namespace Tac

/-- A nested list: a word, or items after a head. -/
inductive Sexp where
  | atom (s : String)
  | form (head : String) (items : List Sexp)

namespace Sexp

mutual

/-- Equality of nested lists, decided part by part. -/
def decEq : (x y : Sexp) → Decidable (x = y)
  | .atom s, .atom t => decidable_of_iff (s = t) (by rw [atom.injEq])
  | .atom _, .form _ _ => isFalse nofun
  | .form _ _, .atom _ => isFalse nofun
  | .form head xs, .form head' ys =>
    have := decEqAll xs ys
    decidable_of_iff (head = head' ∧ xs = ys) (by rw [form.injEq])

/-- Equality of items. -/
def decEqAll : (xs ys : List Sexp) → Decidable (xs = ys)
  | [], [] => isTrue rfl
  | [], _ :: _ => isFalse nofun
  | _ :: _, [] => isFalse nofun
  | x :: xs, y :: ys =>
    have := decEq x y
    have := decEqAll xs ys
    decidable_of_iff (x = y ∧ xs = ys) (by rw [List.cons.injEq])

end

instance : DecidableEq Sexp := decEq

mutual

/-- The text of a nested list. -/
def text : Sexp → String
  | .atom s => s
  | .form head items => "(" ++ head ++ itemsText items ++ ")"

/-- Items, a blank before each. -/
def itemsText : List Sexp → String
  | [] => ""
  | x :: xs => " " ++ text x ++ itemsText xs

end

@[simp] theorem text_atom (s : String) : (atom s).text = s := by rw [text]

@[simp] theorem text_form (head : String) (items : List Sexp) :
    (form head items).text = "(" ++ head ++ itemsText items ++ ")" := by rw [text]

@[simp] theorem itemsText_nil : itemsText [] = "" := by rw [itemsText]

@[simp] theorem itemsText_cons (x : Sexp) (xs : List Sexp) :
    itemsText (x :: xs) = " " ++ x.text ++ itemsText xs := by rw [itemsText]

/-- Items behind items. -/
theorem itemsText_append (xs ys : List Sexp) :
    itemsText (xs ++ ys) = itemsText xs ++ itemsText ys := by
  induction xs with
  | nil => rw [List.nil_append, itemsText_nil, String.empty_append]
  | cons x xs ih => simp only [List.cons_append, itemsText_cons, ih, String.append_assoc]

/-! ## Plain words -/

/-- A word without blanks and parentheses. -/
def PlainWord (s : String) : Prop := ' ' ∉ s.toList ∧ '(' ∉ s.toList ∧ ')' ∉ s.toList

instance (s : String) : Decidable (PlainWord s) := inferInstanceAs (Decidable (_ ∧ _ ∧ _))

/-- Plain words behind plain words. -/
theorem PlainWord.append {s t : String} (hs : PlainWord s) (ht : PlainWord t) :
    PlainWord (s ++ t) := by
  simp only [PlainWord, String.toList_append, List.mem_append, not_or]
  exact ⟨⟨hs.1, ht.1⟩, ⟨hs.2.1, ht.2.1⟩, hs.2.2, ht.2.2⟩

/-- A number is a plain word. -/
theorem plainWord_decimal (n : Int) : PlainWord (Text.decimal n) := by
  have hne : ∀ c, c.isDigit = false → c ≠ '-' → c ∉ (Text.decimal n).toList := by
    intro c hc hminus h
    rcases Text.isDigit_of_mem_decimal h with hdigit | heq
    · rw [hc] at hdigit
      exact Bool.noConfusion hdigit
    · exact hminus heq
  exact ⟨hne ' ' rfl (by decide), hne '(' rfl (by decide), hne ')' rfl (by decide)⟩

mutual

/-- All words of a nested list are plain. -/
def Plain : Sexp → Prop
  | .atom s => PlainWord s
  | .form head items => PlainWord head ∧ AllPlain items

/-- All words of all items are plain. -/
def AllPlain : List Sexp → Prop
  | [] => True
  | x :: xs => Plain x ∧ AllPlain xs

end

@[simp] theorem plain_atom {s : String} : (atom s).Plain ↔ PlainWord s := by rw [Plain]

@[simp] theorem plain_form {head : String} {items : List Sexp} :
    (form head items).Plain ↔ PlainWord head ∧ AllPlain items := by rw [Plain]

@[simp] theorem allPlain_nil : AllPlain [] := by rw [AllPlain]; trivial

@[simp] theorem allPlain_cons {x : Sexp} {xs : List Sexp} :
    AllPlain (x :: xs) ↔ x.Plain ∧ AllPlain xs := by rw [AllPlain]

/-- Items behind items are plain if both are. -/
theorem allPlain_append {xs ys : List Sexp} :
    AllPlain (xs ++ ys) ↔ AllPlain xs ∧ AllPlain ys := by
  induction xs with
  | nil => simp
  | cons x xs ih => rw [List.cons_append, allPlain_cons, ih, allPlain_cons, and_assoc]

/-! ## One reading only -/

/-- A rest before which a word ends: nothing, or a blank or closing parenthesis in front. -/
def EndsWord (rest : List Char) : Prop := ∀ c ∈ rest.head?, c = ' ' ∨ c = ')'

theorem endsWord_nil : EndsWord [] := nofun

/-- Items begin with a blank, and a form ends with a parenthesis, so the word before them
has ended. -/
theorem endsWord_items (xs : List Sexp) (rest : List Char) :
    EndsWord ((itemsText xs).toList ++ ')' :: rest) := fun c hc => by
  cases xs with
  | nil => exact Or.inr (by simpa using hc.symm)
  | cons x xs => exact Or.inl (by simpa using hc.symm)

/-- What is taken ends where the condition first fails. -/
theorem takeWhile_append_of_head? {α : Type} {p : α → Bool} {xs ys : List α}
    (hxs : ∀ x ∈ xs, p x = true) (hys : ∀ y ∈ ys.head?, p y = false) :
    (xs ++ ys).takeWhile p = xs := by
  rw [List.takeWhile_append_of_pos hxs]
  cases ys with
  | nil => exact List.append_nil xs
  | cons y ys => rw [List.takeWhile_cons_of_neg (by rw [hys y rfl]; decide), List.append_nil]

/-- A plain word ends at the first character that no plain word has. -/
theorem word_append_inj {v w : String} (hv : PlainWord v) (hw : PlainWord w) {s t : List Char}
    (hs : EndsWord s) (ht : EndsWord t) (h : v.toList ++ s = w.toList ++ t) : v = w ∧ s = t := by
  -- The word is all that comes before a blank or a closing sign.
  have hrun : ∀ {u : String}, PlainWord u → ∀ {rest : List Char}, EndsWord rest →
      (u.toList ++ rest).takeWhile (fun c => c ≠ ' ' ∧ c ≠ ')') = u.toList := by
    intro u hu rest hrest
    apply takeWhile_append_of_head?
    · intro c hc
      exact decide_eq_true ⟨fun h => hu.1 (h ▸ hc), fun h => hu.2.2 (h ▸ hc)⟩
    · intro c hc
      exact decide_eq_false fun h => (hrest c hc).elim h.1 h.2
  have heq : v.toList = w.toList := by rw [← hrun hv hs, h, hrun hw ht]
  rw [heq] at h
  exact ⟨String.toList_inj.1 heq, List.append_cancel_left h⟩

/-- No plain word is read where a list starts. -/
theorem word_append_ne {w head : String} {items : List Sexp} (hw : PlainWord w) {s t : List Char}
    (hs : EndsWord s) : w.toList ++ s ≠ (form head items).text.toList ++ t := fun h => by
  have hopen : (w.toList ++ s).head? = some '(' := by rw [h]; simp
  cases hcs : w.toList with
  | nil =>
    rw [hcs, List.nil_append] at hopen
    rcases hs '(' hopen with heq | heq <;> simp at heq
  | cons c cs =>
    rw [hcs] at hopen
    apply hw.2.1
    rw [hcs, ← Option.some.inj hopen]
    exact List.mem_cons_self

mutual

/-- Whatever follows, the text of a nested list of plain words is read in one way. -/
theorem text_append_inj : ∀ {x y : Sexp}, x.Plain → y.Plain → ∀ {s t : List Char},
    EndsWord s → EndsWord t → x.text.toList ++ s = y.text.toList ++ t → x = y ∧ s = t
  | .atom v, .atom w, hv, hw, s, t, hs, ht, h => by
    rw [text_atom, text_atom] at h
    obtain ⟨rfl, rfl⟩ := word_append_inj (plain_atom.1 hv) (plain_atom.1 hw) hs ht h
    exact ⟨rfl, rfl⟩
  -- A word never starts with the sign that opens a form.
  | .atom w, .form head items, hw, _, s, t, hs, _, h => by
    exact absurd h (word_append_ne (plain_atom.1 hw) hs)
  | .form head items, .atom w, _, hw, s, t, _, ht, h => by
    exact absurd h.symm (word_append_ne (plain_atom.1 hw) ht)
  | .form head xs, .form head' ys, hx, hy, s, t, _, _, h => by
    rw [plain_form] at hx hy
    -- Behind the head come the items, up to the sign that closes the form.
    have hopen : head.toList ++ ((itemsText xs).toList ++ ')' :: s) =
        head'.toList ++ ((itemsText ys).toList ++ ')' :: t) := by
      simpa [String.toList_append] using h
    obtain ⟨rfl, hitems⟩ :=
      word_append_inj hx.1 hy.1 (endsWord_items xs s) (endsWord_items ys t) hopen
    obtain ⟨rfl, rfl⟩ := itemsText_append_inj hx.2 hy.2 hitems
    exact ⟨rfl, rfl⟩

/-- Items are read in one way up to the closing parenthesis. -/
theorem itemsText_append_inj : ∀ {xs ys : List Sexp}, AllPlain xs → AllPlain ys →
    ∀ {s t : List Char}, (itemsText xs).toList ++ ')' :: s = (itemsText ys).toList ++ ')' :: t →
      xs = ys ∧ s = t
  | [], [], _, _, s, t, h => ⟨rfl, by simpa using h⟩
  | [], y :: ys, _, _, s, t, h => by simp at h
  | x :: xs, [], _, _, s, t, h => by simp at h
  | x :: xs, y :: ys, hx, hy, s, t, h => by
    rw [allPlain_cons] at hx hy
    -- The first items end at a blank, or at the sign that closes the list.
    have hfirst : x.text.toList ++ ((itemsText xs).toList ++ ')' :: s) =
        y.text.toList ++ ((itemsText ys).toList ++ ')' :: t) := by
      simpa [String.toList_append] using h
    obtain ⟨rfl, hrest⟩ :=
      text_append_inj hx.1 hy.1 (endsWord_items xs s) (endsWord_items ys t) hfirst
    obtain ⟨rfl, rfl⟩ := itemsText_append_inj hx.2 hy.2 hrest
    exact ⟨rfl, rfl⟩

end

/-- Nested lists of plain words are equal when their texts are. -/
theorem text_inj {x y : Sexp} (hx : x.Plain) (hy : y.Plain) : x.text = y.text ↔ x = y := by
  refine ⟨fun h => ?_, congrArg text⟩
  exact (text_append_inj hx hy endsWord_nil endsWord_nil (by rw [h])).1

end Sexp

end Tac
