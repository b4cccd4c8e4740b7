import Mathlib
import Tac.Lowering
import Tac.Proofs.Flow
import Tac.Proofs.Machine
import Tac.Proofs.Statements

/-!
# Places of code

The code of a function is the code of its statements in order, and jumps find their targets by
label.  A jump of a statement and the jump of its code must agree on the target, which holds because
the only labels in the code are those of label statements and the ones drawn for loops, and drawn
labels are new.

* **`codeOf`, `start`** — the code of a statement and its place in the code of the function.
* **`form_of_stmt`** — where labels, jumps and calls stand in the code of a statement.
* **`LabelsFresh`** — drawn labels are above all labels in use; `labelsFresh_of_room` says that they
  are when the counter is and does not run out of 64 bits.
* **`Loaded.label_at`, `Loaded.loop_at`** — the machine finds the code of label statements and of
  loops.
-/

namespace Tac

/-- The label that an instruction defines. -/
def Instr.label? : Instr → Option Int
  | .label l => some l
  | _ => none

/-- The table of labels as a table in which the last entry wins. -/
theorem Image.labelTable_eq (body : List Instr) : Image.labelTable body = lastTable Instr.label? body := by
  unfold Image.labelTable lastTable
  congr 1
  funext m p
  obtain ⟨x, i⟩ := p
  cases x <;> rfl

/-- Code without labels. -/
def Unlabelled (code : List Instr) : Prop := ∀ x ∈ code, x.label? = none

@[simp] theorem unlabelled_nil : Unlabelled [] := fun _ h => nomatch h

/-- Whether an instruction neither defines nor uses a label or a name. -/
def Instr.isPlain : Instr → Bool
  | .label _ | .jump _ | .branch .. | .call _ | .comment _ => false
  | _ => true

theorem Instr.label?_of_isPlain {x : Instr} (h : x.isPlain = true) : x.label? = none := by
  cases x <;> first | rfl | cases h

/-- Code without labels, jumps, calls and comments. -/
def Plain (code : List Instr) : Prop := ∀ x ∈ code, x.isPlain = true

@[simp] theorem plain_nil : Plain [] := fun _ h => nomatch h

theorem Plain.unlabelled {code : List Instr} (h : Plain code) : Unlabelled code :=
  fun x hx => Instr.label?_of_isPlain (h x hx)

theorem Instr.OffFrame.isPlain {x : Instr} (h : x.OffFrame) : x.isPlain = true := by
  cases h <;> rfl

namespace Lowering

variable {cx : Context} {code : List Instr}

/-! ## Plain code -/

/-- Moving operands is plain. -/
theorem Transfer.isPlain {x : Instr} (h : Transfer cx x) : x.isPlain = true := by
  cases h with
  | offFrame h => exact h.isPlain
  | loadStack | storeStack | addrStack => rfl

/-- Straight code is plain. -/
theorem Straight.isPlain {i : Nat} {st : Stmt} {x : Instr} (h : Straight cx i st x) :
    x.isPlain = true := by
  cases h with
  | transfer h => exact h.isPlain
  | imm | move | unary | binary | addImm | shift | divPow2 | load | save | restore | savedArg | zeroWord |
    ret => rfl

theorem plain_of_straight {i : Nat} {st : Stmt} (h : ∀ x ∈ code, Straight cx i st x) : Plain code :=
  fun x hx => (h x hx).isPlain

/-- The head of a clearing loop is plain. -/
theorem plain_loopHead (slot span : Int) : Plain (loopHead slot span) := by
  unfold loopHead
  split <;> simp [Plain, Instr.isPlain]

/-- Where no label stands none is found. -/
theorem not_label_of_unlabelled (h : Unlabelled code) (k : Nat) (t : Int) :
    code[k]?.bind Instr.label? ≠ some t := by
  intro hk
  obtain ⟨x, hx, hl⟩ := Option.bind_eq_some_iff.1 hk
  rw [h x (List.mem_of_getElem? hx)] at hl
  cases hl

/-- The label of a loop is the only one in the code of a zero fill. -/
theorem label_zeroLoop {loop slot span : Int} {k : Nat} {t : Int}
    (h : (zeroLoop loop slot span)[k]?.bind Instr.label? = some t) :
    t = loop ∧ k = (zeroLoop loop slot span).length - 4 := by
  have hlen : (zeroLoop loop slot span).length - 4 = (loopHead slot span).length := by
    simp [zeroLoop_eq, loopTurn]
  rw [hlen]
  rw [zeroLoop_eq] at h
  -- before the label, at it, or in the turn behind it
  by_cases hk : k < (loopHead slot span).length
  · rw [List.getElem?_append_left hk] at h
    exact absurd h (not_label_of_unlabelled (plain_loopHead slot span).unlabelled k t)
  · rw [List.getElem?_append_right (by omega)] at h
    cases hsub : k - (loopHead slot span).length with
    | zero =>
      rw [hsub] at h
      cases h
      exact ⟨rfl, by omega⟩
    | succ n =>
      rw [hsub, List.getElem?_cons_succ] at h
      exact absurd h (not_label_of_unlabelled (by simp [Unlabelled, loopTurn, Instr.label?]) n t)

/-- What the code of a statement looks like: labels and names stand in it only where the statement
has them, or where a loop is laid down. -/
inductive Form (cx : Context) (fresh : Int) : Stmt → List Instr → Prop where
  | plain {st : Stmt} {code : List Instr} (h : Plain code) (label : st.label? = none)
      (drawn : drawsLabel cx st = false) : Form cx fresh st code
  | label (l : Int) : Form cx fresh (.label l) [.label l]
  | jump (l : Int) : Form cx fresh (.jump l) [.jump l]
  | branch {pre : List Instr} (h : Plain pre) (l : Val) (rel : Rel) (r : Val) (t : Int) (x y : Reg) :
      Form cx fresh (.branch l rel r t) (pre ++ [.branch x y rel t])
  | call {pre post : List Instr} (h : Plain pre) (h' : Plain post) (ret : Option Val) (f : String)
      (args : List Val) : Form cx fresh (.call ret f args) (pre ++ .call f :: post)
  | loop {st : Stmt} (label : st.label? = none) (drawn : drawsLabel cx st = true) (slot span : Int) :
      Form cx fresh st (zeroLoop fresh slot span)

/-- The form of the code of a statement: where its labels are and what lies between them. -/
theorem form_of_stmt {fresh : Int} {i : Nat} {st : Stmt} (h : stmt cx fresh i st = .ok code) :
    Form cx fresh st code := by
  unfold stmt at h
  split at h
  · next hel =>
    cases h
    -- only statements with a destination are elided
    cases st with
    | binary | unary | move | load | call => exact .plain plain_nil rfl rfl
    | store | branch | jump | label | ret | zeroFill => simp [elided, Stmt.dst?] at hel
  · cases st with
    | binary d l op r => exact .plain (plain_of_straight (i := i) (straight_binary h)) rfl rfl
    | unary d op v => exact .plain (plain_of_straight (i := i) (straight_unary h)) rfl rfl
    | move d v => exact .plain (plain_of_straight (i := i) (straight_move h)) rfl rfl
    | store b off v => exact .plain (plain_of_straight (i := i) (straight_store h)) rfl rfl
    | load d b off => exact .plain (plain_of_straight (i := i) (straight_load h)) rfl rfl
    | ret v => exact .plain (plain_of_straight (i := i) (straight_ret h)) rfl rfl
    | jump l =>
      cases h
      exact .jump l
    | label l =>
      cases h
      exact .label l
    | branch l rel r t =>
      obtain ⟨pre, x, y, hpre, rfl⟩ := branch_parts h
      exact .branch (fun z hz => (hpre z hz).isPlain) l rel r t x y
    | call r f args =>
      obtain ⟨pre, post, hpre, hpost, rfl⟩ := call_sides h
      exact .call (plain_of_straight hpre) (plain_of_straight hpost) r f args
    | zeroFill a =>
      obtain ⟨id, l, -, hl, ⟨hdraw, rfl⟩ | ⟨hdraw, rfl⟩⟩ := zeroFill_parts h
      · refine .plain (fun x hx => ?_) rfl hdraw
        obtain ⟨k, -, rfl⟩ := List.mem_map.1 hx
        rfl
      · exact .loop rfl hdraw l.slot l.span

/-- A label in the code of a statement is its own, or the one drawn for its loop. -/
theorem label_of_stmt {fresh : Int} {i : Nat} {st : Stmt} (h : stmt cx fresh i st = .ok code)
    {k : Nat} {t : Int} (hk : code[k]?.bind Instr.label? = some t) :
    (st = .label t ∧ k = 0) ∨ (drawsLabel cx st = true ∧ t = fresh ∧ k = code.length - 4) := by
  -- all statements but labels and loops have code without labels
  have hun : Unlabelled code → False := fun hu => not_label_of_unlabelled hu k t hk
  cases form_of_stmt h with
  | plain hplain => exact (hun hplain.unlabelled).elim
  | label l =>
    cases k with
    | zero =>
      cases hk
      exact Or.inl ⟨rfl, rfl⟩
    | succ k => cases hk
  | jump l => exact (hun fun x hx => by rw [List.mem_singleton.1 hx]; rfl).elim
  | branch hpre =>
    refine (hun fun x hx => ?_).elim
    rcases List.mem_append.1 hx with hx | hx
    · exact hpre.unlabelled x hx
    · rw [List.mem_singleton.1 hx]
      rfl
  | call hpre hpost =>
    refine (hun fun x hx => ?_).elim
    rcases List.mem_append.1 hx with hx | hx
    · exact hpre.unlabelled x hx
    · rcases List.mem_cons.1 hx with rfl | hx
      · rfl
      · exact hpost.unlabelled x hx
  | loop _ hdraw =>
    obtain ⟨ht, hk'⟩ := label_zeroLoop hk
    exact Or.inr ⟨hdraw, ht, hk'⟩

/-! ## The code of each statement -/

/-- The label that statement `k` may draw. -/
def labelAt (cx : Context) (c : Counters) (k : Nat) : Int :=
  ((cx.placed.func.stmts.take k).foldl (advance cx) c).labels

/-- The code of statement `k`. -/
def codeOf (cx : Context) (c : Counters) (k : Nat) : List Instr :=
  match cx.placed.func.stmts[k]? with
  | some st => (stmt cx (labelAt cx c k) k st).toOption.getD []
  | none => []

/-- The code of the first `k` statements. -/
def codeTo (cx : Context) (c : Counters) (k : Nat) : List Instr :=
  ((List.range k).map (codeOf cx c)).flatten

/-- The place of the code of statement `k`, counted from the first statement. -/
def start (cx : Context) (c : Counters) (k : Nat) : Nat := (codeTo cx c k).length

/-- The code up to the next statement. -/
theorem codeTo_succ (cx : Context) (c : Counters) (k : Nat) :
    codeTo cx c (k + 1) = codeTo cx c k ++ codeOf cx c k := by
  simp [codeTo, List.range_succ]

/-- Where the next statement starts. -/
theorem start_succ (cx : Context) (c : Counters) (k : Nat) :
    start cx c (k + 1) = start cx c k + (codeOf cx c k).length := by
  rw [start, codeTo_succ, List.length_append, start]

/-- The code of statements is made one by one with the counters in between. -/
theorem stmts_ok : ∀ {ss : List Stmt} {c c' : Counters} {i : Nat} {body : List Instr},
    stmts cx c i ss = .ok (body, c') → ∃ codes : List (List Instr), body = codes.flatten ∧
      codes.length = ss.length ∧ ∀ k st, ss[k]? = some st → ∃ code, codes[k]? = some code ∧
        stmt cx ((ss.take k).foldl (advance cx) c).labels (i + k) st = .ok code := by
  intro ss
  -- On the statements; position and counter move along.
  induction ss with
  | nil =>
    intro c c' i body h
    cases h
    exact ⟨[], rfl, rfl, fun k st hk => by simp at hk⟩
  | cons s ss ih =>
    intro c c' i body h
    obtain ⟨code, rest, hcode, hrest, rfl⟩ := stmts_cons h
    obtain ⟨codes, rfl, hlen, hall⟩ := ih hrest
    -- the rest was made with the counters after this statement
    refine ⟨code :: codes, rfl, by simp [hlen], fun k st hk => ?_⟩
    cases k with
    | zero =>
      cases hk
      exact ⟨code, rfl, hcode⟩
    | succ k =>
      obtain ⟨code', h1, h2⟩ := hall k st hk
      refine ⟨code', h1, ?_⟩
      rw [show i + (k + 1) = i + 1 + k by omega]
      exact h2

/-- The code of a function is that of its statements in order. -/
theorem func_ok {c c' : Counters} {cf : CodeFunc} (h : func cx c = .ok (cf, c')) :
    cf.body = codeTo cx c cx.placed.func.stmts.length ∧
      ∀ k st, cx.placed.func.stmts[k]? = some st →
        stmt cx (labelAt cx c k) k st = .ok (codeOf cx c k) := by
  obtain ⟨codes, hbody, hlen, hall⟩ := stmts_ok (func_parts h).1
  have hcode : ∀ k st, cx.placed.func.stmts[k]? = some st →
      codes[k]? = some (codeOf cx c k) ∧ stmt cx (labelAt cx c k) k st = .ok (codeOf cx c k) := by
    intro k st hk
    obtain ⟨code, h1, h2⟩ := hall k st hk
    rw [zero_add] at h2
    have heq : codeOf cx c k = code := by
      simp only [codeOf, hk, labelAt, h2]
      rfl
    rw [heq]
    exact ⟨h1, h2⟩
  refine ⟨?_, fun k st hk => (hcode k st hk).2⟩
  -- the list of codes is the table of `codeOf`, entry by entry
  have hlist : codes = (List.range cx.placed.func.stmts.length).map (codeOf cx c) := by
    refine List.ext_getElem? fun k => ?_
    by_cases hk : k < cx.placed.func.stmts.length
    · rw [(hcode k _ (List.getElem?_eq_getElem hk)).1, List.getElem?_map,
        List.getElem?_range hk]
      rfl
    · rw [List.getElem?_eq_none (by omega), List.getElem?_eq_none (by simpa using hk)]
  rw [hbody, hlist]
  rfl

/-- An instruction stands in the code of some statement. -/
theorem getElem?_codeTo {c : Counters} : ∀ {n q : Nat} {x : Instr}, (codeTo cx c n)[q]? = some x →
    ∃ k o, k < n ∧ q = start cx c k + o ∧ (codeOf cx c k)[o]? = some x := by
  intro n
  -- On how far the code has got.
  induction n with
  | zero =>
    intro q x h
    simp [codeTo] at h
  | succ n ih =>
    intro q x h
    rw [codeTo_succ] at h
    by_cases hq : q < (codeTo cx c n).length
    · rw [List.getElem?_append_left hq] at h
      obtain ⟨k, o, hk, hqo, hx⟩ := ih h
      exact ⟨k, o, by omega, hqo, hx⟩
    · rw [List.getElem?_append_right (by omega)] at h
      refine ⟨n, q - (codeTo cx c n).length, by omega, ?_, h⟩
      rw [start]
      omega

/-- The code of a statement stands at its place. -/
theorem getElem?_codeTo_of_code {c : Counters} : ∀ {n k o : Nat} {x : Instr}, k < n →
    (codeOf cx c k)[o]? = some x → (codeTo cx c n)[start cx c k + o]? = some x := by
  intro n
  induction n with
  | zero => intro k o x hk; omega
  | succ n ih =>
    intro k o x hk hx
    rw [codeTo_succ]
    -- The last statement, or one whose code is unchanged by what follows.
    by_cases hkn : k = n
    · subst hkn
      rw [start, List.getElem?_append_right (by omega), Nat.add_sub_cancel_left]
      exact hx
    · have := ih (by omega) hx
      obtain ⟨hlt, _⟩ := List.getElem?_eq_some_iff.1 this
      rw [List.getElem?_append_left hlt]
      exact this

/-- Later statements start later. -/
theorem start_mono (cx : Context) (c : Counters) {j k : Nat} (h : j ≤ k) :
    start cx c j ≤ start cx c k := by
  induction h with
  | refl => exact le_refl _
  | step _ ih => exact le_trans ih (by rw [start_succ]; omega)

/-! ## Drawn labels -/

/-- Whenever a label is drawn, the counter is above all labels in use: those of the function's own
statements and those drawn before. -/
structure LabelsFresh (cx : Context) (c : Counters) : Prop where
  above : ∀ k st l, cx.placed.func.stmts[k]? = some st → drawsLabel cx st = true →
    Stmt.label l ∈ cx.placed.func.stmts → l < labelAt cx c k
  ascending : ∀ j k s t, j < k → cx.placed.func.stmts[j]? = some s → drawsLabel cx s = true →
    cx.placed.func.stmts[k]? = some t → drawsLabel cx t = true → labelAt cx c j < labelAt cx c k

/-- A statement that draws a label raises the counter. -/
theorem labelAt_succ {c : Counters} {k : Nat} {st : Stmt}
    (hk : cx.placed.func.stmts[k]? = some st) : labelAt cx c (k + 1) =
      if drawsLabel cx st then wrap64 (labelAt cx c k + 1) else labelAt cx c k := by
  simp only [labelAt]
  rw [List.take_add_one, hk, Option.toList_some, List.foldl_append, List.foldl_cons, List.foldl_nil,
    advance]
  split <;> rfl

/-- The counter only grows while it fits 64 bits. -/
theorem labelAt_bounds {c : Counters} (hlow : -9223372036854775808 ≤ c.labels)
    (hroom : c.labels + cx.placed.func.stmts.length < 9223372036854775808) :
    ∀ k, k ≤ cx.placed.func.stmts.length →
      c.labels ≤ labelAt cx c k ∧ labelAt cx c k ≤ c.labels + k ∧
        ∀ j s, j < k → cx.placed.func.stmts[j]? = some s →
          labelAt cx c j ≤ labelAt cx c k ∧
            (drawsLabel cx s = true → labelAt cx c j < labelAt cx c k) := by
  intro k
  -- On the number of statements so far.
  induction k with
  | zero =>
    intro _
    refine ⟨?_, ?_, fun j s hj => by omega⟩ <;> simp [labelAt]
  | succ k ih =>
    intro hk
    obtain ⟨h1, h2, h3⟩ := ih (by omega)
    have hlt : k < cx.placed.func.stmts.length := by omega
    have hstep := labelAt_succ (c := c) (List.getElem?_eq_getElem hlt)
    -- at most one label for each statement, so there is room for the next one
    have hwrap : wrap64 (labelAt cx c k + 1) = labelAt cx c k + 1 :=
      wrap64_of_range (by omega) (by omega)
    rw [hwrap] at hstep
    refine ⟨?_, ?_, fun j s hj hs => ?_⟩
    · rw [hstep]
      split <;> omega
    · rw [hstep]
      push_cast
      split <;> omega
    · by_cases hjk : j = k
      · subst hjk
        rw [List.getElem?_eq_getElem hlt] at hs
        obtain rfl := Option.some.inj hs
        rw [hstep]
        split
        · next hd => exact ⟨by omega, fun _ => by omega⟩
        · next hd => exact ⟨le_refl _, fun hd' => absurd hd' hd⟩
      · obtain ⟨h4, h5⟩ := h3 j s (by omega) hs
        have hle : labelAt cx c k ≤ labelAt cx c (k + 1) := by
          rw [hstep]
          split <;> omega
        exact ⟨by omega, fun hd => lt_of_lt_of_le (h5 hd) hle⟩

/-- A counter above the labels of the statements stays above all labels while it fits 64 bits. -/
theorem labelsFresh_of_room {c : Counters} (hlow : -9223372036854775808 ≤ c.labels)
    (hroom : c.labels + cx.placed.func.stmts.length < 9223372036854775808)
    (habove : ∀ l, Stmt.label l ∈ cx.placed.func.stmts → l < c.labels) : LabelsFresh cx c := by
  constructor
  · intro k st l hk _ hl
    obtain ⟨hlt, _⟩ := List.getElem?_eq_some_iff.1 hk
    have h1 := (labelAt_bounds hlow hroom k (by omega)).1
    have h2 := habove l hl
    omega
  · intro j k s t hjk hj hs hk _
    obtain ⟨hlt, _⟩ := List.getElem?_eq_some_iff.1 hk
    exact ((labelAt_bounds hlow hroom k (by omega)).2.2 j s hjk hj).2 hs

end Lowering

/-! ## Loaded code -/

namespace Activation

open Machine Lowering

/-- The function of an activation is the code of its statements, with the counters `c` at the start,
behind code `pre` without labels. -/
structure Loaded (A : Activation) (c : Counters) (pre : List Instr) : Prop where
  unlabelled : Unlabelled pre
  lowered : ∀ k st, A.cx.placed.func.stmts[k]? = some st →
    Lowering.stmt A.cx (labelAt A.cx c k) k st = .ok (codeOf A.cx c k)
  body_eq : A.func.body = (pre ++ codeTo A.cx c A.cx.placed.func.stmts.length).toArray
  labels_eq : A.func.labels =
    Image.labelTable (pre ++ codeTo A.cx c A.cx.placed.func.stmts.length)
  fresh : LabelsFresh A.cx c

/-- The loaded function is that of the lowered code: it finds every statement's code where
it starts. -/
theorem loaded_of_func {A : Activation} {c c' : Counters} {cf : CodeFunc} {pre : List Instr}
    (h : Lowering.func A.cx c = .ok (cf, c')) (hpre : Unlabelled pre)
    (hload : A.func = Image.loadFunc { cf with body := pre ++ cf.body })
    (hfresh : LabelsFresh A.cx c) : A.Loaded c pre := by
  obtain ⟨hbody, hcodes⟩ := Lowering.func_ok h
  refine ⟨hpre, hcodes, ?_, ?_, hfresh⟩
  · rw [hload, ← hbody]
    rfl
  · rw [hload, ← hbody]
    rfl

namespace Loaded

variable {A : Activation} {c : Counters} {pre : List Instr} (h : A.Loaded c pre)

include h

/-- The code of a statement stands where that statement starts. -/
theorem codeAt {k : Nat} {st : Stmt} (hk : A.cx.placed.func.stmts[k]? = some st) :
    CodeAt A.func (pre.length + start A.cx c k) (codeOf A.cx c k) := by
  intro o ho
  obtain ⟨hlt, _⟩ := List.getElem?_eq_some_iff.1 hk
  have hx := List.getElem?_eq_getElem ho
  rw [h.body_eq, List.getElem?_toArray, List.getElem?_append_right (by omega),
    show pre.length + start A.cx c k + o - pre.length = start A.cx c k + o by omega, hx]
  exact getElem?_codeTo_of_code hlt hx

/-- A label of the code stands in the code of some statement. -/
theorem label_place {q : Nat} {t : Int}
    (hq : (pre ++ codeTo A.cx c A.cx.placed.func.stmts.length)[q]?.bind Instr.label? = some t) :
    ∃ k o st, A.cx.placed.func.stmts[k]? = some st ∧ q = pre.length + start A.cx c k + o ∧
      ((st = .label t ∧ o = 0) ∨ (drawsLabel A.cx st = true ∧ t = labelAt A.cx c k ∧
        o = (codeOf A.cx c k).length - 4)) := by
  -- In front of the body there is no label.
  by_cases hpre : q < pre.length
  · rw [List.getElem?_append_left hpre] at hq
    exact absurd hq (not_label_of_unlabelled h.unlabelled q t)
  · rw [List.getElem?_append_right (by omega)] at hq
    obtain ⟨x, hx, hl⟩ := Option.bind_eq_some_iff.1 hq
    obtain ⟨k, o, hk, hqo, hcode⟩ := getElem?_codeTo hx
    have hst := List.getElem?_eq_getElem hk
    have hlabel : (codeOf A.cx c k)[o]?.bind Instr.label? = some t := by
      rw [hcode]
      exact hl
    exact ⟨k, o, _, hst, by omega, label_of_stmt (h.lowered k _ hst) hlabel⟩

/-- The machine finds the code of a label statement. -/
theorem label_at {t : Int} {j : Nat}
    (hj : (Flow.labelTable A.cx.placed.func.stmts)[t]? = some j) :
    A.func.labels[t]? = some (pre.length + start A.cx c j) := by
  obtain ⟨hst, hlast⟩ := (Flow.getElem?_labelTable _ _ _).1 hj
  have hcode : codeOf A.cx c j = [.label t] := by
    have := h.lowered j _ hst
    simp only [Lowering.stmt, elided, Stmt.callee?, Stmt.dst?] at this
    exact (Except.ok.inj this).symm
  rw [h.labels_eq, Image.labelTable_eq, getElem?_lastTable]
  constructor
  · have := h.codeAt hst 0 (by rw [hcode]; exact Nat.succ_pos _)
    rw [h.body_eq, List.getElem?_toArray, hcode] at this
    rw [add_zero] at this
    rw [this]
    rfl
  · -- a later label `t` would be a later statement or a drawn one
    intro q hq hlabel
    obtain ⟨k, o, st, hk, rfl, ⟨rfl, rfl⟩ | ⟨hdraw, heq, _⟩⟩ := h.label_place hlabel
    · have hjk : j < k := by
        by_contra hge
        have := start_mono A.cx c (show k ≤ j by omega)
        omega
      exact hlast k hjk hk
    · have := h.fresh.above k st t hk hdraw (List.mem_of_getElem? hst)
      omega

/-- The machine finds the loop of a statement. -/
theorem loop_at {k : Nat} {st : Stmt} (hk : A.cx.placed.func.stmts[k]? = some st)
    (hdraw : drawsLabel A.cx st = true) {o : Nat}
    (ho : (codeOf A.cx c k)[o]?.bind Instr.label? = some (labelAt A.cx c k)) :
    A.func.labels[labelAt A.cx c k]? = some (pre.length + start A.cx c k + o) := by
  have hnot : ¬ ∃ l, st = .label l := by
    rintro ⟨l, rfl⟩
    cases hdraw
  have hoff : o = (codeOf A.cx c k).length - 4 := by
    rcases label_of_stmt (h.lowered k st hk) ho with ⟨rfl, _⟩ | ⟨_, _, ho'⟩
    · exact absurd ⟨_, rfl⟩ hnot
    · exact ho'
  rw [h.labels_eq, Image.labelTable_eq, getElem?_lastTable]
  constructor
  · obtain ⟨x, hx, hl⟩ := Option.bind_eq_some_iff.1 ho
    obtain ⟨hlt, _⟩ := List.getElem?_eq_some_iff.1 hx
    have := h.codeAt hk o hlt
    rw [h.body_eq, List.getElem?_toArray, hx] at this
    rw [this]
    exact hl
  · -- the label statements have smaller labels, and every other loop has another one
    intro q hq hlabel
    obtain ⟨j, o', st', hj, rfl, ⟨rfl, _⟩ | ⟨hdraw', heq, ho'⟩⟩ := h.label_place hlabel
    · have := h.fresh.above k st _ hk hdraw (List.mem_of_getElem? hj)
      omega
    · rcases Nat.lt_trichotomy j k with hlt | rfl | hgt
      · have := h.fresh.ascending j k st' st hlt hj hdraw' hk hdraw
        omega
      · omega
      · have := h.fresh.ascending k j st st' hgt hk hdraw hj hdraw'
        omega

end Loaded

end Activation

end Tac
