import Mathlib
import Tac.Proofs.Evaluation
import Tac.Proofs.Operands

/-!
# Folding computes constants

Folding computes on words but keeps the wider values of literals and negations, so a folded value is
no word: the opposite of the least word is wider by one.  As long as literals are words or opposites
of words, nothing wider comes up, and a folded value is zero exactly when its word is.

* **`folds_constant`** — a constant expression folds to its value, any other one does not fold.
* **`expr_of_fold`** — an expression that folds evaluates to the folded value without effects, if it
  has a meaning at all.
-/

namespace Tac.Tree.Meaning

/-! ## Literals -/

/-- The number is a word or the opposite of one. -/
def Small (n : Int) : Prop := -2147483648 ≤ n ∧ n ≤ 2147483648

mutual

/-- All literals of an expression are words or opposites of words. -/
def Fits : Expr → Prop
  | .absent => True
  | .num n => Small n
  | .lval _ index _ => FitAll index
  | .call _ _ args _ => FitAll args
  | .unary _ x => Fits x
  | .binary _ l r => Fits l ∧ Fits r

/-- All literals of some expressions are words or opposites of words. -/
def FitAll : List Expr → Prop
  | [] => True
  | e :: es => Fits e ∧ FitAll es

end

/-- All literals in initial values are words or opposites of words. -/
def InitsFit (ds : Decls) : Prop := ∀ d, ∀ init, (ds.at d).init = some init → FitAll init

mutual

/-- All literals of a statement are words or opposites of words. -/
def NodeFits : Node → Prop
  | .block items => NodesFit items
  | .assign _ index _ e _ => FitAll index ∧ Fits e
  | .eval e => Fits e
  | .cond c yes no => Fits c ∧ NodeFits yes ∧ NodeFits no
  | .loop c body => Fits c ∧ NodeFits body
  | .ret (some e) _ => Fits e
  | .skip | .declare _ | .leave _ | .again _ | .ret none _ => True

/-- All literals of some statements are words or opposites of words. -/
def NodesFit : List Node → Prop
  | [] => True
  | s :: ss => NodeFits s ∧ NodesFit ss

end

/-- Literals of each of some expressions fit. -/
theorem fits_of_mem {es : List Expr} (h : FitAll es) {e : Expr} (he : e ∈ es) : Fits e := by
  induction es with
  | nil => cases he
  | cons x xs ih =>
    rcases List.mem_cons.1 he with rfl | he
    · exact h.1
    · exact ih h.2 he

/-- Literals of each of some statements fit. -/
theorem nodeFits_of_mem {ss : List Node} (h : NodesFit ss) {s : Node} (hs : s ∈ ss) : NodeFits s := by
  induction ss with
  | nil => nomatch hs
  | cons s' ss ih =>
    rcases List.mem_cons.1 hs with rfl | hs
    · exact h.1
    · exact ih h.2 hs

theorem small_toInt (w : Word) : Small w.toInt := ⟨Int32.le_toInt w, Int.le_of_lt (Int32.toInt_lt w)⟩

theorem word_toInt (w : Word) : word w.toInt = w := Int32.ofInt_toInt w

/-- A small number is zero exactly when its word is, since the only number that is too
large is not 2^32. -/
theorem word_eq_zero {n : Int} (h : Small n) : word n = 0 ↔ n = 0 := by
  constructor
  · intro hzero
    have hmod : Int.bmod n 4294967296 = 0 := by
      rw [← toInt_word, hzero]
      rfl
    obtain ⟨h₁, h₂⟩ := h
    rw [Int.bmod_def] at hmod
    split at hmod <;> omega
  · rintro rfl
    rfl

/-- A small number whose word is not negative is the value of the word. -/
theorem toInt_word_of_nonneg {n : Int} (h : Small n) (hn : 0 ≤ (word n).toInt) :
    (word n).toInt = n := by
  obtain ⟨h₁, h₂⟩ := h
  rw [toInt_word, Int.bmod_def] at hn ⊢
  split at hn <;> split <;> omega

/-! ## Operators -/

theorem word_ofBool (b : Bool) : word (Fold.ofBool b) = Word.ofBool b := by cases b <;> rfl

theorem small_ofBool (b : Bool) : Small (Fold.ofBool b) := by
  cases b <;> exact ⟨by decide, by decide⟩

/-- A unary operator folds a small number to a small one; the opposite of the least word
is the widest. -/
theorem small_unary {n : Int} (h : Small n) (op : UnOp) : Small (Fold.unary op n) := by
  cases op with
  | plus => exact h
  | neg =>
    obtain ⟨h₁, h₂⟩ := h
    rw [Fold.unary, wrap64_of_range (by omega) (by omega)]
    exact ⟨by omega, by omega⟩
  | not => exact small_ofBool _

/-- A unary operator folds to what it computes on words. -/
theorem word_unary {n : Int} (h : Small n) (op : UnOp) :
    word (Fold.unary op n) = operate₁ op (word n) := by
  cases op with
  | plus => rfl
  | neg => rw [Fold.unary, word_wrap64, word_neg, operate₁, Int32.zero_sub]
  | not =>
    -- A negation looks at the folded number, which is zero exactly when its word is.
    have hzero : (word n == 0) = (n == 0) := by
      rw [Bool.eq_iff_iff, beq_iff_eq, beq_iff_eq, word_eq_zero h]
    rw [Fold.unary, operate₁, hzero, word_ofBool]

/-- Operators fold to what they compute on words. -/
theorem map_word_binary (op : BinOp) (l r : Int) :
    (Fold.binary op l r).map word = operate op (word l) (word r) := by
  cases op with
  | add | sub | mul => exact congrArg some (word_toInt _)
  | div | mod =>
    unfold Fold.binary operate
    simp only
    split
    · rfl
    · exact congrArg some (word_toInt _)
  | cmp rel => exact congrArg some (word_ofBool _)
  | and | or => exact congrArg some (word_ofBool _)

/-- Operators fold to words. -/
theorem small_binary {op : BinOp} {l r c : Int} (h : Fold.binary op l r = some c) : Small c := by
  cases op with
  | add | sub | mul => cases h; exact small_toInt _
  | div | mod =>
    unfold Fold.binary at h
    simp only at h
    split at h
    · cases h
    · cases h
      exact small_toInt _
  | cmp rel => cases h; exact small_ofBool _
  | and | or => cases h; exact small_ofBool _

/-! ## Expressions -/

/-- How a constant and a folded value belong together; nothing is said of an index out of range. -/
inductive Folds : Constant → Folded → Prop where
  | outside (e : OutOfRange) (f : Folded) : Folds (.error e) f
  | varying {f : Folded} (h : ∀ c, f ≠ .ok (some c)) : Folds (.ok none) f
  | value {c : Int} (h : Small c) : Folds (.ok (some (word c))) (.ok (some c))

/-- The same of lists. -/
inductive FoldAll : Except OutOfRange (Option (List Word)) → List Folded → Prop where
  | outside (e : OutOfRange) (fs : List Folded) : FoldAll (.error e) fs
  | varying {fs : List Folded} (h : ∃ f ∈ fs, ∀ c, f ≠ .ok (some c)) : FoldAll (.ok none) fs
  | values {cs : List Int} (h : ∀ c ∈ cs, Small c) :
      FoldAll (.ok (some (cs.map word))) (cs.map fun c => .ok (some c))

/-- One more expression in front of a list. -/
theorem foldAll_further {x : Constant} {f : Folded} {xs : Except OutOfRange (Option (List Word))}
    {fs : List Folded} (h : Folds x f) (hs : FoldAll xs fs) : FoldAll (further x xs) (f :: fs) := by
  -- The first one that does not fold decides, as it does for the evaluation.
  cases h with
  | outside e f => exact .outside e _
  | varying h => exact .varying ⟨f, List.mem_cons_self, h⟩
  | @value c h =>
    cases hs with
    | outside e fs => exact .outside e _
    | varying hs =>
      obtain ⟨g, hg, hne⟩ := hs
      exact .varying ⟨g, List.mem_cons_of_mem _ hg, hne⟩
    | @values cs hs =>
      have hall : ∀ x ∈ c :: cs, Small x := List.forall_mem_cons.2 ⟨h, hs⟩
      exact .values hall

section Look

variable {ds : Decls} {look : Expr → Constant} {fold : Expr → Folded}

/-- A unary operator folds with its operand. -/
theorem folds_unary {x : Expr} (op : UnOp) (h : Folds (constantOf ds look x) (Fold.expr ds fold x)) :
    Folds (constantOf ds look (.unary op x)) (Fold.expr ds fold (.unary op x)) := by
  simp only [constantOf, Fold.expr]
  revert h
  generalize constantOf ds look x = k
  generalize Fold.expr ds fold x = f
  intro h
  -- Either the operand has no meaning, or it varies, or it has a value.
  cases h with
  | outside e f => exact .outside e _
  | varying h =>
    refine .varying fun c => ?_
    split
    · exact absurd rfl (h _)
    · exact h c
  | value h =>
    show Folds (.ok (some (operate₁ op (word _)))) (.ok (some (Fold.unary op _)))
    -- On small values the operation in 64 bits has the right lower 32 bits.
    rw [← word_unary h op]
    exact .value (small_unary h op)

/-- An operator folds when both sides do and its result exists. -/
theorem folds_binary {l r : Expr} (op : BinOp)
    (hl : Folds (constantOf ds look l) (Fold.expr ds fold l))
    (hr : Folds (constantOf ds look r) (Fold.expr ds fold r)) :
    Folds (constantOf ds look (.binary op l r)) (Fold.expr ds fold (.binary op l r)) := by
  simp only [constantOf, Fold.expr]
  revert hl hr
  generalize constantOf ds look l = x
  generalize constantOf ds look r = y
  generalize Fold.expr ds fold l = f
  generalize Fold.expr ds fold r = g
  intro hl hr
  cases hl with
  | outside e f => exact .outside e _
  | varying hf =>
    refine .varying fun c => ?_
    split
    · exact absurd rfl (hf _)
    · exact hf c
  | @value c hc =>
    cases hr with
    | outside e g => exact .outside e _
    | varying hg =>
      refine .varying fun d => ?_
      simp only
      exact hg d
    | @value d hd =>
      simp only [both, ← map_word_binary]
      -- A division by zero neither folds nor is a constant.
      cases hb : Fold.binary op c d with
      | none => exact .varying fun e => nofun
      | some e => exact .value (small_binary hb)

/-! ### Elements -/

/-- An element does not fold when one of its indexes does not. -/
theorem element_ne_some (d : Decl) (i : Nat) (k : Int) {fs : List Folded}
    (h : ∃ f ∈ fs, ∀ c, f ≠ .ok (some c)) (c : Int) : Fold.element d i k fs ≠ .ok (some c) := by
  -- On the indexes; one that folds is passed over, so the one that does not is met.
  induction fs generalizing i k with
  | nil => simp at h
  | cons f fs ih =>
    unfold Fold.element
    split
    · nofun
    · nofun
    · next c' =>
      split
      · refine ih _ _ ?_
        obtain ⟨g, hg, hne⟩ := h
        rcases List.mem_cons.1 hg with rfl | hg
        · exact absurd rfl (hne c')
        · exact ⟨g, hg, hne⟩
      · nofun

/-- Indexes that are words add up to the position, as 64-bit numbers. -/
theorem element_eq (d : Decl) {cs : List Int} (hcs : ∀ c ∈ cs, (word c).toInt = c) (i : Nat)
    (k : Int) (hk : wrap64 k = k) (hi : i + cs.length ≤ d.dims.length) :
    Fold.element d i k (cs.map fun c => .ok (some c)) =
      .ok (some (wrap64 (k + position d i (cs.map word)))) := by
  induction cs generalizing i k with
  | nil => simp [Fold.element, position, hk]
  | cons c cs ih =>
    rw [List.length_cons] at hi
    have hnext := ih (fun c hc => hcs c (List.mem_cons_of_mem _ hc)) (i + 1)
      (wrap64 (k + c * d.stride i)) (by simp [wrap64]) (by omega)
    rw [List.map_cons, Fold.element, if_pos (by omega), hnext, wrap64_add, List.map_cons, position,
      hcs c List.mem_cons_self, Int.add_assoc]

/-- Indexes inside the dimensions are not negative. -/
theorem nonneg_of_inside {ns : List Int} {ws : List Word} (h : inside ns ws = true) :
    ∀ w ∈ ws, 0 ≤ w.toInt := by
  induction ns, ws using inside.induct with
  | case1 ns => nofun
  | case2 w ws => cases h
  | case3 n ns w ws ih =>
    simp only [inside, Bool.and_eq_true, decide_eq_true_eq] at h
    exact List.forall_mem_cons.2 ⟨h.1.1, ih h.2⟩

/-- Indexes in range are not negative, also where the first dimension is open. -/
theorem nonneg_of_inRange {d : Decl} {ws : List Word} (h : inRange d ws = true) :
    ∀ w ∈ ws, 0 ≤ w.toInt := by
  cases ws with
  | nil => nofun
  | cons w ws =>
    rw [inRange] at h
    split at h
    · simp only [Bool.and_eq_true, decide_eq_true_eq] at h
      exact List.forall_mem_cons.2 ⟨h.1, nonneg_of_inside h.2⟩
    · exact nonneg_of_inside h

/-- An element of a constant array folds to its initial value, which is zero where none is
given. -/
theorem folds_element {d : Decl} (hlook : ∀ init, d.init = some init → ∀ e ∈ init,
      Folds (look e) (fold e)) {index : Except OutOfRange (Option (List Word))} {fs : List Folded}
    (h : FoldAll index fs) : Folds (element look d index) (Fold.select fold d fs) := by
  unfold element Fold.select
  cases hconst : d.const with
  | false => exact .varying fun c => nofun
  | true =>
    cases hinit : d.init with
    | none => exact .varying fun c => nofun
    | some init =>
      cases h with
      | outside e fs => exact .outside e _
      | varying h =>
        refine .varying fun c => ?_
        simp only
        split
        · nofun
        · nofun
        · next heq => exact absurd heq (element_ne_some d 0 0 h _)
      | @values cs hcs =>
        simp only
        split
        · exact .outside _ _
        · next hrange =>
          simp only [Bool.not_eq_true', Bool.not_eq_false] at hrange
          -- Indexes in range are words, so what is added up is what was written.
          have hexact : ∀ c ∈ cs, (word c).toInt = c := fun c hc =>
            toInt_word_of_nonneg (hcs c hc) (nonneg_of_inRange hrange _ (List.mem_map_of_mem hc))
          by_cases hlen : cs.length = d.dims.length
          · have hpos := element_eq d hexact 0 0 (by decide) (by omega)
            rw [Int.zero_add] at hpos
            simp only [hpos, List.length_map]
            split
            · exact .varying fun c => nofun
            · cases hget : init[(wrap64 (position d 0 (cs.map word))).toNat]? with
              | none => exact .value (c := 0) ⟨by decide, by decide⟩
              | some e => exact hlook init hinit e (List.mem_of_getElem? hget)
          · rw [if_pos (Or.inl (by rwa [List.length_map]))]
            refine .varying fun c => ?_
            split
            · nofun
            · nofun
            · rw [if_pos (Or.inl (by rwa [List.length_map]))]
              nofun

end Look

/-! ### All expressions -/

mutual

/-- Expressions fold as their constants are, if those of initial values do. -/
theorem folds_constantOf {ds : Decls} {look : Expr → Constant} {fold : Expr → Folded}
    (hlook : ∀ d init, (ds.at d).init = some init → ∀ e ∈ init, Folds (look e) (fold e)) :
    ∀ e, Fits e → Folds (constantOf ds look e) (Fold.expr ds fold e)
  | .absent, _ => .value (c := 0) ⟨by decide, by decide⟩
  | .num n, h => .value (c := n) h
  | .lval d index _, h => by
    rw [constantOf, Fold.expr]
    exact folds_element (hlook d) (foldAll_constantsOf hlook index h)
  | .call .., _ => .varying fun c => nofun
  | .unary op x, h => folds_unary op (folds_constantOf hlook x h)
  | .binary op l r, h => folds_binary op (folds_constantOf hlook l h.1) (folds_constantOf hlook r h.2)

/-- The same of lists of expressions. -/
theorem foldAll_constantsOf {ds : Decls} {look : Expr → Constant} {fold : Expr → Folded}
    (hlook : ∀ d init, (ds.at d).init = some init → ∀ e ∈ init, Folds (look e) (fold e)) :
    ∀ es, FitAll es → FoldAll (constantsOf ds look es) (Fold.exprs ds fold es)
  | [], _ =>
    have hnone : ∀ c ∈ ([] : List Int), Small c := nofun
    .values hnone
  | e :: es, h =>
    foldAll_further (folds_constantOf hlook e h.1) (foldAll_constantsOf hlook es h.2)

end

/-- Expressions fold as their constants are, to any depth of constants in initial values. -/
theorem folds_constantWithin {ds : Decls} (hds : InitsFit ds) (depth : Nat) {e : Expr}
    (he : Fits e) : Folds (constantWithin ds depth e) (Fold.within ds depth e) := by
  -- On the depth; literals in initial values fit too.
  induction depth generalizing e with
  | zero => exact .varying fun c => nofun
  | succ depth ih =>
    refine folds_constantOf (fun d init hinit e' he' => ?_) e he
    exact ih (fits_of_mem (hds d init hinit) he')

/-- A constant expression folds to its value, and any other one does not fold. -/
theorem folds_constant {ds : Decls} (hds : InitsFit ds) {e : Expr} (he : Fits e) :
    Folds (constant ds e) (e.fold ds) :=
  folds_constantWithin hds _ he

/-! ## Evaluating what folds -/

/-- What an element of an array folds to is small. -/
theorem small_select {fold : Expr → Folded} {d : Decl}
    (hfold : ∀ init, d.init = some init → ∀ e ∈ init, ∀ c, fold e = .ok (some c) → Small c)
    {fs : List Folded} {c : Int} (h : Fold.select fold d fs = .ok (some c)) : Small c := by
  unfold Fold.select at h
  split at h
  -- Entries that were left out are zero; the others were folded before.
  · next hinit =>
    split at h
    · cases h
    · cases h
    · split at h
      · cases h
      · split at h
        · cases h
          exact ⟨by decide, by decide⟩
        · next he => exact hfold _ hinit _ (List.mem_of_getElem? he) _ h
  · cases h

/-- A unary operator folds only if its operand does. -/
theorem fold_unary {ds : Decls} {fold : Expr → Folded} {op : UnOp} {x : Expr} {c : Int}
    (h : Fold.expr ds fold (.unary op x) = .ok (some c)) :
    ∃ a, Fold.expr ds fold x = .ok (some a) ∧ c = Fold.unary op a := by
  rw [Fold.expr] at h
  split at h
  · next a ha =>
    cases h
    exact ⟨a, ha, rfl⟩
  · next hne => exact absurd h (hne c)

/-- An operator folds only if both sides do. -/
theorem fold_binary {ds : Decls} {fold : Expr → Folded} {op : BinOp} {l r : Expr} {c : Int}
    (h : Fold.expr ds fold (.binary op l r) = .ok (some c)) :
    ∃ a b, Fold.expr ds fold l = .ok (some a) ∧ Fold.expr ds fold r = .ok (some b) ∧
      Fold.binary op a b = some c := by
  rw [Fold.expr] at h
  split at h
  · next a ha =>
    split at h
    · next b hb => exact ⟨a, b, ha, hb, Except.ok.inj h⟩
    · next hne => exact absurd h (hne c)
  · next hne => exact absurd h (hne c)

/-- Expressions fold to small numbers, if initial values do. -/
theorem small_expr {ds : Decls} {fold : Expr → Folded} (hfold : ∀ d init, (ds.at d).init = some init →
      ∀ e ∈ init, ∀ c, fold e = .ok (some c) → Small c) :
    ∀ e, Fits e → ∀ c, Fold.expr ds fold e = .ok (some c) → Small c
  | .absent, _, c, h => by
    cases h
    exact ⟨by decide, by decide⟩
  | .num n, he, c, h => by
    cases h
    exact he
  | .lval d index pos, _, c, h => by
    rw [Fold.expr] at h
    exact small_select (hfold d) h
  | .call .., _, c, h => by cases h
  | .unary op x, he, c, h => by
    obtain ⟨a, ha, rfl⟩ := fold_unary h
    exact small_unary (small_expr hfold x he a ha) op
  | .binary op l r, _, c, h => by
    obtain ⟨a, b, -, -, hc⟩ := fold_binary h
    exact small_binary hc

/-- Expressions with literals that fit fold to small numbers. -/
theorem small_fold {ds : Decls} (hds : InitsFit ds) {e : Expr} (he : Fits e) {c : Int}
    (h : e.fold ds = .ok (some c)) : Small c := by
  -- To any depth; at depth zero nothing folds.
  have hwithin : ∀ depth, ∀ e, Fits e → ∀ c, Fold.within ds depth e = .ok (some c) → Small c := by
    intro depth
    induction depth with
    | zero => exact fun e _ c h => by cases h
    | succ depth ih =>
      exact small_expr fun d init hinit e he => ih e (fits_of_mem (hds d init hinit) he)
  exact hwithin _ e he c h

/-- The value is there, or the expression has no meaning. -/
def Gives (x : Eval Word) (a : Word) (w : Run.World Unit) : Prop :=
  x w = .ok (a, w) ∨ x w = .error .fault

/-- A value that is given to the next step. -/
theorem Gives.bind {x : Eval Word} {f : Word → Eval Word} {a b : Word} {w : Run.World Unit}
    (hx : Gives x a w) (hf : Gives (f a) b w) : Gives (x >>= f) b w := by
  rcases hx with hx | hx
  · rcases hf with hf | hf
    · exact Or.inl ((bind_of_ok hx).trans hf)
    · exact Or.inr ((bind_of_ok hx).trans hf)
  · exact Or.inr (bind_of_error hx)

/-- A logical operator on constants gives its truth value, with or without a look at the
second side. -/
theorem gives_logical {l r : Eval Word} {a b : Word} {w : Run.World Unit} (hl : Gives l a w)
    (hr : Gives r b w) (isOr : Bool) : Gives (logical isOr l r)
      (if isOr then Word.ofBool (a != 0 || b != 0) else Word.ofBool (a != 0 && b != 0)) w := by
  refine Gives.bind hl ?_
  split
  · next h =>
    left
    subst h
    cases a != 0 <;> rfl
  · next h =>
    refine Gives.bind hr (Or.inl ?_)
    -- the first operand did not decide, so the second one does
    have hb : (if isOr then Word.ofBool (a != 0 || b != 0) else Word.ofBool (a != 0 && b != 0)) =
        Word.ofBool (b != 0) := by
      cases ha : a != 0 <;> cases isOr <;> simp_all
    rw [hb]
    rfl

/-- An operator on constants gives its result. -/
theorem gives_arith {l r : Eval Word} {a b c : Word} {w : Run.World Unit} (hl : Gives l a w)
    (hr : Gives r b w) {op : BinOp} (h : operate op a b = some c) : Gives (arith op l r) c w := by
  refine Gives.bind hl (Gives.bind hr ?_)
  rw [h]
  exact Or.inl rfl

/-- An expression that folds evaluates to the folded value and calls nobody. -/
theorem expr_of_fold {C : Context} (hds : InitsFit C.decls) (loc : Locals) (frozen : List DeclId)
    (w : Run.World Unit) : ∀ e, Fits e → ∀ c, e.fold C.decls = .ok (some c) →
      Gives (expr C loc frozen e) (word c) w
  | .absent, _, c, h => by
    cases h
    exact Or.inl rfl
  | .num n, _, c, h => by
    cases h
    exact Or.inl rfl
  -- A scalar or element that folds is a constant of the unit.
  | .lval d index pos, he, c, h => by
    have hfolds := folds_constant hds (e := .lval d index pos) he
    rw [h] at hfolds
    unfold Gives
    rw [expr]
    cases hk : constant C.decls (.lval d index pos) with
    | error e => exact Or.inr rfl
    | ok k =>
      rw [hk] at hfolds
      cases hfolds with
      | varying hne => exact absurd rfl (hne c)
      | value => exact Or.inl rfl
  | .call .., _, c, h => by cases h
  | .unary op x, he, c, h => by
    obtain ⟨a, ha, rfl⟩ := fold_unary h
    rw [word_unary (small_fold hds (e := x) he ha), expr]
    exact Gives.bind (expr_of_fold hds loc frozen w x he a ha) (Or.inl rfl)
  | .binary op l r, he, c, h => by
    obtain ⟨a, b, ha, hb, hc⟩ := fold_binary h
    have hl := expr_of_fold hds loc frozen w l he.1 a ha
    have hr := expr_of_fold hds loc frozen w r he.2 b hb
    -- Folding computes the word that the operation gives.
    have hop : operate op (word a) (word b) = some (word c) := by
      rw [← map_word_binary, hc]
      rfl
    rw [expr]
    unfold binary
    split
    · rw [← Option.some.inj hop]
      exact gives_logical hl hr false
    · rw [← Option.some.inj hop]
      exact gives_logical hl hr true
    · exact gives_arith hl hr hop

end Tac.Tree.Meaning
