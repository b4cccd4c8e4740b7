import Mathlib
import Tac.Proofs.Folding
import Tac.Proofs.Operators

/-!
# Folded values and run-time values

At run time an expression is computed word by word with the operators of the machine; an element of a
constant stands for its initial value, or for zero if it has none.  Folding computes operators on words
too, but an opposite stays as wide as it comes out.  So a folded value is the value at run time, except
that the opposite of the least word is folded to the number one above the greatest word, while at run
time it is the least word again.

* **`Evaluates`** — the value of an expression at run time; `Evaluates.unique` says that there is at
  most one.
* **`Part`** — what an expression is made of, also through the initial values that it refers to.
* **`evaluates_of_fold`** — what a folded value has to do with the value at run time.
* **`fold_opposite_of_least`** — the exception.
-/

namespace Tac.Tree.Meaning

/-! ## Values at run time -/

/-- Indexes that are inside the dimensions of a constant array, one for each, select element `k`. -/
structure Selects (d : Decl) (ws : List Word) (init : List Expr) (k : Nat) : Prop where
  const : d.const = true
  init : d.init = some init
  full : ws.length = d.dims.length
  inside : inside d.dims ws = true
  position : wrap64 (position d 0 ws) = k

/-- The value of an expression at run time, with the operators of the machine.  An expression that
divides by zero or has an index outside its dimension has none. -/
inductive Evaluates (ds : Decls) : Expr → Word → Prop where
  | absent : Evaluates ds .absent 0
  | num (n : Int) : Evaluates ds (.num n) (word n)
  | initial {d : DeclId} {index : List Expr} {pos : Pos} {ws : List Word} {init : List Expr} {k : Nat}
      {e : Expr} {w : Word} (hlength : index.length = ws.length)
      (hindex : ∀ p ∈ index.zip ws, Evaluates ds p.1 p.2) (hselects : Selects (ds.at d) ws init k)
      (he : init[k]? = some e) (hw : Evaluates ds e w) : Evaluates ds (.lval d index pos) w
  | missing {d : DeclId} {index : List Expr} {pos : Pos} {ws : List Word} {init : List Expr} {k : Nat}
      (hlength : index.length = ws.length) (hindex : ∀ p ∈ index.zip ws, Evaluates ds p.1 p.2)
      (hselects : Selects (ds.at d) ws init k) (he : init[k]? = none) :
      Evaluates ds (.lval d index pos) 0
  | unary {op : UnOp} {e : Expr} {x : Word} (hx : Evaluates ds e x) :
      Evaluates ds (.unary op e) (Machine.unary op x)
  | binary {op : BinOp} {l r : Expr} {x y w : Word} (hl : Evaluates ds l x) (hr : Evaluates ds r y)
      (hw : Machine.binary op x y = .ok w) : Evaluates ds (.binary op l r) w
  /-- The second operand is not evaluated when the first one decides. -/
  | andFalse {l r : Expr} (hl : Evaluates ds l 0) : Evaluates ds (.binary .and l r) 0
  | andTrue {l r : Expr} {x y : Word} (hl : Evaluates ds l x) (hx : x ≠ 0) (hr : Evaluates ds r y) :
      Evaluates ds (.binary .and l r) (Word.ofBool (y != 0))
  | orTrue {l r : Expr} {x : Word} (hl : Evaluates ds l x) (hx : x ≠ 0) :
      Evaluates ds (.binary .or l r) 1
  | orFalse {l r : Expr} {y : Word} (hl : Evaluates ds l 0) (hr : Evaluates ds r y) :
      Evaluates ds (.binary .or l r) (Word.ofBool (y != 0))

variable {ds : Decls}

/-- Indexes have at most one list of values if each has at most one. -/
theorem zip_unique {index : List Expr} {ws vs : List Word} (hws : index.length = ws.length)
    (hvs : index.length = vs.length) (h : ∀ p ∈ index.zip ws, ∀ v, Evaluates ds p.1 v → v = p.2)
    (hv : ∀ p ∈ index.zip vs, Evaluates ds p.1 p.2) : vs = ws := by
  refine List.ext_getElem (by omega) fun i h₁ h₂ => ?_
  have hi : i < index.length := by omega
  have hw : (index[i], ws[i]) ∈ index.zip ws :=
    List.mem_iff_getElem.2 ⟨i, by simp; omega, List.getElem_zip⟩
  have hmem : (index[i], vs[i]) ∈ index.zip vs :=
    List.mem_iff_getElem.2 ⟨i, by simp; omega, List.getElem_zip⟩
  exact h _ hw _ (hv _ hmem)

/-- Indexes select one initializer at most. -/
theorem Selects.unique {d : Decl} {ws : List Word} {init init' : List Expr} {k k' : Nat}
    (h : Selects d ws init k) (h' : Selects d ws init' k') : init' = init ∧ k' = k :=
  ⟨Option.some.inj (h'.init.symm.trans h.init), Int.ofNat.inj (h'.position.symm.trans h.position)⟩

/-- Indexes with one list of values select one element. -/
theorem element_unique {d : Decl} {index init init' : List Expr} {ws vs : List Word} {k k' : Nat}
    (hws : index.length = ws.length) (hvs : index.length = vs.length)
    (h : ∀ p ∈ index.zip ws, ∀ v, Evaluates ds p.1 v → v = p.2)
    (hv : ∀ p ∈ index.zip vs, Evaluates ds p.1 p.2) (hselects : Selects d ws init k)
    (hselects' : Selects d vs init' k') : init'[k']? = init[k]? := by
  obtain rfl := zip_unique hws hvs h hv
  obtain ⟨rfl, rfl⟩ := hselects.unique hselects'
  rfl

/-- A constant expression has one value at most. -/
theorem Evaluates.unique {e : Expr} {w v : Word} (h : Evaluates ds e w) (hv : Evaluates ds e v) :
    v = w := by
  -- On how the first value came about; each rule allows the other value only one way.
  induction h generalizing v with
  | absent => cases hv; rfl
  | num n => cases hv; rfl
  | initial hlength hindex hselects he hw ihindex ih =>
    cases hv with
    | initial hlength' hindex' hselects' he' hv =>
      have hsame := element_unique hlength hlength' (fun p hp v => ihindex p hp) hindex' hselects
        hselects'
      rw [he, he'] at hsame
      cases hsame
      exact ih hv
    | missing hlength' hindex' hselects' he' =>
      have hsame := element_unique hlength hlength' (fun p hp v => ihindex p hp) hindex' hselects
        hselects'
      rw [he, he'] at hsame
      cases hsame
  | missing hlength hindex hselects he ihindex =>
    cases hv with
    | initial hlength' hindex' hselects' he' hv =>
      have hsame := element_unique hlength hlength' (fun p hp v => ihindex p hp) hindex' hselects
        hselects'
      rw [he, he'] at hsame
      cases hsame
    | missing => rfl
  | unary hx ih =>
    cases hv with
    | unary hy => rw [ih hy]
  | binary hl hr hw ihl ihr =>
    cases hv with
    | binary hl' hr' hv =>
      rw [ihl hl', ihr hr', hw] at hv
      exact (Except.ok.inj hv).symm
    -- the machine has no logical operators
    | andFalse | andTrue | orTrue | orFalse => cases hw
  | andFalse hl ihl =>
    cases hv with
    | binary hl' hr' hv => cases hv
    | andFalse => rfl
    | andTrue hl' hx => exact absurd (ihl hl') hx
  | andTrue hl hx hr ihl ihr =>
    cases hv with
    | binary hl' hr' hv => cases hv
    | andFalse hl' => exact absurd (ihl hl').symm hx
    | andTrue hl' hx' hr' => rw [ihr hr']
  | orTrue hl hx ihl =>
    cases hv with
    | binary hl' hr' hv => cases hv
    | orTrue => rfl
    | orFalse hl' => exact absurd (ihl hl').symm hx
  | orFalse hl hr ihl ihr =>
    cases hv with
    | binary hl' hr' hv => cases hv
    | orTrue hl' hx => exact absurd (ihl hl') hx
    | orFalse hl' hr' => rw [ihr hr']

/-! ## Parts -/

/-- `x` is the expression `e`, a part of it, or a part of an initial value that it refers to. -/
inductive Part (ds : Decls) (x : Expr) : Expr → Prop where
  | self : Part ds x x
  | unary {op : UnOp} {e : Expr} (h : Part ds x e) : Part ds x (.unary op e)
  | left {op : BinOp} {l r : Expr} (h : Part ds x l) : Part ds x (.binary op l r)
  | right {op : BinOp} {l r : Expr} (h : Part ds x r) : Part ds x (.binary op l r)
  | index {d : DeclId} {index : List Expr} {pos : Pos} {e : Expr} (he : e ∈ index) (h : Part ds x e) :
      Part ds x (.lval d index pos)
  | initial {d : DeclId} {index : List Expr} {pos : Pos} {ws : List Word} {init : List Expr} {k : Nat}
      {e : Expr} (hlength : index.length = ws.length)
      (hindex : ∀ p ∈ index.zip ws, Evaluates ds p.1 p.2) (hselects : Selects (ds.at d) ws init k)
      (he : init[k]? = some e) (h : Part ds x e) : Part ds x (.lval d index pos)

/-- All literals of an expression are words, and its indexes are inside their dimensions. -/
structure Proper (ds : Decls) (e : Expr) : Prop where
  literals : ∀ n, Part ds (.num n) e → -2147483648 ≤ n ∧ n < 2147483648
  indexes : ∀ d index pos ws, Part ds (.lval d index pos) e → index.length = ws.length →
    (∀ p ∈ index.zip ws, Evaluates ds p.1 p.2) → inside (ds.at d).dims ws = true

/-- Parts of a proper expression are proper. -/
theorem Proper.mono {e e' : Expr} (h : Proper ds e) (hparts : ∀ x, Part ds x e' → Part ds x e) :
    Proper ds e' where
  literals n hn := h.literals n (hparts _ hn)
  indexes d index pos ws hl := h.indexes d index pos ws (hparts _ hl)

/-! ## What folds -/

/-- Indexes that select an element are all constant. -/
theorem element_inv {d : Decl} {i : Nat} {k k' : Int} {fs : List Folded}
    (h : Fold.element d i k fs = .ok (some k')) :
    ∃ cs : List Int, fs = cs.map fun c => .ok (some c) := by
  induction fs generalizing i k with
  | nil => exact ⟨[], rfl⟩
  | cons f fs ih =>
    unfold Fold.element at h
    split at h
    · cases h
    · cases h
    -- An index that folds may still be out of range, which ends the search.
    · next c =>
      split at h
      · obtain ⟨cs, rfl⟩ := ih h
        exact ⟨c :: cs, rfl⟩
      · cases h

/-- What a reference that folds refers to: a value of some element that is inside, or zero. -/
theorem select_inv {fold : Expr → Folded} {d : Decl} {fs : List Folded} {c : Int}
    (h : Fold.select fold d fs = .ok (some c)) : ∃ (init : List Expr) (cs : List Int) (k : Int),
      d.const = true ∧ d.init = some init ∧ fs = cs.map (fun c => .ok (some c)) ∧
      cs.length = d.dims.length ∧ Fold.element d 0 0 fs = .ok (some k) ∧ 0 ≤ k ∧
      (init[k.toNat]? = none ∧ c = 0 ∨ ∃ e, init[k.toNat]? = some e ∧ fold e = .ok (some c)) := by
  unfold Fold.select at h
  split at h
  · next init hconst hinit =>
    split at h
    · cases h
    · cases h
    · next k hk =>
      -- A position is known only if all indexes fold.
      obtain ⟨cs, rfl⟩ := element_inv hk
      rw [List.length_map] at h
      split at h
      · cases h
      · next hin =>
        simp only [not_or, not_not, not_lt, not_le] at hin
        refine ⟨init, cs, k, hconst, hinit, rfl, hin.1, hk, hin.2.1, ?_⟩
        split at h
        · next hnone =>
          cases h
          exact Or.inl ⟨hnone, rfl⟩
        · next e he => exact Or.inr ⟨e, he, h⟩
  · cases h

/-- The operators of folding are those of the machine, but for the logical ones. -/
theorem binary_of_fold {op : BinOp} {a b c : Int} (hop : op.isLogical = false)
    (h : Fold.binary op a b = some c) : Machine.binary op (word a) (word b) = .ok (word c) := by
  refine Generate.Scene.binary_of_operate hop ?_
  rw [← map_word_binary, h]
  rfl

/-- Logical operators evaluate their second operand only if they must. -/
theorem evaluates_logical {l r : Expr} {x y : Word} (hl : Evaluates ds l x) (hr : Evaluates ds r y) :
    Evaluates ds (.binary .and l r) (Word.ofBool (x != 0 && y != 0)) ∧
      Evaluates ds (.binary .or l r) (Word.ofBool (x != 0 || y != 0)) := by
  by_cases hx : x = 0
  · subst hx
    exact ⟨.andFalse hl, .orFalse hl hr⟩
  · have hne : (x != 0) = true := by simpa using hx
    rw [hne]
    exact ⟨.andTrue hl hx hr, .orTrue hl hx⟩

/-- A folded operation evaluates to the folded value. -/
theorem evaluates_binary {op : BinOp} {l r : Expr} {a b c : Int} (hl : Evaluates ds l (word a))
    (hr : Evaluates ds r (word b)) (h : Fold.binary op a b = some c) :
    Evaluates ds (.binary op l r) (word c) := by
  by_cases hop : op.isLogical = false
  · exact .binary hl hr (binary_of_fold hop h)
  · have hlogical := evaluates_logical hl hr
    have hc := congrArg (Option.map word) h
    rw [map_word_binary] at hc
    cases op with
    | and => exact Option.some.inj hc ▸ hlogical.1
    | or => exact Option.some.inj hc ▸ hlogical.2
    | add | sub | mul | div | mod | cmp => exact absurd rfl hop

/-- Folding a list folds its expressions. -/
theorem fold_exprs_eq_map (fold : Expr → Folded) (es : List Expr) :
    Fold.exprs ds fold es = es.map (Fold.expr ds fold) := by
  induction es with
  | nil => rfl
  | cons e es ih => rw [Fold.exprs, ih, List.map_cons]

/-- A reference evaluates to the value of its element, or to zero. -/
theorem evaluates_select {fold : Expr → Folded} {d : DeclId} {index : List Expr} {pos : Pos}
    {cs : List Int} {init : List Expr} {k c : Int} (hlength : index.length = (cs.map word).length)
    (hindex : ∀ p ∈ index.zip (cs.map word), Evaluates ds p.1 p.2) (hsmall : ∀ c ∈ cs, Small c)
    (hconst : (ds.at d).const = true) (hinit : (ds.at d).init = some init)
    (hfull : cs.length = (ds.at d).dims.length) (hinside : inside (ds.at d).dims (cs.map word) = true)
    (hk : Fold.element (ds.at d) 0 0 (cs.map fun c => .ok (some c)) = .ok (some k)) (hk0 : 0 ≤ k)
    (hc : init[k.toNat]? = none ∧ c = 0 ∨ ∃ e, init[k.toNat]? = some e ∧ fold e = .ok (some c))
    (hfold : ∀ e, init[k.toNat]? = some e → Selects (ds.at d) (cs.map word) init k.toNat →
      fold e = .ok (some c) → Evaluates ds e (word c) ∧ Small c) :
    Evaluates ds (.lval d index pos) (word c) ∧ Small c := by
  -- indexes inside their dimensions are not negative, so they are the values of their words
  have hexact : ∀ c ∈ cs, (word c).toInt = c := fun c hc =>
    toInt_word_of_nonneg (hsmall c hc) (nonneg_of_inside hinside _ (List.mem_map_of_mem hc))
  rw [element_eq (ds.at d) hexact 0 0 (by decide) (by omega), Int.zero_add] at hk
  have hposition : wrap64 (position (ds.at d) 0 (cs.map word)) = k :=
    Option.some.inj (Except.ok.inj hk)
  have hselects : Selects (ds.at d) (cs.map word) init k.toNat :=
    ⟨hconst, hinit, by rwa [List.length_map], hinside, by omega⟩
  rcases hc with ⟨hnone, rfl⟩ | ⟨e, he, hc⟩
  · exact ⟨.missing hlength hindex hselects hnone, by decide, by decide⟩
  · obtain ⟨hw, hc⟩ := hfold e he hselects hc
    exact ⟨.initial hlength hindex hselects he hw, hc⟩

mutual

/-- What folds evaluates to what it folds to. `fold` stands for the folding of the initial
values it reads. -/
theorem evaluates_expr {fold : Expr → Folded} (hfold : ∀ e, Proper ds e → ∀ c,
      fold e = .ok (some c) → Evaluates ds e (word c) ∧ Small c) :
    ∀ e, Proper ds e → ∀ c, Fold.expr ds fold e = .ok (some c) →
      Evaluates ds e (word c) ∧ Small c
  | .absent, _, c, h => by
    cases h
    exact ⟨.absent, by decide, by decide⟩
  | .num n, he, c, h => by
    cases h
    obtain ⟨hmin, hmax⟩ := he.literals n .self
    exact ⟨.num n, hmin, le_of_lt hmax⟩
  -- The element that was selected is evaluated by its initial value, or it is zero.
  | .lval d index pos, he, c, h => by
    rw [Fold.expr] at h
    obtain ⟨init, cs, k, hconst, hinit, hcs, hfull, hk, hk0, hc⟩ := select_inv h
    obtain ⟨hindex, hsmall⟩ := evaluates_exprs hfold index
      (fun e hmem => he.mono fun x hx => .index hmem hx) cs hcs
    have hlength : index.length = (cs.map word).length := by
      have hsame := congrArg List.length hcs
      rw [fold_exprs_eq_map, List.length_map, List.length_map] at hsame
      rw [hsame, List.length_map]
    have hinside := he.indexes d index pos _ .self hlength hindex
    exact evaluates_select hlength hindex hsmall hconst hinit hfull hinside (hcs ▸ hk) hk0 hc
      fun e he' hselects => hfold e (he.mono fun x hx => .initial hlength hindex hselects he' hx) c
  | .call .., _, c, h => by cases h
  -- The only place where the size of the values matters.
  | .unary op x, he, c, h => by
    obtain ⟨a, ha, rfl⟩ := fold_unary h
    obtain ⟨hx, hsmall⟩ := evaluates_expr hfold x (he.mono fun x hx => .unary hx) a ha
    rw [word_unary hsmall, ← Generate.Scene.unary_eq]
    exact ⟨.unary hx, small_unary hsmall op⟩
  | .binary op l r, he, c, h => by
    obtain ⟨a, b, ha, hb, hc⟩ := fold_binary h
    have hl := (evaluates_expr hfold l (he.mono fun x hx => .left hx) a ha).1
    have hr := (evaluates_expr hfold r (he.mono fun x hx => .right hx) b hb).1
    exact ⟨evaluates_binary hl hr hc, small_binary hc⟩

/-- Lists of expressions evaluate to what they fold to. -/
theorem evaluates_exprs {fold : Expr → Folded} (hfold : ∀ e, Proper ds e → ∀ c,
      fold e = .ok (some c) → Evaluates ds e (word c) ∧ Small c) :
    ∀ es, (∀ e ∈ es, Proper ds e) → ∀ cs : List Int,
      Fold.exprs ds fold es = cs.map (fun c => .ok (some c)) →
        (∀ p ∈ es.zip (cs.map word), Evaluates ds p.1 p.2) ∧ ∀ c ∈ cs, Small c
  | [], _, cs, h => by
    obtain rfl : cs = [] := by simpa [Fold.exprs] using h.symm
    exact ⟨nofun, nofun⟩
  | e :: es, he, cs, h => by
    cases cs with
    | nil => simp [Fold.exprs] at h
    | cons c cs =>
      rw [Fold.exprs, List.map_cons] at h
      obtain ⟨h₁, h₂⟩ := List.cons_eq_cons.1 h
      obtain ⟨hc, hsmall⟩ := evaluates_expr hfold e (he e List.mem_cons_self) c h₁
      obtain ⟨hcs, hsmalls⟩ := evaluates_exprs hfold es
        (fun e hmem => he e (List.mem_cons_of_mem _ hmem)) cs h₂
      refine ⟨fun p hp => ?_, List.forall_mem_cons.2 ⟨hsmall, hsmalls⟩⟩
      rw [List.map_cons, List.zip_cons_cons] at hp
      rcases List.mem_cons.1 hp with rfl | hp
      · exact hc
      · exact hcs p hp

end

/-- A folded value is no wider than the opposite of a word, and its word is the value at run time. -/
theorem evaluates_within (depth : Nat) {e : Expr} (he : Proper ds e) {c : Int}
    (h : Fold.within ds depth e = .ok (some c)) : Evaluates ds e (word c) ∧ Small c := by
  -- each reference to an initial value takes one level of depth
  induction depth generalizing e c with
  | zero => cases h
  | succ depth ih => exact evaluates_expr (fun e he c h => ih he h) e he c h

/-- **Folding and run time.**  An expression that folds has exactly one value at run time.  The folded
value is that value, unless it is the number above the greatest word, for which run time has the
least word. -/
theorem evaluates_of_fold {e : Expr} (he : Proper ds e) {c : Int} (h : e.fold ds = .ok (some c)) :
    ∃ w, Evaluates ds e w ∧ (∀ v, Evaluates ds e v → v = w) ∧
      (c = w.toInt ∨ c = 2147483648 ∧ w.toInt = -2147483648) := by
  obtain ⟨hw, hmin, hmax⟩ := evaluates_within _ he h
  refine ⟨word c, hw, fun v hv => hw.unique hv, ?_⟩
  by_cases hc : c = 2147483648
  · subst hc
    exact Or.inr ⟨rfl, rfl⟩
  · left
    rw [toInt_word, Int.bmod_eq_of_le_mul_two] <;> omega

theorem part_num {x : Expr} {n : Int} (h : Part ds x (.num n)) : x = .num n := by
  cases h
  rfl

/-- The constant array `a[2] = {-7}`, which has one initial value for two elements. -/
def halfFilled : Decls := #[{ name := "a", const := true, dims := [2], init := some [.num (-7)] }]

/-- The parts of an element of the array. -/
theorem part_halfFilled {x : Expr} {n : Int} (h : Part halfFilled x (.lval 0 [.num n] {})) :
    x = .lval 0 [.num n] {} ∨ x = .num n ∨ x = .num (-7) := by
  -- The element itself, its index, or an initial value of the array.
  cases h with
  | self => exact Or.inl rfl
  | index he h =>
    rw [List.mem_singleton] at he
    subst he
    exact Or.inr (Or.inl (part_num h))
  | initial hlength hindex hselects he h =>
    have hinit := hselects.init
    cases hinit
    have hnum := List.mem_singleton.1 (List.mem_of_getElem? he)
    exact Or.inr (Or.inr (part_num (hnum ▸ h)))

/-- The missing element `a[1]` is zero, so `a[1] || -a[0]` looks at the other one. -/
theorem evaluates_of_fold_missing : ∃ w,
    Evaluates halfFilled (.binary .or (.lval 0 [.num 1] {}) (.unary .neg (.lval 0 [.num 0] {}))) w ∧
      (1 : Int) = w.toInt := by
  -- All parts of the expression, numbers and elements.
  have hparts : ∀ x, Part halfFilled x
      (.binary .or (.lval 0 [.num 1] {}) (.unary .neg (.lval 0 [.num 0] {}))) →
      (∀ m, x = .num m → m = 0 ∨ m = 1 ∨ m = -7) ∧
        ∀ d index pos, x = .lval d index pos → d = 0 ∧ (index = [.num 0] ∨ index = [.num 1]) := by
    rintro x (_ | _ | h | h)
    · exact ⟨nofun, nofun⟩
    · rcases part_halfFilled h with rfl | rfl | rfl <;> simp
    · cases h with
      | self => exact ⟨nofun, nofun⟩
      | unary h => rcases part_halfFilled h with rfl | rfl | rfl <;> simp
  -- The indexes are within bounds, which is what the theorem asks.
  have hproper : Proper halfFilled
      (.binary .or (.lval 0 [.num 1] {}) (.unary .neg (.lval 0 [.num 0] {}))) := by
    refine ⟨fun n hn => ?_, fun d index pos ws hl hlength hindex => ?_⟩
    · rcases (hparts _ hn).1 n rfl with rfl | rfl | rfl <;> decide
    · obtain ⟨rfl, hindex'⟩ := (hparts _ hl).2 d index pos rfl
      obtain ⟨w, rfl⟩ := List.length_eq_one_iff.1 (hlength.symm.trans (by
        rcases hindex' with rfl | rfl <;> rfl))
      rcases hindex' with rfl | rfl
      · have hw : w = word 0 := (Evaluates.num 0).unique (hindex (.num 0, w) (by simp))
        rw [hw]
        decide
      · have hw : w = word 1 := (Evaluates.num 1).unique (hindex (.num 1, w) (by simp))
        rw [hw]
        decide
  obtain ⟨w, hw, -, hvalue | ⟨hvalue, -⟩⟩ := evaluates_of_fold hproper (c := 1) (by decide)
  · exact ⟨w, hw, hvalue⟩
  · cases hvalue

/-- The opposite of the least word folds to a number that is no word; at run time it is the least word
again. -/
theorem fold_opposite_of_least :
    (Expr.unary .neg (.binary .sub (.num (-2147483647)) (.num 1))).fold #[] = .ok (some 2147483648) ∧
      Evaluates #[] (.unary .neg (.binary .sub (.num (-2147483647)) (.num 1))) (-2147483648) :=
  ⟨by decide, .unary (.binary (.num _) (.num _) rfl)⟩

end Tac.Tree.Meaning
