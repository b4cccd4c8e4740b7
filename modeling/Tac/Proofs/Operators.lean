import Mathlib
import Tac.Proofs.Scene

/-!
# Operators

The code of an operator computes its value from the code of its operands, and a jump on it is taken
exactly when its truth is as wanted.  The code of the second operand of a logical operator is passed
over when the first one decides.

Operands are computed one after the other, and the first must not change while the second is
computed.  A constant cannot, a temporary is older, a local is not assigned inside an expression, and
an evaluation in which a call changes a global scalar of the expression is a fault.

* **`Scene.Computes`, `Scene.Decides`** — code gives a value, or decides a jump.
* **`Scene.Renders`** — both ways to compile an expression do what its evaluation does.
-/

namespace Tac.Tree.Generate.Scene

open Run (Reach Status World Place)
open Meaning (Eval Locals)

variable {S : Scene} {n : Nat} {frozen : List DeclId} {loc : Locals}

/-- The run arrives behind the code of an expression with its value in an operand. -/
def Arrives (S : Scene) (frozen : List DeclId) (st st' : State) (v : Val) (s : Run.State Unit)
    (x : Word) (w : World Unit) (status : Status Unit) : Prop :=
  ∃ t, status = .running st'.stmts.size t ∧ t.world = w ∧ S.Quiet frozen st.temps.size s t ∧
    S.Holds frozen st'.temps.size v x t

/-- The code computes what the evaluation gives. -/
def Computes (S : Scene) (n : Nat) (frozen : List DeclId) (loc : Locals) (g : Gen Val)
    (x : Eval Word) : Prop :=
  ∀ ⦃st v st'⦄, g st = .ok (v, st') → S.Starts st → S.Leads st' → ∀ ⦃s⦄, S.Agrees loc s →
    S.Follows n st.stmts.size s (x s.world) (S.Arrives frozen st st' v s)

/-- The code jumps to a label when the truth of what the evaluation gives is as wanted, and goes on
behind itself otherwise. -/
def Decides (S : Scene) (n : Nat) (frozen : List DeclId) (loc : Locals)
    (g : Int → Bool → Gen Unit) (x : Eval Word) : Prop :=
  ∀ ⦃label want st st'⦄, g label want st = .ok ((), st') → S.Starts st → S.Leads st' →
    ∀ ⦃j⦄, (Flow.labelTable S.code)[label]? = some j → ∀ ⦃s⦄, S.Agrees loc s →
    S.Follows n st.stmts.size s (x s.world) fun a w status =>
      ∃ t, status = .running (if (a != 0) = want then j else st'.stmts.size) t ∧ t.world = w ∧
        S.Quiet frozen st.temps.size s t

/-- Both ways to compile an expression do what the evaluation does. -/
structure Renders (S : Scene) (n : Nat) (frozen : List DeclId) (loc : Locals) (c : Coded)
    (x : Eval Word) : Prop where
  codeOnly : CodeOnly S.env.decls c
  value : S.Computes n frozen loc c.value x
  jump : S.Decides n frozen loc c.jump x

/-- The code of a tree's expression does what its evaluation does. -/
def Rendered (S : Scene) (n : Nat) (frozen : List DeclId) (loc : Locals) (e : Expr) : Prop :=
  S.Renders n frozen loc (expr S.env e) (Meaning.expr S.C loc frozen e)

/-! ## Arithmetic -/

/-- The machine computes the operators as the language defines them. -/
theorem binary_of_operate {op : BinOp} (hop : op.isLogical = false) {x y z : Word}
    (h : Meaning.operate op x y = some z) : Machine.binary op x y = .ok z := by
  cases op with
  | add | sub | mul | cmp => exact congrArg Except.ok (Option.some.inj h)
  | div | mod =>
    unfold Meaning.operate at h
    unfold Machine.binary
    simp only at h ⊢
    split at h
    · cases h
    · next hy =>
      rw [if_neg hy]
      exact congrArg Except.ok (Option.some.inj h)
  | and | or => cases hop

/-- The machine computes the unary operators as the language defines them. -/
theorem unary_eq (op : UnOp) (x : Word) : Machine.unary op x = Meaning.operate₁ op x := by
  cases op with
  | plus | not => rfl
  | neg => exact (Int32.zero_sub x).symm

/-- A temporary for a binary operator on operands with values. -/
theorem reach_binaryTemp (frozen : List DeclId) (hS : S.Sound) {st st' : State} {l r v : Val} {op : BinOp}
    (h : binaryTemp l op r st = .ok (v, st')) (hst : S.Starts st) (hlead : S.Leads st')
    {s : Run.State Unit} {x y z : Word} (hl : s.eval S.X l = some x) (hr : s.eval S.X r = some y)
    (hz : Machine.binary op x y = .ok z) :
    ∃ t, Reach S.X S.code 1 st.stmts.size s (.running st'.stmts.size t) ∧ t.world = s.world ∧
      S.Quiet frozen st.temps.size s t ∧ S.Holds frozen st'.temps.size v z t := by
  obtain ⟨rfl, rfl⟩ := binaryTemp_inv h
  exact hlead.reach_define frozen hS hst (Run.exec_binary hl hr hz)

/-- The code of an operator computes what it means. -/
theorem computes_arith (hS : S.Sound) {op : BinOp} (hop : op.isLogical = false) {l r : Coded}
    {x y : Eval Word} (hl : S.Renders n frozen loc l x) (hr : S.Renders n frozen loc r y) :
    S.Computes n frozen loc (arithValue S.env op l r) (Meaning.arith op x y) := by
  intro st v st' h hst hlead s hag
  obtain ⟨o, s₀, hfold, hrest⟩ := bind_eq_ok h
  obtain ⟨-, rfl⟩ := folded_inv hfold
  split at hrest
  · exact (refuse_bind_inv hrest).elim
  obtain ⟨a, st₁, ha, hrest⟩ := bind_eq_ok hrest
  obtain ⟨b, st₂, hb, htemp⟩ := bind_eq_ok hrest
  have hlead₂ : S.Leads st₂ := hlead.of_adds (adds_binaryTemp a op b) htemp
  have hst₁ := hst.of_adds hl.codeOnly.value ha
  refine Follows.bind (hl.value ha hst (hlead₂.of_adds hr.codeOnly.value hb) hag) ?_
  rintro x₁ - - ⟨t₁, rfl, rfl, hq₁, hx⟩
  refine ⟨_, t₁, rfl, Follows.bind (hr.value hb hst₁ hlead₂ (hag.quiet hq₁)) ?_⟩
  -- The first operand was there before the code of the second ran, which is quiet.
  rintro y₁ - - ⟨t₂, rfl, rfl, hq₂, hy⟩
  refine ⟨_, t₂, rfl, ?_⟩
  -- Dividing by zero has no meaning, so nothing is asked of the code.
  cases hz : Meaning.operate op x₁ y₁ with
  | none => exact follows_fault
  | some z =>
    obtain ⟨u, hreach, hw, hq, hv⟩ := reach_binaryTemp frozen hS htemp
      (hst₁.of_adds hr.codeOnly.value hb) hlead (hx.quiet hS hq₂).1 hy.1 (binary_of_operate hop hz)
    have hle₁ := (hl.codeOnly.value ha).1.size_temps
    have hle₂ := (hr.codeOnly.value hb).1.size_temps
    exact .of_ok rfl hreach
      ⟨u, rfl, hw, (hq₁.trans hq₂ hle₁).trans hq (Nat.le_trans hle₁ hle₂), hv⟩

/-- The code of a unary operator computes what it means. -/
theorem computes_unary (hS : S.Sound) (op : UnOp) {c : Coded} {x : Eval Word}
    (hc : S.Renders n frozen loc c x) : S.Computes n frozen loc (unaryValue op c)
      (do return Meaning.operate₁ op (← x)) := by
  intro st v st' h hst hlead s hag
  obtain ⟨a, st₁, ha, hrest⟩ := bind_eq_ok h
  -- plus leaves the operand as it is, the others compute a temporary
  have hcases : (op = .plus ∧ v = a ∧ st' = st₁) ∨
      (v = .temp st₁.counters.temps ∧ st' = st₁.define fun t => .unary t op a) := by
    cases op with
    | plus =>
      obtain ⟨rfl, rfl⟩ := pure_inv hrest
      exact Or.inl ⟨rfl, rfl, rfl⟩
    | neg => cases hrest; exact Or.inr ⟨rfl, rfl⟩
    | not => cases hrest; exact Or.inr ⟨rfl, rfl⟩
  rcases hcases with ⟨rfl, rfl, rfl⟩ | ⟨rfl, rfl⟩
  · refine Follows.bind (hc.value ha hst hlead hag) ?_
    rintro x₁ - - ⟨t₁, rfl, rfl, hq₁, hx⟩
    exact ⟨_, t₁, rfl, .of_ok rfl (.refl _ _) ⟨t₁, rfl, rfl, hq₁, hx⟩⟩
  · refine Follows.bind (hc.value ha hst hlead.of_define.of_add hag) ?_
    rintro x₁ - - ⟨t₁, rfl, rfl, hq₁, hx⟩
    have hexec : Run.exec S.X t₁ (.unary (.temp st₁.counters.temps) op a) = _ :=
      Run.exec_unary hx.1
    obtain ⟨u, hreach, hw, hq, hv⟩ := hlead.reach_define frozen hS
      (hst.of_adds hc.codeOnly.value ha) hexec
    rw [unary_eq] at hv
    exact ⟨_, t₁, rfl, .of_ok rfl hreach
      ⟨u, rfl, hw, hq₁.trans hq (hc.codeOnly.value ha).1.size_temps, hv⟩⟩

/-! ## Jumps -/

/-- A jump reaches the label it goes to. -/
theorem Leads.reach_goto {st : State} {stm : Stmt} {l : Int} {j : Nat} {s t : Run.State Unit}
    (h : S.Leads (st.add stm)) (hx : Run.exec S.X s stm = .goto l t)
    (hl : (Flow.labelTable S.code)[l]? = some j) :
    Reach S.X S.code 1 st.stmts.size s (.running j t) := by
  refine .of_step h.getElem?_add ?_
  simp only [hx, Run.follow, hl]

/-- A label is passed. -/
theorem Leads.reach_label {st : State} {l : Int} (h : S.Leads (st.add (.label l)))
    (s : Run.State Unit) :
    Reach S.X S.code 1 st.stmts.size s (.running (st.add (.label l)).stmts.size s) :=
  h.reach rfl

/-- Comparing with zero tests the truth of a value. -/
theorem holds_zero (x : Word) (want : Bool) :
    (if want then Rel.ne else Rel.eq).holds x (word 0) = true ↔ (x != 0) = want := by
  cases want with
  | true => exact Iff.rfl
  | false =>
    show (x == 0) = true ↔ (x != 0) = false
    rw [bne, Bool.not_eq_false']

/-- A value is decided on by comparing it with zero. -/
theorem decides_value {g : Gen Val} {x : Eval Word} (h : S.Computes n frozen loc g x) :
    S.Decides n frozen loc (jumpOnValue g) x := by
  intro label want st st' hjump hst hlead j hj s hag
  obtain ⟨v, st₁, hv, hemit⟩ := bind_eq_ok hjump
  obtain rfl := emit_inv hemit
  refine Follows.extend (h hv hst hlead.of_add hag) ?_
  rintro a - - ⟨t, rfl, rfl, hq, hx⟩
  have hexec : Run.exec S.X t (.branch v (if want then .ne else .eq) (.const 0) label) = _ :=
    Run.exec_branch hx.1 (Run.State.eval_const 0)
  -- The branch compares with zero, with the sign turned as the jump is wanted.
  by_cases htruth : (a != 0) = want
  · rw [if_pos ((holds_zero a want).2 htruth)] at hexec
    refine ⟨_, t, _, rfl, (hlead.reach_goto hexec hj).eventually, t, ?_, rfl, hq⟩
    rw [if_pos htruth]
  · rw [if_neg (mt (holds_zero a want).1 htruth)] at hexec
    refine ⟨_, t, _, rfl, (hlead.reach hexec).eventually, t, ?_, rfl, hq⟩
    rw [if_neg htruth]

/-- The truth of a logical operator is that of the operand that decides. -/
theorem truth_ofBool (b : Bool) : (Word.ofBool b != 0) = b := by cases b <;> decide

/-- Negation turns the jump around. -/
theorem decides_not {c : Coded} {x : Eval Word} (hc : S.Renders n frozen loc c x) :
    S.Decides n frozen loc (fun label want => c.jump label (!want))
      (do return Meaning.operate₁ .not (← x)) := by
  intro label want st st' h hst hlead j hj s hag
  refine Follows.bind (hc.jump h hst hlead hj hag) ?_
  rintro a - - ⟨t, rfl, rfl, hq⟩
  refine ⟨_, t, rfl, .of_ok rfl (.refl _ _) ⟨t, ?_, rfl, hq⟩⟩
  have hturn : ((Meaning.operate₁ .not a != 0) = want) ↔ ((a != 0) = !want) := by
    rw [Meaning.operate₁, truth_ofBool, bne]
    cases a == 0 <;> cases want <;> decide
  simp only [hturn]

/-! ## Logical operators -/

/-- The jumping code of a logical operator decides what it means. -/
theorem decides_logical (hS : S.Sound) (isOr : Bool) {l r : Coded} {x y : Eval Word}
    (hl : S.Renders n frozen loc l x) (hr : S.Renders n frozen loc r y) :
    S.Decides n frozen loc (logicalJump isOr l r) (Meaning.logical isOr x y) := by
  intro label want st st' h hst hlead j hj s hag
  rcases logicalJump_inv h with ⟨rfl, st₁, st₂, h₁, h₂, rfl⟩ | ⟨rfl, st₁, h₁, h₂⟩
  · -- the first operand can only skip the jump
    obtain ⟨hgrown₁, -⟩ := hl.codeOnly.jump _ _ h₁
    obtain ⟨hgrown₂, hdecl₂⟩ := hr.codeOnly.jump _ _ h₂
    have hlead₂ : S.Leads st₂ := hlead.of_add
    have hst₀ := hst.drawLabel
    rw [Bool.not_not] at h₁
    refine Follows.bind (hl.jump h₁ hst₀ (hlead₂.before hgrown₂ hdecl₂) (hS.labelTable_add hlead)
      hag) ?_
    rintro a - - ⟨t₁, rfl, rfl, hq₁⟩
    by_cases hdone : (a != 0) = isOr
    · rw [if_pos hdone, if_pos hdone]
      refine ⟨_, t₁, rfl, .of_ok rfl (hlead.reach_label t₁) ⟨t₁, ?_, rfl, hq₁⟩⟩
      rw [truth_ofBool, if_neg (by cases isOr <;> decide)]
    · rw [if_neg hdone, if_neg hdone]
      refine ⟨_, t₁, rfl, Follows.bind (hr.jump h₂ (hst₀.grown hgrown₁) hlead₂ hj
        (hag.quiet hq₁)) ?_⟩
      rintro b - - ⟨t₂, rfl, rfl, hq₂⟩
      have hq := hq₁.trans hq₂ hgrown₁.size_temps
      by_cases hjump : (b != 0) = !isOr
      · rw [if_pos hjump]
        refine ⟨_, t₂, rfl, .of_ok rfl (.refl _ _) ⟨t₂, ?_, rfl, hq⟩⟩
        rw [truth_ofBool, if_pos hjump]
      · rw [if_neg hjump]
        refine ⟨_, t₂, rfl, .of_ok rfl (hlead.reach_label t₂) ⟨t₂, ?_, rfl, hq⟩⟩
        rw [truth_ofBool, if_neg hjump]
  · -- either operand can jump
    obtain ⟨hgrown₁, -⟩ := hl.codeOnly.jump _ _ h₁
    obtain ⟨hgrown₂, hdecl₂⟩ := hr.codeOnly.jump _ _ h₂
    refine Follows.bind (hl.jump h₁ hst (hlead.before hgrown₂ hdecl₂) hj hag) ?_
    rintro a - - ⟨t₁, rfl, rfl, hq₁⟩
    by_cases hdone : (a != 0) = isOr
    · rw [if_pos hdone, if_pos hdone]
      refine ⟨_, t₁, rfl, .of_ok rfl (.refl _ _) ⟨t₁, ?_, rfl, hq₁⟩⟩
      rw [truth_ofBool, if_pos rfl]
    · rw [if_neg hdone, if_neg hdone]
      refine ⟨_, t₁, rfl, Follows.bind (hr.jump h₂ (hst.grown hgrown₁) hlead hj
        (hag.quiet hq₁)) ?_⟩
      rintro b - - ⟨t₂, rfl, rfl, hq₂⟩
      refine ⟨_, t₂, rfl, .of_ok rfl (.refl _ _) ⟨t₂, ?_, rfl, hq₁.trans hq₂ hgrown₁.size_temps⟩⟩
      rw [truth_ofBool]

/-- The value of a logical operator: the short result is stored first, and replaced when neither
operand jumped over that. -/
theorem computes_logical (hS : S.Sound) (isOr : Bool) {l r : Coded} {x y : Eval Word}
    (hl : S.Renders n frozen loc l x) (hr : S.Renders n frozen loc r y) :
    S.Computes n frozen loc (logicalValue isOr l r) (Meaning.logical isOr x y) := by
  intro st v st' h hst hlead s hag
  obtain ⟨st₁, st₂, rfl, h₁, h₂, rfl⟩ := logicalValue_inv h
  obtain ⟨hgrown₁, hdecl₁⟩ := hl.codeOnly.jump _ _ h₁
  obtain ⟨hgrown₂, hdecl₂⟩ := hr.codeOnly.jump _ _ h₂
  have hlead₂ : S.Leads st₂ := hlead.of_add.of_add
  have hlead₁ : S.Leads st₁ := hlead₂.before hgrown₂ hdecl₂
  have hdone := hS.labelTable_add hlead
  -- The result is preset, the operands jump, and the other result is stored if they do not.
  have hlead₀ : S.Leads (st.define fun t => .move t (.const (if isOr then 1 else 0))) := by
    have hbefore := hlead₁.before hgrown₁ hdecl₁
    exact ⟨hbefore.stmts, hbefore.vars, hbefore.scope, hbefore.temps⟩
  have hst₀ : S.Starts (st.define fun t => .move t (.const (if isOr then 1 else 0))).drawLabel :=
    .drawLabel (hst.grown (Grown.define st fun _ => rfl))
  have hshort : word (if isOr then 1 else 0) = Word.ofBool isOr := by cases isOr <;> rfl
  have hrest : word (if isOr then 0 else 1) = Word.ofBool (!isOr) := by cases isOr <;> rfl
  obtain ⟨s₀, hreach₀, hw₀, hq₀, hv₀⟩ := hlead₀.reach_define frozen hS hst
    (Run.exec_move (s := s) (Run.State.eval_const _))
  rw [hshort] at hv₀
  have hle₀ : st.temps.size ≤
      (st.define fun t => .move t (.const (if isOr then 1 else 0))).temps.size := by
    rw [State.define, Array.size_push]
    exact Nat.le_succ _
  have hle := Nat.le_trans hgrown₁.size_temps hgrown₂.size_temps
  rw [← hw₀]
  refine Follows.fewer (Follows.after hreach₀ ?_) (Nat.le_add_left n 1)
  refine Follows.bind (hl.jump h₁ hst₀ hlead₁ hdone (hag.quiet hq₀)) ?_
  rintro a - - ⟨t₁, rfl, rfl, hq₁⟩
  have hv₁ := hv₀.quiet hS hq₁
  have hqs₁ := hq₀.trans hq₁ hle₀
  -- The first operand decides, and the preset result stands.
  by_cases hfirst : (a != 0) = isOr
  · rw [if_pos hfirst, if_pos hfirst]
    exact ⟨_, t₁, rfl, .of_ok rfl (hlead.reach_label t₁) ⟨t₁, rfl, rfl, hqs₁, hv₁.mono hle⟩⟩
  · rw [if_neg hfirst, if_neg hfirst]
    refine ⟨_, t₁, rfl, Follows.bind (hr.jump h₂ (hst₀.grown hgrown₁) hlead₂ hdone
      (hag.quiet hqs₁)) ?_⟩
    rintro b - - ⟨t₂, rfl, rfl, hq₂⟩
    have hv₂ := (hv₁.mono hgrown₁.size_temps).quiet hS hq₂
    have hqs₂ := hqs₁.trans hq₂ (Nat.le_trans hle₀ hgrown₁.size_temps)
    by_cases hsecond : (b != 0) = isOr
    · rw [if_pos hsecond, hsecond]
      exact ⟨_, t₂, rfl, .of_ok rfl (hlead.reach_label t₂)
        ⟨t₂, rfl, rfl, hqs₂, hv₂.mono hgrown₂.size_temps⟩⟩
    · -- neither operand decided, so the other result is stored
      have hother : (b != 0) = !isOr := by
        cases hb : b != 0 <;> cases isOr <;> simp_all
      rw [if_neg hsecond, hother]
      have hmove := hlead.of_add.reach (s := t₂)
        (Run.exec_move (d := .temp st.counters.temps) (Run.State.eval_const _))
      refine ⟨_, t₂, rfl, .of_ok rfl (hmove.trans (hlead.reach_label _))
        ⟨t₂.setTemp st.counters.temps (word (if isOr then 0 else 1)), rfl, rfl, ?_, ?_, ?_⟩⟩
      · rw [show st.counters.temps = _ from hst]
        have hlt : st.temps.size < S.fin.temps.size := by
          have := hlead₀.temps
          rw [State.define, Array.size_push] at this
          omega
        exact hqs₂.trans (.setTemp hS (Nat.le_refl _) hlt _ t₂) (Nat.le_refl _)
      · rw [Run.State.eval_temp, Run.State.temp_setTemp_self, hrest]
      · exact (hv₂.mono hgrown₂.size_temps).2

/-! ## Constants -/

/-- An expression that folds is its own operand and decides its jumps. -/
theorem renders_guardConst {e : Expr} (hS : S.Sound) (he : Meaning.Fits e) {g : Gen Val}
    {jump : Int → Bool → Gen Unit}
    (hcode : CodeOnly S.env.decls (guardConst (e.fold S.env.decls) g jump))
    (hg : e.fold S.env.decls = .ok none →
      S.Computes n frozen loc g (Meaning.expr S.C loc frozen e))
    (hjump : e.fold S.env.decls = .ok none →
      S.Decides n frozen loc jump (Meaning.expr S.C loc frozen e)) :
    S.Renders n frozen loc (guardConst (e.fold S.env.decls) g jump)
      (Meaning.expr S.C loc frozen e) := by
  have hgives : ∀ {c}, e.fold S.env.decls = .ok (some c) → ∀ w,
      Meaning.Gives (Meaning.expr S.C loc frozen e) (word c) w := by
    intro c hc w
    rw [← hS.decls] at hc
    exact Meaning.expr_of_fold (hS.decls ▸ hS.fits) loc frozen w e he c hc
  refine ⟨hcode, ?_, ?_⟩
  · intro st v st' h hst hlead s hag
    obtain ⟨o, s₀, hfold, hrest⟩ := bind_eq_ok h
    obtain ⟨hc, rfl⟩ := folded_inv hfold
    -- What does not fold is up to the two assumptions.
    cases o with
    | none => exact hg hc hrest hst hlead hag
    | some c =>
      obtain ⟨rfl, rfl⟩ := pure_inv hrest
      refine Follows.imp (follows_gives (hgives hc s.world)) ?_
      rintro a - - ⟨rfl, rfl, rfl⟩
      exact ⟨s, rfl, rfl, .refl s, holds_const c s⟩
  · intro label want st st' h hst hlead j hj s hag
    obtain ⟨o, s₀, hfold, hrest⟩ := bind_eq_ok h
    obtain ⟨hc, rfl⟩ := folded_inv hfold
    cases o with
    | none => exact hjump hc hrest hst hlead hj hag
    | some c =>
      refine Follows.extend (follows_gives (hgives hc s.world)) ?_
      rintro a - - ⟨rfl, rfl, rfl⟩
      have htruth : (word c != 0) = decide (c ≠ 0) := by
        have hzero := Meaning.word_eq_zero (Meaning.small_fold hS.fits he hc)
        rw [bne, Bool.eq_iff_iff, Bool.not_eq_true', beq_eq_false_iff_ne, decide_eq_true_eq, ne_eq,
          hzero]
      rw [htruth]
      dsimp only at hrest
      -- A test whose outcome is known is a jump or nothing.
      split at hrest
      · next hwant =>
        obtain rfl := emit_inv hrest
        refine ⟨_, s, _, rfl, (hlead.reach_goto rfl hj).eventually, s, ?_, rfl, .refl s⟩
        rw [if_pos (beq_iff_eq.1 hwant)]
      · next hwant =>
        obtain ⟨-, rfl⟩ := pure_inv hrest
        refine ⟨_, s, _, rfl, .refl _ _, s, ?_, rfl, .refl s⟩
        rw [if_neg fun heq => hwant (beq_iff_eq.2 heq)]

end Tac.Tree.Generate.Scene
