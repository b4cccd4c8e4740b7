import Mathlib
import Tac.Proofs.Operators

/-!
# Expressions

The code of an expression computes its value, and the jump on an expression is taken exactly when its
truth is as wanted.  The same calls are made, in the same order and with the same arguments.

The address of an element is a base and a constant offset; together they are the address that the
indexes select.

* **`Scene.follows_address`, `Scene.follows_call`** — what the code of an address and of a call does.
* **`Scene.renders_expr`** — every expression is compiled to what its evaluation does.
-/

namespace Tac.Tree.Generate.Scene

open Run (Reach Status World Place)
open Meaning (Eval Locals)

variable {S : Scene} {n : Nat} {frozen : List DeclId} {loc : Locals}

/-! ## Arrays -/

/-- The lower 32 bits of a product are the product of the lower 32 bits. -/
theorem word_mul (a b : Int) : word (a * b) = word a * word b := Int32.ofInt_mul a b

/-- The sum of the computed indexes so far. -/
def Sums (S : Scene) (frozen : List DeclId) (k : Nat) (dyn : Option Val) (x : Word)
    (s : Run.State Unit) : Prop :=
  match dyn with
  | none => x = 0
  | some v => S.Holds frozen k v x s

/-- The sum may rest on fewer temporaries than are allowed. -/
theorem Sums.mono {k k' : Nat} {dyn : Option Val} {x : Word} {s : Run.State Unit}
    (h : S.Sums frozen k dyn x s) (hk : k ≤ k') : S.Sums frozen k' dyn x s := by
  cases dyn with
  | none => exact h
  | some v => exact Holds.mono h hk

/-- Code that is quiet leaves the sum as it is. -/
theorem Sums.quiet (hS : S.Sound) {k : Nat} {dyn : Option Val} {x : Word} {s t : Run.State Unit}
    (h : S.Sums frozen k dyn x s) (hq : S.Quiet frozen k s t) : S.Sums frozen k dyn x t := by
  cases dyn with
  | none => exact h
  | some v => exact Holds.quiet hS h hq

/-- The constant of an expression is what folding finds. -/
theorem const_expr (env : Env) (e : Expr) : (expr env e).const = e.fold env.decls := by
  cases e with
  | binary op l r => cases op <;> rfl
  | absent | num | lval | call | unary => rfl

/-- An index is added to the constant offset, or its multiple to the computed sum. -/
theorem indexes_inv {env : Env} {name : String} {pos : Pos} {d : Decl} {i : Nat} {off : Int}
    {dyn : Option Val} {x : Coded} {xs : List Coded} {st st' : State} {r : Int × Option Val}
    (h : indexes env name pos d i off dyn (x :: xs) st = .ok (r, st')) :
    let stride := wrap64 (4 * d.stride i)
    (∃ c, x.const = .ok (some c) ∧
      indexes env name pos d (i + 1) (wrap64 (off + c * stride)) dyn xs st = .ok (r, st')) ∨
    ∃ v st₁ p st₂ u st₃, x.value st = .ok (v, st₁) ∧
      binaryTemp v .mul (.const stride) st₁ = .ok (p, st₂) ∧
      ((dyn = none ∧ u = p ∧ st₃ = st₂) ∨
        ∃ a, dyn = some a ∧ binaryTemp a .add p st₂ = .ok (u, st₃)) ∧
      indexes env name pos d (i + 1) off (some u) xs st₃ = .ok (r, st') := by
  obtain ⟨o, s₀, hfold, hrest⟩ := bind_eq_ok h
  obtain ⟨hc, rfl⟩ := folded_inv hfold
  -- A constant index goes into the offset; any other becomes part of the sum, and its code is
  -- emitted.
  cases o with
  | some c =>
    dsimp only at hrest
    split at hrest
    · exact (refuse_inv hrest).elim
    · exact Or.inl ⟨c, hc, hrest⟩
  | none =>
    obtain ⟨v, st₁, hv, hrest⟩ := bind_eq_ok hrest
    obtain ⟨p, st₂, hp, hrest⟩ := bind_eq_ok hrest
    -- The first dynamic index starts the sum, later ones are added to it.
    cases dyn with
    | none => exact Or.inr ⟨v, st₁, p, st₂, p, st₂, hv, hp, Or.inl ⟨rfl, rfl, rfl⟩, hrest⟩
    | some a =>
      obtain ⟨u, st₃, hu, hrest⟩ := bind_eq_ok hrest
      exact Or.inr ⟨v, st₁, p, st₂, u, st₃, hv, hp, Or.inr ⟨a, rfl, hu⟩, hrest⟩

/-- The multiple of an index that was computed is added to the sum. -/
theorem reach_sum (hS : S.Sound) {st st₁ st₂ : State} {v p u : Val} {dyn : Option Val} {stride : Int}
    (hmul : binaryTemp v .mul (.const stride) st = .ok (p, st₁))
    (hsum : (dyn = none ∧ u = p ∧ st₂ = st₁) ∨
      ∃ a, dyn = some a ∧ binaryTemp a .add p st₁ = .ok (u, st₂))
    (hst : S.Starts st) (hlead : S.Leads st₂) {s : Run.State Unit} {x a : Word}
    (hx : S.Holds frozen st.temps.size v x s) (ha : S.Sums frozen st.temps.size dyn a s) :
    ∃ t, Reach S.X S.code 0 st.stmts.size s (.running st₂.stmts.size t) ∧ t.world = s.world ∧
      S.Quiet frozen st.temps.size s t ∧
      S.Holds frozen st₂.temps.size u (a + x * word stride) t := by
  have hadds : Adds S.env.decls [] (binaryTemp v .mul (.const stride)) := adds_binaryTemp ..
  rcases hsum with ⟨rfl, rfl, rfl⟩ | ⟨b, rfl, hadd⟩
  -- The first dynamic index: nothing has been summed up yet, so `a` is zero.
  · obtain ⟨t, hreach, hw, hq, hp⟩ := reach_binaryTemp frozen hS hmul hst hlead hx.1
      (Run.State.eval_const stride) rfl
    refine ⟨t, hreach.eventually, hw, hq, ?_⟩
    rw [show a = 0 from ha, Int32.zero_add]
    exact hp
  -- A later one: its product is added to the sum, which the multiplication left alone.
  · have hlead₁ := hlead.of_adds (adds_binaryTemp b .add p) hadd
    obtain ⟨t, hreach, hw, hq, hp⟩ := reach_binaryTemp frozen hS hmul hst hlead₁ hx.1
      (Run.State.eval_const stride) rfl
    obtain ⟨t', hreach', hw', hq', hu⟩ := reach_binaryTemp frozen hS hadd
      (hst.of_adds hadds hmul) hlead (Holds.quiet hS ha hq).1 hp.1 rfl
    exact ⟨t', (hreach.trans hreach').eventually, hw'.trans hw,
      hq.trans hq' (hadds hmul).1.size_temps, hu⟩

/-- Adding one index to the sum adds its statements and declares nothing. -/
theorem grown_sum (decls : Decls) {st st₁ st₂ : State} {v p u : Val} {dyn : Option Val}
    {stride : Int} (hmul : binaryTemp v .mul (.const stride) st = .ok (p, st₁))
    (hsum : (dyn = none ∧ u = p ∧ st₂ = st₁) ∨
      ∃ a, dyn = some a ∧ binaryTemp a .add p st₁ = .ok (u, st₂)) :
    Grown [] st st₂ ∧ Declared decls [] st st₂ := by
  have hadds : Grown [] st st₁ ∧ Declared decls [] st st₁ := adds_binaryTemp _ _ _ hmul
  rcases hsum with ⟨rfl, rfl, rfl⟩ | ⟨b, rfl, hadd⟩
  · exact hadds
  · have hadds' : Grown [] st₁ st₂ ∧ Declared decls [] st₁ st₂ := adds_binaryTemp _ _ _ hadd
    exact ⟨hadds.1.trans hadds'.1, hadds.2.trans hadds'.2⟩

/-- The indexes give the constant offset and the computed sum. -/
theorem follows_indexes (hS : S.Sound) {name : String} {pos : Pos} {d : Decl} {es : List Expr}
    (hfits : Meaning.FitAll es) (hes : ∀ e ∈ es, S.Rendered n frozen loc e) {i : Nat} {off : Int}
    {dyn : Option Val} {st st' : State} {r : Int × Option Val}
    (h : indexes S.env name pos d i off dyn (exprs S.env es) st = .ok (r, st')) (hst : S.Starts st)
    (hlead : S.Leads st') {s : Run.State Unit} (hag : S.Agrees loc s) {x : Word}
    (hx : S.Sums frozen st.temps.size dyn x s) :
    S.Follows n st.stmts.size s (Meaning.exprs S.C loc frozen es s.world) fun ws w status =>
      ∃ t y, status = .running st'.stmts.size t ∧ t.world = w ∧ S.Quiet frozen st.temps.size s t ∧
        S.Sums frozen st'.temps.size r.2 y t ∧
        word r.1 + y = word off + x + Meaning.offset d i ws := by
  -- On the indexes, with the offset and the sum gathered so far.
  induction es generalizing i off dyn st s x with
  | nil =>
    obtain ⟨rfl, rfl⟩ := pure_inv h
    refine .of_ok rfl (.refl _ _) ⟨s, x, rfl, rfl, .refl s, hx, ?_⟩
    rw [Meaning.offset, Int32.add_zero]
  | cons e es ih =>
    rw [List.forall_mem_cons] at hes
    obtain ⟨he, hes⟩ := hes
    rw [exprs] at h
    rw [Meaning.exprs]
    have hcode : ∀ x ∈ exprs S.env es, CodeOnly S.env.decls x :=
      codeOnly_exprs fun e he => (hes e he).codeOnly
    rcases indexes_inv h with ⟨c, hc, hrest⟩ | ⟨v, st₁, p, st₂, u, st₃, hv, hp, hu, hrest⟩
    -- A constant index emits nothing, so the state is where it was.
    · rw [const_expr, ← hS.decls] at hc
      have hgives := Meaning.expr_of_fold (hS.decls ▸ hS.fits) loc frozen s.world e hfits.1 c hc
      refine Follows.bind (follows_gives hgives) ?_
      rintro a - - ⟨rfl, rfl, rfl⟩
      refine ⟨_, s, rfl, Follows.bind (ih hfits.2 hes hrest hst hag hx) ?_⟩
      rintro ws - - ⟨t, y, rfl, rfl, hq, hy, hsum⟩
      refine ⟨_, t, rfl, .of_ok rfl (.refl _ _) ⟨t, y, rfl, rfl, hq, hy, ?_⟩⟩
      rw [hsum, Meaning.offset, word_wrap64, word_add, word_mul, word_wrap64]
      ac_rfl
    -- A dynamic index: its value, its product with the stride, and the sum, in that order.
    · have hlead₃ := hlead.of_adds (adds_indexes name pos d hcode (i + 1) off (some u)) hrest
      obtain ⟨hgrown, hdecl⟩ := grown_sum S.env.decls hp hu
      have hst₁ := hst.of_adds he.codeOnly.value hv
      have hle₁ := (he.codeOnly.value hv).1.size_temps
      refine Follows.bind (he.value hv hst (hlead₃.before hgrown hdecl) hag) ?_
      rintro a - - ⟨t₁, rfl, rfl, hq₁, ha⟩
      obtain ⟨t₂, hreach, hw, hq₂, hu'⟩ := reach_sum hS hp hu hst₁ hlead₃ ha
        ((hx.quiet hS hq₁).mono hle₁)
      have hq := hq₁.trans hq₂ hle₁
      have hle := Nat.le_trans hle₁ hgrown.size_temps
      rw [← hw]
      refine ⟨_, t₁, rfl, (Follows.after hreach ?_).fewer (Nat.le_add_left _ _)⟩
      refine Follows.bind (ih hfits.2 hes hrest (hst₁.grown hgrown) (hag.quiet hq) hu') ?_
      rintro ws - - ⟨t, y, rfl, rfl, hq', hy, hsum⟩
      refine ⟨_, t, rfl, .of_ok rfl (.refl _ _) ⟨t, y, rfl, rfl, hq.trans hq' hle, hy, ?_⟩⟩
      rw [hsum, Meaning.offset, word_wrap64]
      ac_rfl

/-- An address is its indexes, added to the array if one of them is dynamic. -/
theorem address_inv {env : Env} {id : VarId} {pos : Pos} {d : Decl} {xs : List Coded}
    {st st' : State} {base : Val} {off : Int}
    (h : address env id pos d xs st = .ok ((base, off), st')) :
    ∃ dyn st₁, indexes env d.name pos d 0 0 none xs st = .ok ((off, dyn), st₁) ∧
      ((dyn = none ∧ base = .var id ∧ st' = st₁) ∨
        ∃ v, dyn = some v ∧ binaryTemp (.var id) .add v st₁ = .ok (base, st')) := by
  obtain ⟨⟨off', dyn⟩, st₁, hindex, hrest⟩ := bind_eq_ok h
  -- Without a dynamic index the array itself is the base.
  cases dyn with
  | none =>
    obtain ⟨heq, rfl⟩ := pure_inv hrest
    cases heq
    exact ⟨none, st', hindex, Or.inl ⟨rfl, rfl, rfl⟩⟩
  | some v =>
    obtain ⟨b, st₂, hb, hrest⟩ := bind_eq_ok hrest
    obtain ⟨heq, rfl⟩ := pure_inv hrest
    cases heq
    exact ⟨some v, st₁, hindex, Or.inr ⟨v, rfl, hb⟩⟩

/-- An array is not kept in memory like a scalar. -/
theorem place_ne_memory {C : Meaning.Context} {d : DeclId} (h : (C.decls.at d).isArray = true) :
    C.place d ≠ .memory := by
  unfold Meaning.Context.place
  rw [h]
  split <;> [skip; split] <;> nofun

/-- The start of an array is the address of its variable or, for a parameter, its value. -/
theorem holds_base (hS : S.Sound) {d : DeclId} {id : VarId} (hlook : S.look d = some id)
    (harray : (S.C.decls.at d).isArray = true) {s : Run.State Unit} (hag : S.Agrees loc s) {b : Word}
    (hb : S.C.base loc d = some b) (k : Nat) :
    S.Holds frozen k (.var id) b s := by
  obtain ⟨hplace, haddr⟩ := hS.place hlook
  unfold Meaning.Context.base at hb
  refine ⟨?_, d, hlook, fun hmem => absurd hmem (place_ne_memory harray)⟩
  -- An array that is a parameter is held; its value is the address.
  cases hp : S.C.place d with
  | memory => exact absurd hp (place_ne_memory harray)
  | held =>
    rw [hp] at hplace hb
    rw [Run.State.eval_held hplace, hag hlook hp hb]
  | array =>
    rw [hp] at hplace hb
    rw [Run.State.eval_array hplace, haddr]
    exact hb

/-- The code of an address gives a base; the rest of the address is the constant offset. -/
theorem follows_address (hS : S.Sound) {d : DeclId} {id : VarId} (hlook : S.look d = some id)
    (harray : (S.C.decls.at d).isArray = true) {es : List Expr} (hfits : Meaning.FitAll es)
    (hes : ∀ e ∈ es, S.Rendered n frozen loc e) {pos : Pos} {st st' : State} {base : Val} {off : Int}
    (h : address S.env id pos (S.env.decls.at d) (exprs S.env es) st = .ok ((base, off), st'))
    (hst : S.Starts st) (hlead : S.Leads st') {s : Run.State Unit} (hag : S.Agrees loc s) :
    S.Follows n st.stmts.size s
      (Meaning.address S.C loc d (Meaning.exprs S.C loc frozen es) s.world) fun a w status =>
      ∃ b, S.Arrives frozen st st' base s b w status ∧ b + word off = a := by
  obtain ⟨dyn, st₁, hindex, hbase⟩ := address_inv h
  have hadds : Adds S.env.decls [] (indexes S.env (S.env.decls.at d).name pos (S.env.decls.at d) 0 0
      none (exprs S.env es)) :=
    adds_indexes _ _ _ (codeOnly_exprs fun e he => (hes e he).codeOnly) _ _ _
  have hlead₁ : S.Leads st₁ := by
    rcases hbase with ⟨-, -, rfl⟩ | ⟨v, -, hsum⟩
    · exact hlead
    · exact hlead.of_adds (adds_binaryTemp _ _ _) hsum
  refine Follows.bind (follows_indexes hS hfits hes hindex hst hlead₁ hag rfl) ?_
  rintro ws - - ⟨t, y, rfl, rfl, hq, hy, hsum⟩
  refine ⟨_, t, rfl, ?_⟩
  rw [hS.decls]
  split
  -- Too many indexes, or an array whose address is not known, have no meaning.
  · exact follows_fault
  cases hb : S.C.base loc d with
  | none => exact follows_fault
  | some b =>
    have hvar : S.Holds frozen st₁.temps.size (.var id) b t :=
      holds_base hS hlook harray (hag.quiet hq) hb _
    have hoff : word off + y = Meaning.offset (S.env.decls.at d) 0 ws := by
      rw [hsum]
      simp [word]
    -- The sum is added to the base, or there is none.
    rcases hbase with ⟨rfl, rfl, rfl⟩ | ⟨v, rfl, hadd⟩
    · refine .of_ok rfl (.refl _ _) ⟨b, ⟨t, rfl, rfl, hq, hvar⟩, ?_⟩
      rw [← hoff, show y = 0 from hy, Int32.add_zero]
    · obtain ⟨u, hreach, hw, hq', hv⟩ := reach_binaryTemp frozen hS hadd
        (hst.of_adds hadds hindex) hlead hvar.1 (And.left hy) rfl
      refine .of_ok rfl hreach ⟨b + y, ⟨u, rfl, hw, hq.trans hq' (hadds hindex).1.size_temps, hv⟩, ?_⟩
      rw [← hoff]
      ac_rfl

/-! ## Variables and elements -/

/-- A variable is its own operand; an element is loaded, a part of an array is its address. -/
theorem lvalValue_inv {env : Env} {d : DeclId} {pos : Pos} {xs : List Coded} {v : Val}
    {st st' : State} (h : lvalValue env d pos xs st = .ok (v, st')) :
    ∃ id, lookup env d pos st = .ok (id, st) ∧
      (((env.decls.at d).isArray = false ∧ v = .var id ∧ st' = st) ∨
        (env.decls.at d).isArray = true ∧ ∃ base off st₁,
          address env id pos (env.decls.at d) xs st = .ok ((base, off), st₁) ∧
          (xs.length < (env.decls.at d).dims.length ∧
              (off = 0 ∧ v = base ∧ st' = st₁ ∨
                binaryTemp base .add (.const off) st₁ = .ok (v, st')) ∨
            ¬ xs.length < (env.decls.at d).dims.length ∧ v = .temp st₁.counters.temps ∧
              st' = st₁.define fun t => .load t base off)) := by
  obtain ⟨id, st₀, hid, hrest⟩ := bind_eq_ok h
  obtain ⟨rfl, -⟩ := lookup_inv hid
  refine ⟨id, hid, ?_⟩
  -- A scalar is its own value; for an array it depends on the number of indexes whether an
  -- address or an element is meant.
  cases harray : (env.decls.at d).isArray with
  | false =>
    simp only [harray, Bool.not_false, if_true] at hrest
    obtain ⟨rfl, rfl⟩ := pure_inv hrest
    exact Or.inl ⟨rfl, rfl, rfl⟩
  | true =>
    simp only [harray, Bool.not_true, Bool.false_eq_true, if_false] at hrest
    split at hrest
    · exact (refuse_inv hrest).elim
    obtain ⟨⟨base, off⟩, st₁, haddr, hrest⟩ := bind_eq_ok hrest
    refine Or.inr ⟨rfl, base, off, st₁, haddr, ?_⟩
    dsimp only at hrest
    split at hrest
    · next hlen =>
      refine Or.inl ⟨hlen, ?_⟩
      split at hrest
      · next hoff =>
        obtain ⟨rfl, rfl⟩ := pure_inv hrest
        exact Or.inl ⟨hoff, rfl, rfl⟩
      · exact Or.inr hrest
    · next hlen =>
      cases hrest
      exact Or.inr ⟨hlen, rfl, rfl⟩

/-- A scalar is not an array. -/
theorem place_ne_array {C : Meaning.Context} {d : DeclId} (h : (C.decls.at d).isArray = false) :
    C.place d ≠ .array := by
  unfold Meaning.Context.place
  rw [h]
  split <;> [skip; split] <;> nofun

/-- A word that can be read is read. -/
theorem follows_fetch {s : Run.State Unit} {i : Nat} {a : Word}
    {Q : Word → World Unit → Status Unit → Prop}
    (h : ∀ x, s.world.load S.C.host a = some x →
      ∃ status, Reach S.X S.code 0 i s status ∧ Q x s.world status) :
    S.Follows n i s (Meaning.fetch S.C a s.world) Q := by
  have hfetch : Meaning.fetch S.C a s.world =
      Meaning.the (s.world.load S.C.host a) s.world := rfl
  rw [hfetch]
  cases hx : s.world.load S.C.host a with
  | none => exact follows_fault
  | some x => exact h x hx

/-- A scalar is read where it is. -/
theorem follows_scalar (hS : S.Sound) {d : DeclId} {id : VarId} (hlook : S.look d = some id)
    (hscalar : (S.C.decls.at d).isArray = false) (hd : d ∈ frozen) {s : Run.State Unit}
    (hag : S.Agrees loc s) (count : Nat) (index : Eval (List Word)) (st : State) :
    S.Follows n st.stmts.size s (Meaning.lval S.C loc d count index s.world)
      (S.Arrives frozen st st (.var id) s) := by
  obtain ⟨hplace, haddr⟩ := hS.place hlook
  unfold Meaning.lval
  rw [hscalar]
  -- A scalar that is held may not have been assigned, one in memory may not be there.
  cases hp : S.C.place d with
  | held =>
    rw [hp] at hplace
    cases hx : loc d with
    | none => exact follows_fault
    | some x =>
      refine .of_ok rfl (.refl _ s) ⟨s, rfl, rfl, .refl s, ?_, d, hlook, fun _ => hd⟩
      rw [Run.State.eval_held hplace, hag hlook hp hx]
  | memory =>
    rw [hp] at hplace
    refine follows_fetch fun x hx =>
      ⟨_, .refl _ s, s, rfl, rfl, .refl s, ?_, d, hlook, fun _ => hd⟩
    rw [Run.State.eval_memory hplace, haddr, hS.host, hx]
  | array => exact absurd hp (place_ne_array hscalar)

/-- The code of a place computes what the place means. -/
theorem computes_lval (hS : S.Sound) {d : DeclId} (hd : d ∈ frozen) {es : List Expr}
    (hfits : Meaning.FitAll es) (hes : ∀ e ∈ es, S.Rendered n frozen loc e) (pos : Pos) :
    S.Computes n frozen loc (lvalValue S.env d pos (exprs S.env es))
      (Meaning.lval S.C loc d es.length (Meaning.exprs S.C loc frozen es)) := by
  intro st v st' h hst hlead s hag
  have hcode : ∀ x ∈ exprs S.env es, CodeOnly S.env.decls x :=
    codeOnly_exprs fun e he => (hes e he).codeOnly
  have hlen : (exprs S.env es).length = es.length := by rw [exprs_eq_map, List.length_map]
  obtain ⟨id, hid, hcases⟩ := lvalValue_inv h
  rw [← hS.decls, hlen] at hcases
  rcases hcases with ⟨hscalar, rfl, rfl⟩ | ⟨harray, base, off, st₁, haddr, hcases⟩
  · exact follows_scalar hS (hlead.look hS hid) hscalar hd hag _ _ _
  have hadds : Adds S.env.decls [] (address S.env id pos (S.env.decls.at d) (exprs S.env es)) :=
    adds_address _ _ _ hcode
  rw [hS.decls] at haddr
  -- The address comes first, so what follows it has to be peeled off the code.
  have hlead₁ : S.Leads st₁ := by
    rcases hcases with ⟨-, ⟨-, rfl, rfl⟩ | htemp⟩ | ⟨-, rfl, rfl⟩
    · exact hlead
    · exact hlead.of_adds (adds_binaryTemp _ _ _) htemp
    · exact hlead.of_define.of_add
  have hle := (hadds haddr).1.size_temps
  unfold Meaning.lval
  rw [harray]
  refine Follows.bind (follows_address hS ((hlead₁.of_adds hadds haddr).look hS hid) harray hfits hes
    haddr hst hlead₁ hag) ?_
  rintro a - - ⟨b, ⟨t, rfl, rfl, hq, hb⟩, rfl⟩
  refine ⟨_, t, rfl, ?_⟩
  rcases hcases with ⟨hshort, ⟨rfl, rfl, rfl⟩ | htemp⟩ | ⟨hall, rfl, rfl⟩
  -- Fewer indexes than dimensions mean the address of a part of the array.
  · rw [if_pos hshort]
    refine .of_ok rfl (.refl _ _) ⟨t, rfl, rfl, hq, ?_⟩
    rwa [show word 0 = 0 from rfl, Int32.add_zero]
  · rw [if_pos hshort]
    obtain ⟨u, hreach, hw, hq', hv⟩ := reach_binaryTemp frozen hS htemp (hst.of_adds hadds haddr)
      hlead hb.1 (Run.State.eval_const off) rfl
    exact .of_ok rfl hreach ⟨u, rfl, hw, hq.trans hq' hle, hv⟩
  -- All indexes are there, so the element is loaded into a temporary.
  · rw [if_neg hall]
    refine follows_fetch fun x hx => ?_
    have hexec : Run.exec S.X t (.load (.temp st₁.counters.temps) base off) =
        Run.deliver S.X (.temp st₁.counters.temps) (.value x t) :=
      Run.exec_load hb.1 (by rw [hS.host, hx])
    obtain ⟨u, hreach, hw, hq', hv⟩ := hlead.reach_define frozen hS (hst.of_adds hadds haddr) hexec
    exact ⟨_, hreach.eventually, u, rfl, hw, hq.trans hq' hle, hv⟩

/-- An element that does not fold is not constant. -/
theorem lval_of_fold (hS : S.Sound) {d : DeclId} {index : List Expr} {pos : Pos}
    (he : Meaning.Fits (.lval d index pos)) (h : (Expr.lval d index pos).fold S.env.decls = .ok none) :
    Meaning.expr S.C loc frozen (.lval d index pos) = (throw .fault : Eval Word) ∨
      Meaning.expr S.C loc frozen (.lval d index pos) =
        Meaning.lval S.C loc d index.length (Meaning.exprs S.C loc frozen index) := by
  have hfolds := Meaning.folds_constant hS.fits he
  rw [h] at hfolds
  rw [Meaning.expr, hS.decls]
  cases hk : Meaning.constant S.env.decls (.lval d index pos) with
  | error e => exact Or.inl rfl
  | ok o =>
    rw [hk] at hfolds
    -- What does not fold varies, so it is read where it lies.
    cases hfolds with
    | varying => exact Or.inr rfl

/-! ## Calls -/

/-- Operands that have values each have values together. -/
theorem mapM_eval {X : Run.Setting Unit} {s : Run.State Unit} {vs : List Val} {xs : List Word}
    (h : List.Forall₂ (fun v x => s.eval X v = some x) vs xs) : vs.mapM (s.eval X) = some xs := by
  induction h with
  | nil => rfl
  | cons hv _ ih =>
    rw [List.mapM_cons, hv, ih]
    rfl

/-- Arguments are computed in order and keep their values. -/
theorem follows_values (hS : S.Sound) {es : List Expr}
    (hes : ∀ e ∈ es, S.Rendered n frozen loc e) {st st' : State} {vs : List Val}
    (h : values (exprs S.env es) st = .ok (vs, st')) (hst : S.Starts st) (hlead : S.Leads st')
    {s : Run.State Unit} (hag : S.Agrees loc s) :
    S.Follows n st.stmts.size s (Meaning.exprs S.C loc frozen es s.world) fun xs w status =>
      ∃ t, status = .running st'.stmts.size t ∧ t.world = w ∧ S.Quiet frozen st.temps.size s t ∧
        List.Forall₂ (fun v x => S.Holds frozen st'.temps.size v x t) vs xs := by
  -- On the expressions; the values before stay because later code is quiet.
  induction es generalizing st s vs with
  | nil =>
    obtain ⟨rfl, rfl⟩ := pure_inv h
    exact .of_ok rfl (.refl _ _) ⟨s, rfl, rfl, .refl s, .nil⟩
  | cons e es ih =>
    rw [List.forall_mem_cons] at hes
    obtain ⟨he, hes⟩ := hes
    obtain ⟨v, st₁, hv, hrest⟩ := bind_eq_ok h
    obtain ⟨us, st₂, hus, hrest⟩ := bind_eq_ok hrest
    obtain ⟨rfl, rfl⟩ := pure_inv hrest
    have hadds : Adds S.env.decls [] (values (exprs S.env es)) :=
      adds_values (codeOnly_exprs fun e he => (hes e he).codeOnly)
    have hle₁ := (he.codeOnly.value hv).1.size_temps
    have hle₂ := (hadds hus).1.size_temps
    refine Follows.bind (he.value hv hst (hlead.of_adds hadds hus) hag) ?_
    rintro x - - ⟨t₁, rfl, rfl, hq₁, hx⟩
    refine ⟨_, t₁, rfl, Follows.bind (ih hes hus (hst.of_adds he.codeOnly.value hv)
      (hag.quiet hq₁)) ?_⟩
    -- The first value was there before the code of the others ran, which is quiet.
    rintro xs - - ⟨t₂, rfl, rfl, hq₂, hxs⟩
    exact ⟨_, t₂, rfl, .of_ok rfl (.refl _ _) ⟨t₂, rfl, rfl, hq₁.trans hq₂ hle₁,
      .cons ((hx.quiet hS hq₂).mono hle₂) hxs⟩⟩

/-- A callee that keeps the scalars of the expression leaves alone all that an expression does. -/
theorem quiet_inWorld {s : Run.State Unit} {w : World Unit}
    (h : S.C.keeps frozen s.world w = true) (k : Nat) : S.Quiet frozen k s (s.inWorld w) := by
  refine ⟨rfl, fun _ _ => rfl, fun d hd hplace => ?_⟩
  have hkeep := List.all_eq_true.1 h d hd
  rw [hplace] at hkeep
  exact beq_iff_eq.1 hkeep

/-- A call statement enters the same callee with the same arguments. -/
theorem follows_enter (hS : S.Sound) {s : Run.State Unit} {name : String} {vs : List Val}
    {xs : List Word} (hvs : vs.mapM (s.eval S.X) = some xs) {i : Nat} {stm : Stmt}
    (hi : S.code[i]? = some stm)
    (hlost : ∀ trace, Run.callOut S.X s name vs = .ended trace .lost →
      Run.exec S.X s stm = .ended trace .lost)
    {Q : Word → World Unit → Status Unit → Prop}
    (hback : ∀ x w, Run.callOut S.X s name vs = .value x (s.inWorld w) →
      S.C.keeps frozen s.world w = true → ∃ status, Reach S.X S.code 0 i s status ∧ Q x w status) :
    S.Follows n i s (Meaning.enter S.C frozen name xs s.world) Q := by
  have hcall : Run.callOut S.X s name vs = _ := Run.callOut_eq hvs
  rw [hS.host] at hcall
  unfold Meaning.enter
  dsimp only
  -- The host may not come back, and then neither does the code.
  cases hreply : (s.world.enter name xs ()).back S.C.host with
  | none =>
    simp only [show s.seen S.X = () from rfl, hreply] at hcall
    refine (Reach.of_step hi ?_).eventually
    rw [hlost _ hcall]
    rfl
  | some p =>
    obtain ⟨x, w⟩ := p
    simp only [show s.seen S.X = () from rfl, hreply] at hcall
    dsimp only
    split
    -- A callee that changes what the expression has read is ruled out by the meaning.
    · next hkeeps => exact hback x w hcall hkeeps
    · exact follows_fault

/-- A function that is no timer is called as usual. -/
theorem timer_none {name : String} (h : Meaning.isTimer name = false) : timer? name = none := by
  simp only [Meaning.isTimer, Bool.or_eq_false_iff, beq_eq_false_iff_ne] at h
  simp only [timer?, h.1, h.2, if_false]

/-- A call, with or without a place for its result. -/
theorem follows_call (hS : S.Sound) {name : String} {callee : Option Signature} {es : List Expr}
    (hes : ∀ e ∈ es, S.Rendered n frozen loc e) {pos : Pos} {wanted : Bool} {v : Val}
    {st st' : State} (h : callValue S.env name callee (exprs S.env es) pos wanted st = .ok (v, st'))
    (hst : S.Starts st) (hlead : S.Leads st') {s : Run.State Unit} (hag : S.Agrees loc s) :
    S.Follows n st.stmts.size s
      (Meaning.call S.C frozen name (Meaning.exprs S.C loc frozen es) s.world) fun x w status =>
      ∃ t, status = .running st'.stmts.size t ∧ t.world = w ∧ S.Quiet frozen st.temps.size s t ∧
        (wanted = true → S.Holds frozen st'.temps.size v x t) := by
  unfold Meaning.call
  split
  · exact follows_fault
  next htimer =>
  obtain ⟨target, args, vs, st₁, hname, -, hvs, hst'⟩ := callValue_inv h
  obtain ⟨rfl, rfl⟩ := hname (timer_none (Bool.not_eq_true _ ▸ htimer))
  have hadds : Adds S.env.decls [] (values (exprs S.env es)) :=
    adds_values (codeOnly_exprs fun e he => (hes e he).codeOnly)
  -- The call itself is the last statement, with or without a temporary for its result.
  have hlead₁ : S.Leads st₁ := by
    rcases hst' with ⟨-, rfl, rfl⟩ | ⟨-, rfl⟩
    · exact hlead.of_define.of_add
    · exact hlead.of_add
  have hle := (hadds hvs).1.size_temps
  refine Follows.bind (follows_values hS hes hvs hst hlead₁ hag) ?_
  rintro xs - - ⟨t, rfl, rfl, hq, hxs⟩
  have hargs := mapM_eval (hxs.imp fun _ _ hx => hx.1)
  refine ⟨_, t, rfl, ?_⟩
  rcases hst' with ⟨rfl, rfl, rfl⟩ | ⟨rfl, rfl⟩
  -- The result is wanted, and delivered into a new temporary.
  · refine follows_enter hS hargs hlead.of_define.getElem?_add (fun trace hcall => ?_) ?_
    · simp only [Run.exec, Run.compute, hcall, Run.deliver]
    · intro x w hcall hkeeps
      have hexec : Run.exec S.X t (.call (some (.temp st₁.counters.temps)) target vs) =
          Run.deliver S.X (.temp st₁.counters.temps) (.value x (t.inWorld w)) := by
        simp only [Run.exec, Run.compute, hcall]
      obtain ⟨u, hreach, hw, hq', hv⟩ := hlead.reach_define frozen hS (hst.of_adds hadds hvs) hexec
      exact ⟨_, hreach.eventually, u, rfl, hw,
        (hq.trans (quiet_inWorld hkeeps _) hle).trans hq' hle, fun _ => hv⟩
  -- The result is dropped.
  · refine follows_enter hS hargs hlead.getElem?_add (fun trace hcall => ?_) ?_
    · simp only [Run.exec, hcall]
    · intro x w hcall hkeeps
      have hexec : Run.exec S.X t (.call none target vs) = .next (t.inWorld w) := by
        simp only [Run.exec, hcall]
      refine ⟨_, (hlead.reach hexec).eventually, _, rfl, rfl, hq.trans (quiet_inWorld hkeeps _) hle, ?_⟩
      exact fun hwanted => absurd hwanted Bool.false_ne_true

/-! ## All expressions -/

/-- What an expression mentions is mentioned by the list it is in. -/
theorem mentions_of_mem {es : List Expr} {e : Expr} (he : e ∈ es) :
    Meaning.mentions e ⊆ Meaning.mentionsAll es := by
  induction es with
  | nil => nomatch he
  | cons e' es ih =>
    rw [Meaning.mentionsAll]
    rcases List.mem_cons.1 he with rfl | he
    · exact List.subset_append_left _ _
    · exact List.Subset.trans (ih he) (List.subset_append_right _ _)

theorem computes_throw {g : Gen Val} : S.Computes n frozen loc g (throw .fault) :=
  fun _ _ _ _ _ _ _ _ => follows_fault

/-- The code of every expression computes its value and decides its jumps. -/
theorem renders_expr (hS : S.Sound) (e : Expr) (he : Meaning.Fits e)
    (hfrozen : Meaning.mentions e ⊆ frozen) : S.Rendered n frozen loc e := by
  have hcode := codeOnly_expr S.env.decls S.env e
  -- On the tree, one case for each kind of expression; `Rendered` speaks of the value and of
  -- the jumps at once.
  induction e using Expr.induction with
  | absent => exact renders_guardConst (e := .absent) hS he hcode nofun nofun
  | num k => exact renders_guardConst (e := .num k) hS he hcode nofun nofun
  | lval d index pos ih =>
    rw [Meaning.mentions, List.cons_subset] at hfrozen
    have hindex : ∀ e ∈ index, S.Rendered n frozen loc e := fun e hmem =>
      ih e hmem (Meaning.fits_of_mem he hmem) (List.Subset.trans (mentions_of_mem hmem) hfrozen.2)
        (codeOnly_expr _ _ e)
    -- A place is looked at only if it does not fold.
    have hvalue : (Expr.lval d index pos).fold S.env.decls = .ok none → S.Computes n frozen loc
        (lvalValue S.env d pos (exprs S.env index))
        (Meaning.expr S.C loc frozen (.lval d index pos)) := by
      intro hfold
      rcases lval_of_fold hS he hfold with heq | heq
      · rw [heq]
        exact computes_throw
      · rw [heq]
        exact computes_lval hS hfrozen.1 he hindex pos
    exact renders_guardConst (e := .lval d index pos) hS he hcode hvalue
      fun hfold => decides_value (hvalue hfold)
  | call name callee args pos ih =>
    have hargs : ∀ e ∈ args, S.Rendered n frozen loc e := fun e hmem =>
      ih e hmem (Meaning.fits_of_mem he hmem) (List.Subset.trans (mentions_of_mem hmem) hfrozen)
        (codeOnly_expr _ _ e)
    have hvalue : S.Computes n frozen loc (callValue S.env name callee (exprs S.env args) pos true)
        (Meaning.expr S.C loc frozen (.call name callee args pos)) := by
      intro st v st' h hst hlead s hag
      rw [Meaning.expr]
      refine Follows.imp (follows_call hS hargs h hst hlead hag) ?_
      rintro x w status ⟨t, rfl, rfl, hq, hv⟩
      exact ⟨t, rfl, rfl, hq, hv rfl⟩
    exact renders_guardConst (e := .call name callee args pos) hS he hcode (fun _ => hvalue)
      fun _ => decides_value hvalue
  | unary op x ih =>
    have hx := ih he hfrozen (codeOnly_expr _ _ x)
    have hvalue := computes_unary hS op hx
    refine renders_guardConst (e := .unary op x) hS he hcode (fun _ => ?_) fun _ => ?_
    · rw [Meaning.expr]
      exact hvalue
    · rw [Meaning.expr]
      cases op with
      -- A negation jumps the other way; the other operators have to be computed and tested.
      | plus | neg => exact decides_value hvalue
      | not => exact decides_not hx
  | binary op l r ihl ihr =>
    rw [Meaning.mentions, List.append_subset] at hfrozen
    have hl := ihl he.1 hfrozen.1 (codeOnly_expr _ _ l)
    have hr := ihr he.2 hfrozen.2 (codeOnly_expr _ _ r)
    have harith := fun hop : op.isLogical = false => computes_arith hS hop hl hr
    -- The logical operators have jumping code of their own.
    cases op with
    | and =>
      exact renders_guardConst (e := .binary .and l r) hS he hcode
        (fun _ => computes_logical hS false hl hr) fun _ => decides_logical hS false hl hr
    | or =>
      exact renders_guardConst (e := .binary .or l r) hS he hcode
        (fun _ => computes_logical hS true hl hr) fun _ => decides_logical hS true hl hr
    | add | sub | mul | div | mod | cmp =>
      exact renders_guardConst (e := .binary _ l r) hS he hcode (fun _ => harith rfl)
        fun _ => decides_value (harith rfl)

end Tac.Tree.Generate.Scene
