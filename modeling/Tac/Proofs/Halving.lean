import Mathlib
import Tac.Proofs.Constructs
import Tac.Proofs.Multiplication

/-!
# The recursion that the multiplication replaces

The tree of the modular multiplication calls itself with half of the second factor, doubles the result
and adds the first factor if the second one is odd.  It adds the first factor as it is, while the
hand-written code reduces it before its first turn.  So the two agree as long as these sums are words,
which they are for every first factor that is not too large, and may differ otherwise.

* **`recursion`** — the value of the tree, with as many nested calls as are given.
* **`recursion_succ`** — one call: zero, one, or a turn on the value for the half.
* **`recursion_exact`** — without a sum that wraps around, the value is the remainder of the product.
* **`call_multiply_recursion`** — then the hand-written code returns the value of the recursion.
* **`call_multiply_wrapped`** — a product where it does not.
-/

namespace Tac

open Tac.Tree Tac.Tree.Meaning

namespace Builtin

open Machine

/-! ## The tree -/

/-- What a call of the recursion gives, with the memory that it leaves. -/
abbrev Callee := Word → Word → (Word → Word) → Option (Word × (Word → Word))

/-- A host whose only function is the recursion. -/
def hostOf (callee : Callee) : Run.Host Unit where
  valid _ := false
  reply trace :=
    match trace.getLast? with
    | some (.call "multiply" [a, b] mem _) => callee a b mem
    | _ => none

/-- What the tree is evaluated in. -/
def recursionContext (callee : Callee) : Context where
  decls := multiplyDecls
  globals := []
  params := multiplyRef.params
  addr _ := 0
  host := hostOf callee

/-- The state in which the tree is entered. -/
def entry (a b : Word) (mem : Word → Word) : Store where
  loc d := if d = 0 then some a else if d = 1 then some b else none
  world := ⟨mem, []⟩

/-- The value of the tree, where calls are answered by the tree itself, nested up to `depth` deep. -/
def recursion : Nat → Callee
  | 0, _, _, _ => none
  | depth + 1, a, b, mem =>
    match function (recursionContext (recursion depth)) multiplyRef 0 (entry a b mem) with
    | .ok (some x, s) => some (x, s.world.mem)
    | _ => none

section Turn

variable {callee : Callee} {loc : Locals} {frozen : List DeclId} {w : Run.World Unit} {a b x y : Word}

/-- What a scalar of the recursion evaluates to. -/
theorem expr_ref {d : DeclId} (hd : d < 3) (hx : loc d = some x) :
    expr (recursionContext callee) loc frozen (ref d) w = .ok (x, w) := by
  have hread : expr (recursionContext callee) loc frozen (ref d) w = the (loc d) w := by
    interval_cases d <;> rfl
  rw [hread, hx]
  rfl

/-- The remainder of a sum of two variables. -/
theorem expr_addMod {d d' : DeclId} (hd : d < 3) (hd' : d' < 3) (hx : loc d = some x)
    (hy : loc d' = some y) : expr (recursionContext callee) loc frozen
      (.binary .mod (.binary .add (ref d) (ref d')) (.num modulus)) w =
        .ok ((x + y) % word modulus, w) := by
  have hmod : operate .mod (x + y) (word modulus) = some ((x + y) % word modulus) := by
    unfold operate
    exact if_neg (by decide)
  exact expr_arith (by decide) (expr_arith (by decide) (expr_ref hd hx) (expr_ref hd' hy) rfl) rfl hmod

/-- The call for the half. -/
def halfCall : Expr :=
  .call "multiply" (some { params := 2, void := false }) [ref 0, .binary .div (ref 1) (.num 2)] {}

variable (callee) in
/-- What the recursive call evaluates to. -/
theorem value_halfCall (mem : Word → Word) {s : Store} (ha : s.loc 0 = some a) (hb : s.loc 1 = some b)
    (hw : s.world = ⟨mem, []⟩) : value (recursionContext callee) halfCall s =
      (callee a (b / 2) mem).elim (.error (.lost [.call "multiply" [a, b / 2] mem ()])) fun p =>
        .ok (p.1, ⟨s.loc, ⟨p.2, [.call "multiply" [a, b / 2] mem ()]⟩⟩) := by
  obtain ⟨loc, world⟩ := s
  simp only at ha hb hw
  subst hw
  -- The parts do not call, so they are evaluated where the call starts.
  have hhalf : expr (recursionContext callee) loc (mentions halfCall)
      (.binary .div (ref 1) (.num 2)) ⟨mem, []⟩ = .ok (b / 2, ⟨mem, []⟩) :=
    expr_arith (by decide) (expr_ref (by decide) hb) rfl rfl
  have hargs : exprs (recursionContext callee) loc (mentions halfCall)
      [ref 0, .binary .div (ref 1) (.num 2)] ⟨mem, []⟩ = .ok ([a, b / 2], ⟨mem, []⟩) := by
    rw [exprs, bind_of_ok (expr_ref (by decide) ha), exprs, bind_assoc, bind_of_ok hhalf]
    rfl
  have hcall : expr (recursionContext callee) loc (mentions halfCall) halfCall ⟨mem, []⟩ =
      enter (recursionContext callee) (mentions halfCall) "multiply" [a, b / 2] ⟨mem, []⟩ :=
    bind_of_ok hargs
  have hback : ((⟨mem, []⟩ : Run.World Unit).enter "multiply" [a, b / 2] ()).back
      (recursionContext callee).host = (callee a (b / 2) mem).map fun p =>
        (p.1, ⟨p.2, [.call "multiply" [a, b / 2] mem ()]⟩) := rfl
  -- What the call does is up to the callee.
  unfold value evaluate
  simp only [hcall]
  unfold Meaning.enter
  simp only [hback]
  cases callee a (b / 2) mem <;> rfl

/-- What a turn makes of the value for the half. -/
def doubled (a b cur : Word) : Word :=
  let twice := (cur + cur) % word modulus
  if b % 2 = 1 then (twice + a) % word modulus else twice

variable (callee) in
/-- The statements after the call: doubling and, for an odd factor, adding. -/
theorem nodes_double {s : Store} {cur : Word} (ha : s.loc 0 = some a) (hb : s.loc 1 = some b)
    (hcur : s.loc 2 = some cur) : ∃ s', nodes (recursionContext callee) 0 (multiplyRef.body.drop 3) s =
      .ok (.returned (some (doubled a b cur)), s') ∧ s'.world = s.world := by
  have hassign : node (recursionContext callee) 0
      (.assign 2 [] {} (.binary .mod (.binary .add (ref 2) (ref 2)) (.num modulus)) {}) s =
        .ok (.next, { s with loc := Function.update s.loc 2 (some ((cur + cur) % word modulus)) }) := by
    have hvalue : ∀ frozen, evaluate (fun loc => expr (recursionContext callee) loc frozen
        (.binary .mod (.binary .add (ref 2) (ref 2)) (.num modulus))) s =
          .ok ((cur + cur) % word modulus, s) := by
      intro frozen
      unfold evaluate
      simp only [expr_addMod (by decide) (by decide) hcur hcur]
    exact bind_of_ok (bind_of_ok (hvalue _))
  rw [show multiplyRef.body.drop 3 = _ :: multiplyRef.body.drop 4 from rfl, nodes_next hassign]
  generalize hs : ({ s with loc := Function.update s.loc 2 (some ((cur + cur) % word modulus)) } :
    Store) = s₁
  have ha₁ : s₁.loc 0 = some a := by rw [← hs]; exact ha
  have hb₁ : s₁.loc 1 = some b := by rw [← hs]; exact hb
  have htwice : s₁.loc 2 = some ((cur + cur) % word modulus) := by rw [← hs]; rfl
  have hworld : s₁.world = s.world := by rw [← hs]
  -- the last bit of the factor decides
  have hodd : value (recursionContext callee)
      (.binary (.cmp .eq) (.binary .mod (ref 1) (.num 2)) (.num 1)) s₁ =
        .ok (Word.ofBool (b % 2 == 1), s₁) :=
    value_of_expr (expr_arith (by decide)
      (expr_arith (by decide) (expr_ref (by decide) hb₁) rfl rfl) rfl rfl)
  have hsum : value (recursionContext callee)
      (.binary .mod (.binary .add (ref 2) (ref 0)) (.num modulus)) s₁ =
        .ok (((cur + cur) % word modulus + a) % word modulus, s₁) :=
    value_of_expr (expr_addMod (by decide) (by decide) htwice ha₁)
  refine ⟨s₁, nodes_returned ((node_cond hodd).trans ?_), hworld⟩
  by_cases h : b % 2 = 1
  · rw [if_neg (by simp [Word.ofBool, h]), node_ret hsum, doubled, if_pos h]
  · rw [if_pos (by simp [Word.ofBool, h]),
      node_ret (value_of_expr (expr_ref (by decide) htwice)), doubled, if_neg h]

variable (callee) in
/-- A factor above one passes both tests. -/
theorem nodes_tests (mem : Word → Word) (h0 : b ≠ 0) (h1 : b ≠ 1) :
    nodes (recursionContext callee) 0 multiplyRef.body (entry a b mem) =
      nodes (recursionContext callee) 0 (.declare 2 :: multiplyRef.body.drop 3) (entry a b mem) := by
  -- Both tests compare the second factor with a small number.
  have htest : ∀ c yes, b ≠ word c → node (recursionContext callee) 0
      (.cond (.binary (.cmp .eq) (ref 1) (.num c)) yes .skip) (entry a b mem) =
        .ok (.next, entry a b mem) := by
    intro c yes hne
    have hvalue : value (recursionContext callee) (.binary (.cmp .eq) (ref 1) (.num c))
        (entry a b mem) = .ok (Word.ofBool (b == word c), entry a b mem) :=
      value_of_expr (expr_arith (by decide) (expr_ref (by decide) rfl) rfl rfl)
    rw [node_cond hvalue, if_pos (by simp [Word.ofBool, hne])]
    rfl
  exact (nodes_next (htest 0 _ h0)).trans (nodes_next (htest 1 _ h1))

/-- The variables after the declaration that takes the value for the half. -/
def halved (a b cur : Word) (mem mem' : Word → Word) : Store where
  loc := Function.update (Function.update (entry a b mem).loc 2 none) 2 (some cur)
  world := ⟨mem', [.call "multiply" [a, b / 2] mem ()]⟩

variable (callee a b) in
/-- What the declaration of the half product does. -/
theorem node_half (mem : Word → Word) : node (recursionContext callee) 0 (.declare 2) (entry a b mem) =
    (callee a (b / 2) mem).elim (.error (.lost [.call "multiply" [a, b / 2] mem ()])) fun p =>
      .ok (.next, halved a b p.1 mem p.2) := by
  have hdeclare : declare (recursionContext callee) 2 (entry a b mem) =
      (do setLocal 2 (some (← value (recursionContext callee) halfCall)) : Act Unit)
        ⟨Function.update (entry a b mem).loc 2 none, ⟨mem, []⟩⟩ := rfl
  have hcall := value_halfCall callee (a := a) (b := b) mem
    (s := ⟨Function.update (entry a b mem).loc 2 none, ⟨mem, []⟩⟩) rfl rfl rfl
  rw [node]
  cases hhalf : callee a (b / 2) mem with
  | none =>
    rw [hhalf] at hcall
    exact bind_of_error (hdeclare.trans (bind_of_error hcall))
  | some p =>
    rw [hhalf] at hcall
    exact bind_of_ok (hdeclare.trans (bind_of_ok hcall))

end Turn

/-- A call of the recursion. -/
theorem recursion_succ (depth : Nat) (a b : Word) (mem : Word → Word) :
    recursion (depth + 1) a b mem =
      if b = 0 then some (0, mem) else if b = 1 then some (a % word modulus, mem)
      else (recursion depth a (b / 2) mem).map fun (cur, mem') => (doubled a b cur, mem') := by
  rw [recursion]
  -- The two base cases of the recursion, then the call with half of the argument.
  by_cases h0 : b = 0
  · subst h0
    rw [if_pos rfl]
    rfl
  rw [if_neg h0]
  by_cases h1 : b = 1
  · subst h1
    rw [if_pos rfl]
    rfl
  rw [if_neg h1]
  have hbody := nodes_tests (recursion depth) (a := a) mem h0 h1
  have hnode := node_half (recursion depth) a b mem
  -- A call that is lost ends the evaluation there.
  cases hhalf : recursion depth a (b / 2) mem with
  | none =>
    rw [hhalf] at hnode
    have hlost : nodes (recursionContext (recursion depth)) 0 multiplyRef.body (entry a b mem) =
        .error (.lost [.call "multiply" [a, b / 2] mem ()]) := by
      rw [hbody, nodes]
      exact bind_of_error hnode
    rw [function, bind_of_error hlost]
    rfl
  | some p =>
    rw [hhalf] at hnode
    obtain ⟨s', hs', hworld⟩ := nodes_double (recursion depth) (a := a) (b := b)
      (s := halved a b p.1 mem p.2) rfl rfl (show _ = some p.1 from rfl)
    rw [function, bind_of_ok (hbody.trans ((nodes_next hnode).trans hs'))]
    show some (doubled a b p.1, s'.world.mem) = some (doubled a b p.1, p.2)
    rw [hworld]
    rfl

/-! ## The value -/

/-- No sum of the recursion wraps around: whatever odd factor `q` above one it comes to, the remainder
for `q - 1` and the first factor add up to a word. -/
def Unwrapped (a b : Int) : Prop :=
  ∀ k : Nat, 1 < b / 2 ^ k → b / 2 ^ k % 2 = 1 →
    -2147483648 ≤ Int.tmod (a * (b / 2 ^ k - 1)) modulus + a ∧
      Int.tmod (a * (b / 2 ^ k - 1)) modulus + a < 2147483648

/-- A product that does not overflow does not do so with half the factor. -/
theorem Unwrapped.half {a b : Int} (h : Unwrapped a b) : Unwrapped a (b / 2) := by
  intro k
  have hk := h (k + 1)
  rwa [pow_succ', ← Int.ediv_ediv_of_nonneg (by decide)] at hk

/-- A first factor that is not too large never makes a sum wrap around. -/
theorem unwrapped_of_bounds {a : Int} (h0 : -1149239296 ≤ a) (h1 : a < 1149239296) (b : Int) :
    Unwrapped a b := by
  intro k _ _
  have hrem := abs_lt.1 (abs_tmod_lt (a * (b / 2 ^ k - 1)))
  unfold modulus at hrem ⊢
  omega

/-- Sums of numbers of one sign may be reduced first. -/
theorem tmod_add {u v : Int} (h : 0 ≤ u ∧ 0 ≤ v ∨ u ≤ 0 ∧ v ≤ 0) :
    Int.tmod (Int.tmod u modulus + v) modulus = Int.tmod (u + v) modulus := by
  refine eq_tmod (abs_tmod_lt _) ?_ ((tmod_modEq _).trans ((tmod_modEq u).add_right v))
  rcases h with ⟨hu, hv⟩ | ⟨hu, hv⟩
  · exact Or.inl ⟨Int.tmod_nonneg _ (add_nonneg (Int.tmod_nonneg _ hu) hv), add_nonneg hu hv⟩
  · exact Or.inr ⟨tmod_nonpos (add_nonpos (tmod_nonpos hu) hv), add_nonpos hu hv⟩

/-- A turn on the remainder for the half gives the remainder for the factor. -/
theorem toInt_doubled {a b cur : Word} (hb : 1 < b.toInt) (hunwrapped : Unwrapped a.toInt b.toInt)
    (hcur : cur.toInt = Int.tmod (a.toInt * (b.toInt / 2)) modulus) :
    (doubled a b cur).toInt = Int.tmod (a.toInt * b.toInt) modulus := by
  have hsmall := abs_lt.1 (abs_tmod_lt (a.toInt * (b.toInt / 2)))
  rw [← hcur, show modulus = 998244353 from rfl] at hsmall
  have hsign : ∀ n : Int, 0 ≤ n → 0 ≤ a.toInt * n ∧ 0 ≤ a.toInt ∨ a.toInt * n ≤ 0 ∧ a.toInt ≤ 0 := by
    intro n hn
    rcases le_total 0 a.toInt with ha | ha
    · exact Or.inl ⟨mul_nonneg ha hn, ha⟩
    · exact Or.inr ⟨mul_nonpos_of_nonpos_of_nonneg ha hn, ha⟩
  -- twice the remainder for the half is the remainder for the even factor
  have htwice : ((cur + cur) % word modulus).toInt =
      Int.tmod (a.toInt * (2 * (b.toInt / 2))) modulus := by
    rw [Int32.toInt_mod, toInt_add (by omega) (by omega)]
    show Int.tmod (cur.toInt + cur.toInt) modulus = _
    have hhalf := hsign (b.toInt / 2) (by omega)
    have hrem : 0 ≤ a.toInt * (b.toInt / 2) ∧ 0 ≤ cur.toInt ∨
        a.toInt * (b.toInt / 2) ≤ 0 ∧ cur.toInt ≤ 0 := by
      rw [hcur]
      rcases hhalf with ⟨hu, -⟩ | ⟨hu, -⟩
      · exact Or.inl ⟨hu, Int.tmod_nonneg _ hu⟩
      · exact Or.inr ⟨hu, tmod_nonpos hu⟩
    have hfirst := tmod_add hrem
    rw [← hcur, hcur, add_comm (a.toInt * (b.toInt / 2))] at hfirst
    rw [hcur, hfirst, tmod_add (by rcases hhalf with h | h <;> omega)]
    ring_nf
  have hodd : b % 2 = 1 ↔ b.toInt % 2 = 1 := by
    rw [← Int32.toInt_inj, Int32.toInt_mod]
    show Int.tmod b.toInt 2 = 1 ↔ _
    rw [Int.tmod_eq_emod_of_nonneg (by omega)]
  unfold doubled
  split
  · next h =>
    have hlast := hodd.1 h
    -- the last sum adds the factor as it is, so it needs more than small remainders
    have hfits := hunwrapped 0
    rw [pow_zero, Int.ediv_one, show b.toInt - 1 = 2 * (b.toInt / 2) by omega] at hfits
    obtain ⟨hmin, hmax⟩ := hfits hb hlast
    rw [← htwice] at hmin hmax
    rw [Int32.toInt_mod, toInt_add hmin hmax, htwice]
    show Int.tmod (Int.tmod (a.toInt * (2 * (b.toInt / 2))) modulus + a.toInt) modulus = _
    rw [tmod_add (hsign _ (by omega)), ← mul_add_one, show 2 * (b.toInt / 2) + 1 = b.toInt by omega]
  · next h =>
    have heven : ¬ b.toInt % 2 = 1 := fun hlast => h (hodd.2 hlast)
    rw [htwice, show 2 * (b.toInt / 2) = b.toInt by omega]

/-- Without a sum that wraps around, the value is the remainder of the product. -/
theorem recursion_exact (mem : Word → Word) {depth : Nat} {a b : Word} (hb : 0 ≤ b.toInt)
    (hdepth : b.toInt < 2 ^ depth) (hunwrapped : Unwrapped a.toInt b.toInt) :
    ∃ r, recursion (depth + 1) a b mem = some (r, mem) ∧
      r.toInt = Int.tmod (a.toInt * b.toInt) modulus := by
  -- the induction is on the depth; a level less halves the factor
  induction depth generalizing b with
  | zero =>
    have hzero : b = 0 := Int32.toInt_inj.1 (show b.toInt = 0 by omega)
    subst hzero
    refine ⟨0, by rw [recursion_succ, if_pos rfl], ?_⟩
    show 0 = Int.tmod (a.toInt * 0) modulus
    rw [mul_zero, Int.zero_tmod]
  | succ depth ih =>
    rw [recursion_succ]
    by_cases h0 : b = 0
    · subst h0
      refine ⟨0, if_pos rfl, ?_⟩
      show 0 = Int.tmod (a.toInt * 0) modulus
      rw [mul_zero, Int.zero_tmod]
    by_cases h1 : b = 1
    · subst h1
      refine ⟨a % word modulus, rfl, ?_⟩
      rw [Int32.toInt_mod]
      show Int.tmod a.toInt modulus = Int.tmod (a.toInt * 1) modulus
      rw [mul_one]
    rw [if_neg h0, if_neg h1]
    have hhalf : (b / 2).toInt = b.toInt / 2 := by
      rw [Int32.toInt_div_of_ne_right _ _ (by decide)]
      exact Int.tdiv_eq_ediv_of_nonneg hb
    have hlarge : 1 < b.toInt := by
      have hne₀ : b.toInt ≠ 0 := fun h => h0 (Int32.toInt_inj.1 h)
      have hne₁ : b.toInt ≠ 1 := fun h => h1 (Int32.toInt_inj.1 h)
      omega
    obtain ⟨cur, hcur, hexact⟩ := ih (b := b / 2) (by omega) (by omega) (hhalf ▸ hunwrapped.half)
    rw [hcur]
    exact ⟨doubled a b cur, rfl, toInt_doubled hlarge hunwrapped (hhalf ▸ hexact)⟩

/-! ## Calls -/

/-- As long as no sum of the recursion wraps around, a call of the hand-written code returns its
value. -/
theorem call_multiply_recursion (c : Counters) {im : Image} {lim : Limits} {m : Machine} {a b : Word}
    (hb : 0 ≤ b.toInt) (hunwrapped : Unwrapped a.toInt b.toInt)
    (hadmits : Admits im lim m "multiply" (Image.loadFunc (multiply.lower c).1))
    (hlim : Allows lim (m.steps + 317)) {depth : Nat} (hdepth : 32 ≤ depth) (mem : Word → Word) :
    ∃ m' r, m.call im lim "multiply" [a, b] = (m', .returned r) ∧
      recursion depth a b mem = some (r, mem) := by
  obtain ⟨n, m', hn, hwalk, hresult⟩ := walk_multiply c im m (a := a) hb
  have hcall := call_of_walk (by simp [Reg.argCount]) hadmits hwalk (ret_multiply c)
    (hlim.mono (by omega)) (by omega)
  obtain ⟨depth, rfl⟩ := Nat.exists_eq_add_of_le' (show 1 ≤ depth by omega)
  -- The second factor has at most 31 bits, so 32 calls are enough.
  have hfits : b.toInt < 2 ^ depth :=
    lt_of_lt_of_le (Int32.toInt_lt b) (pow_le_pow_right₀ (by decide) (by omega))
  obtain ⟨r, hr, hexact⟩ := recursion_exact mem hb hfits hunwrapped
  rw [Int32.toInt_inj.1 (hresult.trans hexact.symm)] at hcall
  exact ⟨_, r, hcall, hr⟩

/-- A first factor above the modulus. -/
theorem call_multiply_recursion_large : ∃ m' r,
    fresh.call (Image.ofCode { funcs := [(multiply.lower {}).1] }) {} "multiply"
      [-1149239296, 2147483647] = (m', .returned r) ∧
    recursion 32 (-1149239296) 2147483647 (fun _ => 0) = some (r, fun _ => 0) := by
  have hadmits := admits_fresh (g := (multiply.lower {}).1) rfl
  exact call_multiply_recursion {} (by decide) (unwrapped_of_bounds (by decide) (by decide) _) hadmits
    (Or.inr (by decide)) (by decide) _

/-- The recursion adds the first factor unreduced: for three times the greatest word the sum of the
remainder for two and the factor is no word, and the code returns something else. -/
theorem call_multiply_wrapped : ∃ m', fresh.call (Image.ofCode { funcs := [(multiply.lower {}).1] }) {}
      "multiply" [2147483647, 3] = (m', .returned 452984823) ∧
    recursion 32 2147483647 3 (fun _ => 0) = some (-847249414, fun _ => 0) := by
  obtain ⟨n, m', hn, hwalk, hresult⟩ := walk_multiply {}
    (Image.ofCode { funcs := [(multiply.lower {}).1] }) fresh (a := 2147483647) (b := 3) (by decide)
  have hcall := call_of_walk (by simp [Reg.argCount]) (admits_fresh (g := (multiply.lower {}).1) rfl)
    hwalk (ret_multiply {}) (Or.inr (by simp [fresh]; omega)) (by omega)
  rw [Int32.toInt_inj.1 (hresult.trans (show _ = (452984823 : Word).toInt by decide))] at hcall
  refine ⟨_, hcall, ?_⟩
  rw [recursion_succ, if_neg (by decide), if_neg (by decide), show (3 : Word) / 2 = 1 from rfl,
    recursion_succ]
  rfl

end Builtin

end Tac
