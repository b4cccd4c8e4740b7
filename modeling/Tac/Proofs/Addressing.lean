import Mathlib
import Tac.Proofs.Expressions
import Tac.Proofs.Sealing

/-!
# Addresses of array elements

Elements lie in row-major order.  The indexes of an access select an element by its number, which is
the sum of each index times the stride of its dimension.  Constant indexes are added up while the code
is generated, computed ones by the code; the two sums together are the address, whatever indexes are
constant and however many there are.

Strides and sizes are products of 64-bit numbers.  They are exact for arrays that fit into memory, and
then different elements have different words, all of them inside the array.

* **`Decl.rowMajor`** — the number of the selected element.
* **`Decl.bijOn_rowMajor`** — in an array that fits into memory, index vectors and words correspond.
* **`Reads`** — the values of the indexes of an access in a run of its code.
* **`reads_address`** — base and offset denote the address that these values select.
-/

namespace Tac.Tree

/-! ## Row-major order -/

/-- The number of the selected element, from dimension `i` on. -/
def Decl.rowMajor (d : Decl) : Nat → List Int → Int
  | _, [] => 0
  | i, k :: ks => k * d.stride i + d.rowMajor (i + 1) ks

namespace Shape

variable {ns ks : List Int} {x : Int}

/-- Indexes inside their dimensions, one for each. -/
def Indexes (ns ks : List Int) : Prop := List.Forall₂ (fun n k => 0 ≤ k ∧ k < n) ns ks

/-- The number of an element, with exact products. -/
def number : List Int → List Int → Int
  | _ :: ns, k :: ks => k * ns.prod + number ns ks
  | _, _ => 0

/-- The indexes of the element with a number. -/
def digits : List Int → Int → List Int
  | [], _ => []
  | _ :: ns, x => x / ns.prod :: digits ns (x % ns.prod)

/-- Indexes in bounds number an element of the array. -/
theorem number_bounds (h : Indexes ns ks) : 0 ≤ number ns ks ∧ number ns ks < ns.prod := by
  induction h with
  | nil => exact ⟨Int.le_refl 0, Int.one_pos⟩
  | @cons n k ns ks hk _ ih =>
    have hprod : 0 ≤ ns.prod := by omega
    have hlow : 0 ≤ k * ns.prod := Int.mul_nonneg hk.1 hprod
    have hhigh : (k + 1) * ns.prod ≤ n * ns.prod :=
      Int.mul_le_mul_of_nonneg_right (by omega) hprod
    rw [Int.add_mul, Int.one_mul] at hhigh
    rw [number, List.prod_cons]
    omega

/-- The digits of the number of an element are in bounds. -/
theorem indexes_digits (hpos : ∀ n ∈ ns, 0 < n) (h0 : 0 ≤ x) (h1 : x < ns.prod) :
    Indexes ns (digits ns x) := by
  induction ns generalizing x with
  | nil => exact .nil
  | cons n ns ih =>
    rw [List.forall_mem_cons] at hpos
    have hprod : 0 < ns.prod := List.prod_pos hpos.2
    rw [List.prod_cons] at h1
    refine .cons ⟨Int.ediv_nonneg h0 hprod.le, Int.ediv_lt_of_lt_mul hprod h1⟩ ?_
    exact ih hpos.2 (Int.emod_nonneg x hprod.ne') (Int.emod_lt_of_pos x hprod)

/-- Numbering the digits gives the number back. -/
theorem number_digits (hpos : ∀ n ∈ ns, 0 < n) (h0 : 0 ≤ x) (h1 : x < ns.prod) :
    number ns (digits ns x) = x := by
  -- On the dimensions; division and remainder put the number together again.
  induction ns generalizing x with
  | nil =>
    rw [List.prod_nil] at h1
    rw [digits, number]
    · omega
    · exact nofun
  | cons n ns ih =>
    rw [List.forall_mem_cons] at hpos
    have hprod : 0 < ns.prod := List.prod_pos hpos.2
    rw [digits, number, ih hpos.2 (Int.emod_nonneg x hprod.ne') (Int.emod_lt_of_pos x hprod)]
    exact Int.ediv_mul_add_emod x ns.prod

/-- The digits of a number are the indexes it was made of. -/
theorem digits_number (h : Indexes ns ks) : digits ns (number ns ks) = ks := by
  induction h with
  | nil => rfl
  | @cons n k ns ks hk hks ih =>
    obtain ⟨h0, h1⟩ := number_bounds hks
    have hprod : ns.prod ≠ 0 := by omega
    rw [number, digits, Int.add_comm, Int.add_mul_ediv_right _ _ hprod, Int.ediv_eq_zero_of_lt h0 h1,
      Int.zero_add, Int.add_mul_emod_self_right, Int.emod_eq_of_lt h0 h1, ih]

/-- Index vectors and the numbers of elements correspond. -/
theorem bijOn_number (hpos : ∀ n ∈ ns, 0 < n) :
    Set.BijOn (number ns) {ks | Indexes ns ks} (Set.Ico 0 ns.prod) := by
  have hinv : Set.InvOn (digits ns) (number ns) {ks | Indexes ns ks} (Set.Ico 0 ns.prod) :=
    ⟨fun ks h => digits_number h, fun x hx => number_digits hpos hx.1 hx.2⟩
  apply hinv.bijOn
  · exact fun ks h => number_bounds h
  · exact fun x hx => indexes_digits hpos hx.1 hx.2

/-- Products that fit are not wrapped. -/
theorem foldl_wrap (hpos : ∀ n ∈ ns, 0 < n) {a : Int} (ha : 0 < a)
    (hlt : a * ns.prod < 9223372036854775808) :
    ns.foldl (fun acc n => wrap64 (acc * n)) a = a * ns.prod := by
  -- On the factors; all products on the way are smaller, since no factor is zero.
  induction ns generalizing a with
  | nil => rw [List.foldl_nil, List.prod_nil, Int.mul_one]
  | cons n ns ih =>
    rw [List.forall_mem_cons] at hpos
    have hprod : 0 < ns.prod := List.prod_pos hpos.2
    have hpart : 0 < a * n := Int.mul_pos ha hpos.1
    rw [List.prod_cons, ← Int.mul_assoc] at hlt
    have hle : a * n ≤ a * n * ns.prod := le_mul_of_one_le_right hpart.le hprod
    rw [List.foldl_cons, wrap64_of_range (by omega) (by omega), ih hpos.2 hpart hlt, List.prod_cons,
      Int.mul_assoc]

/-- Products of 64-bit numbers are exact where the whole product is a 64-bit number. -/
theorem wrapProduct_eq (hpos : ∀ n ∈ ns, 0 < n) (hlt : ns.prod < 9223372036854775808) :
    wrapProduct ns = ns.prod := by
  rw [wrapProduct, foldl_wrap hpos Int.one_pos (by rwa [Int.one_mul]), Int.one_mul]

end Shape

namespace Decl

variable {d : Decl}

/-- The stride of an index is the product of the dimensions behind it. -/
theorem stride_eq (hpos : ∀ n ∈ d.dims, 0 < n) (hlt : d.dims.prod < 9223372036854775808) (i : Nat) :
    d.stride i = (d.dims.drop (i + 1)).prod := by
  apply Shape.wrapProduct_eq
  · exact fun n hn => hpos n (List.mem_of_mem_drop hn)
  · have htake : 0 < (d.dims.take (i + 1)).prod :=
      List.prod_pos fun n hn => hpos n (List.mem_of_mem_take hn)
    have hdrop : 0 < (d.dims.drop (i + 1)).prod :=
      List.prod_pos fun n hn => hpos n (List.mem_of_mem_drop hn)
    have hle := le_mul_of_one_le_left hdrop.le htake
    rw [List.prod_take_mul_prod_drop] at hle
    exact Int.lt_of_le_of_lt hle hlt

/-- The row-major number of an element, without wrapping. -/
theorem rowMajor_eq (hpos : ∀ n ∈ d.dims, 0 < n) (hlt : d.dims.prod < 9223372036854775808) {i : Nat}
    {ks : List Int} (hks : Shape.Indexes (d.dims.drop i) ks) :
    d.rowMajor i ks = Shape.number (d.dims.drop i) ks := by
  induction ks generalizing i with
  | nil =>
    rw [Shape.Indexes, List.forall₂_nil_right_iff] at hks
    rw [hks]
    rfl
  | cons k ks ih =>
    -- There are no more indexes than dimensions.
    have hi : i < d.dims.length := by
      by_contra hge
      rw [List.drop_eq_nil_of_le (by omega)] at hks
      cases hks
    rw [List.drop_eq_getElem_cons hi] at hks ⊢
    cases hks with
    | cons hk hks => rw [rowMajor, Shape.number, stride_eq hpos hlt, ih hks]

/-- In an array that fits into memory, index vectors correspond to the offsets of its words, and
different elements are different words. -/
theorem bijOn_rowMajor (hpos : ∀ n ∈ d.dims, 0 < n) (hlt : 4 * d.dims.prod < 2147483648) :
    d.elems = d.dims.prod ∧
    Set.BijOn (fun ks => 4 * d.rowMajor 0 ks) {ks | Shape.Indexes d.dims ks}
      {x | 0 ≤ x ∧ x < 4 * d.elems ∧ 4 ∣ x} ∧
    Set.InjOn (fun ks => word (4 * d.rowMajor 0 ks)) {ks | Shape.Indexes d.dims ks} := by
  have helems : d.elems = d.dims.prod := Shape.wrapProduct_eq hpos (by omega)
  have hnumber : Set.BijOn (d.rowMajor 0) {ks | Shape.Indexes d.dims ks} (Set.Ico 0 d.dims.prod) :=
    (Shape.bijOn_number hpos).congr fun ks hks => (rowMajor_eq (i := 0) hpos (by omega) hks).symm
  have hbytes : Set.BijOn (fun x : Int => 4 * x) (Set.Ico 0 d.dims.prod)
      {x | 0 ≤ x ∧ x < 4 * d.elems ∧ 4 ∣ x} := by
    rw [helems]
    refine ⟨fun x hx => ?_, fun x _ y _ hxy => ?_, ?_⟩
    · obtain ⟨h0, h1⟩ := hx
      show 0 ≤ 4 * x ∧ 4 * x < 4 * d.dims.prod ∧ 4 ∣ 4 * x
      omega
    · exact Int.eq_of_mul_eq_mul_left (by decide) hxy
    · rintro _ ⟨h0, h1, x, rfl⟩
      exact ⟨x, ⟨by omega, by omega⟩, rfl⟩
  refine ⟨helems, hbytes.comp hnumber, fun ks hks ks' hks' heq => ?_⟩
  -- the offsets are too small for their words to be equal
  obtain ⟨h0, h1⟩ := hnumber.mapsTo hks
  obtain ⟨h0', h1'⟩ := hnumber.mapsTo hks'
  have hword := congrArg Int32.toInt heq
  dsimp only at hword
  rw [toInt_word, toInt_word, Int.bmod_eq_of_le (by omega) (by omega),
    Int.bmod_eq_of_le (by omega) (by omega)] at hword
  exact hnumber.injOn hks hks' (by omega)

/-- The size of an array can wrap around; then elements lie outside of it. -/
theorem not_bijOn_rowMajor : ¬ ∀ d : Decl, (∀ n ∈ d.dims, 0 < n) → 4 * d.elems < 2147483648 →
    Set.BijOn (fun ks => 4 * d.rowMajor 0 ks) {ks | Shape.Indexes d.dims ks}
      {x | 0 ≤ x ∧ x < 4 * d.elems ∧ 4 ∣ x} := by
  intro h
  have hbij := h { name := "a", dims := [5, 3689348814741910324] } (by decide) (by decide)
  have hin : Shape.Indexes [5, 3689348814741910324] [0, 4] :=
    .cons (by decide) (.cons (by decide) .nil)
  have hout := (hbij.mapsTo hin).2.1
  exact absurd hout (by decide)

end Decl

namespace Generate

open Run (Completes Keeps Setting)

/-! ## Indexes in a run -/

variable {α : Type}

/-- The values `ws` of indexes in a run of the code of an access, from one state of generation to
another: an index is a constant, or the operand of its own code.  Between and behind the indexes there
are sums and products of the access itself. -/
inductive Reads (X : Setting α) (env : Env) :
    List Expr → State → State → Run.State α → Run.State α → List Word → Prop where
  | done (st : State) (s : Run.State α) : Reads X env [] st st s s []
  | const {e : Expr} {es : List Expr} {st st' : State} {s t : Run.State α} {ws : List Word} {c : Int}
      (hc : e.fold env.decls = .ok (some c)) (h : Reads X env es st st' s t ws) :
      Reads X env (e :: es) st st' s t (word c :: ws)
  | computed {e : Expr} {es : List Expr} {st st₁ st' : State} {s u t : Run.State α} {ws : List Word}
      {v : Val} {w : Word} (hv : (expr env e).value st = .ok (v, st₁))
      (hrun : Completes X (emitted st st₁) s u) (hw : u.eval X v = some w)
      (h : Reads X env es st₁ st' u t ws) : Reads X env (e :: es) st st' s t (w :: ws)
  | step {es : List Expr} {st st₁ st' : State} {s u t : Run.State α} {ws : List Word} {l r v : Val}
      {op : BinOp} (hv : binaryTemp l op r st = .ok (v, st₁))
      (hrun : Completes X (emitted st st₁) s u) (h : Reads X env es st₁ st' u t ws) :
      Reads X env es st st' s t ws

/-- The sum of the computed indexes so far, in a temporary that is not drawn again in `ts`. -/
def Added (dyn : Option Val) (ts : List Int) (x : Word) (s : Run.State α) : Prop :=
  match dyn with
  | none => x = 0
  | some v => ∃ n ∉ ts, v = .temp n ∧ s.temp n = x

section Runs

variable {X : Setting α} {env : Env} {es : List Expr} {st st₁ st₂ st' : State}
  {s t u : Run.State α} {ws : List Word} {l r v p : Val} {x y : Word}

/-- One more operation behind those that read the indexes. -/
theorem Reads.snoc {op : BinOp} (h : Reads X env es st st₁ s u ws)
    (hv : binaryTemp l op r st₁ = .ok (v, st')) (hrun : Completes X (emitted st₁ st') u t) :
    Reads X env es st st' s t ws := by
  induction h with
  | done st s => exact .step hv hrun (.done _ _)
  | const hc _ ih => exact .const hc (ih hv hrun)
  | computed hv' hrun' hw _ ih => exact .computed hv' hrun' hw (ih hv hrun)
  | step hv' hrun' _ ih => exact .step hv' hrun' (ih hv hrun)

/-- The sum may rest on fewer temporaries. -/
theorem Added.mono {dyn : Option Val} {ts ts' : List Int} (h : Added dyn ts x s) (hts : ts' ⊆ ts) :
    Added dyn ts' x s := by
  cases dyn with
  | none => exact h
  | some v =>
    obtain ⟨n, hn, hv⟩ := h
    exact ⟨n, fun hmem => hn (hts hmem), hv⟩

/-- Code that leaves the temporaries of the sum alone leaves the sum as it is. -/
theorem Added.keeps {dyn : Option Val} {ts : List Int} (h : Added dyn ts x s) (hk : Keeps ts s t) :
    Added dyn ts x t := by
  cases dyn with
  | none => exact h
  | some v =>
    obtain ⟨n, hn, hv, hx⟩ := h
    exact ⟨n, hn, hv, (hk.temp n hn).trans hx⟩

/-- A sum or a product has operands with values, and its value goes to a new temporary. -/
theorem completes_binaryTemp {op : BinOp} {f : Word → Word → Word}
    (hop : ∀ x y, Machine.binary op x y = .ok (f x y)) (h : binaryTemp l op r st = .ok (v, st₁))
    (hrun : Completes X (emitted st st₁) s t) :
    v = .temp st.counters.temps ∧ fresh st st₁ = [st.counters.temps] ∧
      ∃ x y, s.eval X l = some x ∧ s.eval X r = some y ∧ t = s.setTemp st.counters.temps (f x y) := by
  obtain ⟨rfl, rfl⟩ := binaryTemp_inv h
  rw [emitted_define] at hrun
  have hexec := hrun.of_single rfl
  refine ⟨rfl, fresh_define .., ?_⟩
  -- Without a value of an operand the statement would not complete.
  have hfault : s.eval X l = none ∨ s.eval X r = none → False := fun hnone => by
    rw [Run.exec_binary_fault hnone] at hexec
    cases hexec
  cases hl : s.eval X l with
  | none => exact (hfault (Or.inl hl)).elim
  | some x =>
    cases hr : s.eval X r with
    | none => exact (hfault (Or.inr hr)).elim
    | some y =>
      rw [Run.exec_binary hl hr (hop x y), Run.deliver_temp] at hexec
      cases hexec
      exact ⟨x, y, rfl, rfl, rfl⟩

/-- Adding one index to the sum is sealed code. -/
theorem sealed_sum {dyn : Option Val} {stride : Int}
    (hmul : binaryTemp v .mul (.const stride) st = .ok (p, st₁))
    (hsum : (dyn = none ∧ r = p ∧ st₂ = st₁) ∨
      ∃ a, dyn = some a ∧ binaryTemp a .add p st₁ = .ok (r, st₂)) :
    Sealed [] st st₁ ∧ Sealed [] st₁ st₂ := by
  refine ⟨seals_binaryTemp _ _ _ hmul, ?_⟩
  rcases hsum with ⟨-, -, rfl⟩ | ⟨a, -, hadd⟩
  · exact .refl _
  · exact seals_binaryTemp _ _ _ hadd

/-- The multiple of an index is added to the sum. -/
theorem completes_sum {dyn : Option Val} {stride : Int}
    (hmul : binaryTemp v .mul (.const stride) st = .ok (p, st₁))
    (hsum : (dyn = none ∧ r = p ∧ st₂ = st₁) ∨
      ∃ a, dyn = some a ∧ binaryTemp a .add p st₁ = .ok (r, st₂))
    (hrest : Sealed [] st₂ st') (hseg : Segment st st') (hx : Added dyn (fresh st st') x s)
    (hrun : Completes X (emitted st st') s t) :
    ∃ w u, s.eval X v = some w ∧ Completes X (emitted st₂ st') u t ∧
      Added (some r) (fresh st₂ st') (x + w * word stride) u ∧
      ∀ {es ws}, Reads X env es st₂ st' u t ws → Reads X env es st st' s t ws := by
  obtain ⟨hM, hA⟩ := sealed_sum hmul hsum
  obtain ⟨u, hrunM, hrunA⟩ := hseg.split hM (hA.trans hrest) hrun
  obtain ⟨rfl, hfresh, w, y, hw, hy, rfl⟩ :=
    completes_binaryTemp (f := (· * ·)) (fun _ _ => rfl) hmul hrunM
  rw [Run.State.eval_const] at hy
  cases hy
  -- the product is new: no later temporary is the same, and no earlier one was
  have hnew : st.counters.temps ∈ fresh st st₁ := by
    rw [hfresh]
    exact List.mem_singleton_self _
  have hlater := hseg.notMem_fresh hM (hA.trans hrest) hnew
  rcases hsum with ⟨rfl, rfl, rfl⟩ | ⟨a, rfl, hadd⟩
  · refine ⟨w, _, hw, hrunA, ⟨_, hlater, rfl, ?_⟩, fun h => .step hmul hrunM h⟩
    rw [Run.State.temp_setTemp_self, show x = 0 from hx, Int32.zero_add]
  · obtain ⟨n, hn, rfl, rfl⟩ := hx
    have hseg₁ := hseg.right hM (hA.trans hrest)
    obtain ⟨u, hrunA, hrunR⟩ := hseg₁.split hA hrest hrunA
    obtain ⟨rfl, hfresh', x, y, hx, hy, rfl⟩ :=
      completes_binaryTemp (f := (· + ·)) (fun _ _ => rfl) hadd hrunA
    have hne : n ≠ st.counters.temps := by
      rintro rfl
      rw [fresh_trans hM.temps (hA.trans hrest).temps] at hn
      exact hn (List.mem_append_left _ hnew)
    rw [Run.State.eval_temp, Run.State.temp_setTemp_of_ne hne] at hx
    rw [Run.State.eval_temp, Run.State.temp_setTemp_self] at hy
    cases hx
    cases hy
    have hlast : st₁.counters.temps ∉ fresh st₂ st' := by
      apply hseg₁.notMem_fresh hA hrest
      rw [hfresh']
      exact List.mem_singleton_self _
    refine ⟨w, _, hw, hrunR, ⟨_, hlast, rfl, ?_⟩, fun h => .step hmul hrunM (.step hadd hrunA h)⟩
    rw [Run.State.temp_setTemp_self]

/-- The row-major number of an element as a word, one index after the other. -/
theorem word_rowMajor (d : Decl) (i : Nat) (w : Word) (ks : List Int) :
    word (4 * d.rowMajor i (w.toInt :: ks)) =
      w * word (4 * d.stride i) + word (4 * d.rowMajor (i + 1) ks) := by
  rw [Decl.rowMajor, Int.mul_add, word_add, Int.mul_left_comm, Scene.word_mul, Meaning.word_toInt]

/-- The indexes give the constant offset and the computed sum, from dimension `i` on. -/
theorem reads_indexes {name : String} {pos : Pos} {d : Decl} {i : Nat} {off : Int} {dyn : Option Val}
    {q : Int × Option Val} (h : indexes env name pos d i off dyn (exprs env es) st = .ok (q, st'))
    (hseg : Segment st st') (hx : Added dyn (fresh st st') x s)
    (hrun : Completes X (emitted st st') s t) :
    ∃ ws y, Reads X env es st st' s t ws ∧ Added q.2 [] y t ∧
      word q.1 + y = word off + x + word (4 * d.rowMajor i (ws.map Int32.toInt)) := by
  -- On the indexes, with the offset and the sum gathered so far.
  induction es generalizing i off dyn st s x with
  | nil =>
    obtain ⟨rfl, rfl⟩ := pure_inv h
    have hnil : emitted st' st' = [] := emitted_eq (List.append_nil _).symm
    rw [hnil] at hrun
    obtain rfl := hrun.of_nil
    refine ⟨[], x, .done _ _, hx.mono (List.nil_subset _), ?_⟩
    exact (Int32.add_zero _).symm
  | cons e es ih =>
    have hsealing := fun e (_ : e ∈ es) => sealing_expr env e
    rcases Scene.indexes_inv h with ⟨c, hc, hrest⟩ | ⟨v, st₁, p, st₂, r, st₃, hv, hmul, hsum, hrest⟩
    · -- a constant index runs no code
      rw [Scene.const_expr] at hc
      obtain ⟨ws, y, hreads, hy, heq⟩ := ih hrest hseg hx hrun
      refine ⟨word c :: ws, y, .const hc hreads, hy, ?_⟩
      rw [heq, List.map_cons, word_rowMajor, word_wrap64, word_add, Scene.word_mul, word_wrap64]
      ac_rfl
    · -- the code of the index, what is added, and the code of the other indexes
      have hE : Sealed [] st st₁ := (sealing_expr env e).value [] hv
      have hR : Sealed [] st₃ st' :=
        seals_indexes name pos d (sealing_exprs hsealing) (i + 1) off (some r) hrest
      obtain ⟨hM, hA⟩ := sealed_sum hmul hsum
      have hrestE := hM.trans (hA.trans hR)
      obtain ⟨u, hrunE, hrunR⟩ := hseg.split hE hrestE hrun
      have hx' : Added dyn (fresh st₁ st') x u := by
        -- the code of the index writes none of the temporaries from before
        have hfresh := fresh_trans hE.temps hrestE.temps
        have hkeeps : Keeps (fresh st st') s u :=
          (hrunE.keeps hE.writes).mono (hfresh ▸ List.subset_append_left _ _)
        exact (hx.keeps hkeeps).mono (hfresh ▸ List.subset_append_right _ _)
      have hseg₁ := hseg.right hE hrestE
      obtain ⟨w, u', hw, hrunR, hsum', hput⟩ := completes_sum hmul hsum hR hseg₁ hx' hrunR
      obtain ⟨ws, y, hreads, hy, heq⟩ := ih hrest (hseg₁.right (hM.trans hA) hR) hsum' hrunR
      refine ⟨w :: ws, y, .computed hv hrunE hw (hput hreads), hy, ?_⟩
      rw [heq, List.map_cons, word_rowMajor, word_wrap64]
      ac_rfl

/-- The code of an address gives a base that is the constant offset away from the element. -/
theorem reads_address {id : VarId} {pos : Pos} {d : Decl} {base : Val} {off : Int}
    (h : address env id pos d (exprs env es) st = .ok ((base, off), st'))
    (hlen : (emitted st st').length ≤ 18446744073709551616)
    (hplace : X.place? id = some .array ∨ X.place? id = some .held)
    (hrun : Completes X (emitted st st') s t) :
    ∃ ws a b, Reads X env es st st' s t ws ∧ s.eval X (.var id) = some a ∧
      t.eval X base = some b ∧
      b + word off = a + word (4 * d.rowMajor 0 (ws.map Int32.toInt)) := by
  have hxs : ∀ x ∈ exprs env es, Sealing x := sealing_exprs fun e _ => sealing_expr env e
  have hadds : Adds env.decls [] (address env id pos d (exprs env es)) :=
    adds_address id pos d (codeOnly_exprs fun e _ => codeOnly_expr env.decls env e)
  have hseg : Segment st st' := .of_grown (hadds h).1 (seals_address id pos d hxs h) hlen
  obtain ⟨dyn, st₁, hindex, hbase⟩ := Scene.address_inv h
  have hI : Sealed [] st st₁ := seals_indexes _ _ _ hxs _ _ _ hindex
  have hB : Sealed [] st₁ st' := by
    rcases hbase with ⟨-, -, rfl⟩ | ⟨v, -, hadd⟩
    · exact .refl _
    · exact seals_binaryTemp _ _ _ hadd
  obtain ⟨u, hrunI, hrunB⟩ := hseg.split hI hB hrun
  obtain ⟨ws, y, hreads, hy, heq⟩ := reads_indexes hindex (hseg.left hI hB) (x := 0) rfl hrunI
  -- the variable of an array is not assigned by expressions
  obtain ⟨a, hs, hu⟩ : ∃ a, s.eval X (.var id) = some a ∧ u.eval X (.var id) = some a := by
    rcases hplace with hid | hid
    · exact ⟨X.addr id, Run.State.eval_array hid, Run.State.eval_array hid⟩
    · refine ⟨s.var id, Run.State.eval_held hid, ?_⟩
      rw [Run.State.eval_held hid, (hrunI.keeps hI.writes).var]
  have hoff : word off + y = word (4 * d.rowMajor 0 (ws.map Int32.toInt)) := by
    rw [heq]
    exact Int32.zero_add _
  rcases hbase with ⟨rfl, rfl, rfl⟩ | ⟨v, rfl, hadd⟩
  · have hnil : emitted st' st' = [] := emitted_eq (List.append_nil _).symm
    rw [hnil] at hrunB
    obtain rfl := hrunB.of_nil
    refine ⟨ws, a, a, hreads, hs, hu, ?_⟩
    rw [← hoff, show y = 0 from hy, Int32.add_zero]
  · obtain ⟨n, -, rfl, rfl⟩ := hy
    obtain ⟨rfl, -, b, c, hb, hc, rfl⟩ :=
      completes_binaryTemp (f := (· + ·)) (fun _ _ => rfl) hadd hrunB
    rw [hu] at hb
    cases hb
    cases hc
    refine ⟨ws, a, _, hreads.snoc hadd hrunB, hs, Run.State.eval_temp _, ?_⟩
    rw [Run.State.temp_setTemp_self, ← hoff]
    ac_rfl

end Runs

/-- **Addresses.**  Whatever indexes are constant and computed, base and offset of an access denote,
behind its code, the start of the array and four times the number of the element that the indexes
select.  In an array that fits into memory, index vectors correspond to words of the array. -/
theorem address_denotes {X : Setting α} {env : Env} :
    (∀ {id : VarId} {pos : Pos} {d : Decl} {es : List Expr} {st st' : State} {base : Val} {off : Int}
        {s t : Run.State α},
      address env id pos d (exprs env es) st = .ok ((base, off), st') →
      (emitted st st').length ≤ 18446744073709551616 →
      (X.place? id = some .array ∨ X.place? id = some .held) →
      Completes X (emitted st st') s t →
      ∃ ws a b, Reads X env es st st' s t ws ∧ s.eval X (.var id) = some a ∧
        t.eval X base = some b ∧
        b + word off = a + word (4 * d.rowMajor 0 (ws.map Int32.toInt))) ∧
    ∀ {d : Decl}, (∀ n ∈ d.dims, 0 < n) → 4 * d.dims.prod < 2147483648 →
      d.elems = d.dims.prod ∧
      Set.BijOn (fun ks => 4 * d.rowMajor 0 ks) {ks | Shape.Indexes d.dims ks}
        {x | 0 ≤ x ∧ x < 4 * d.elems ∧ 4 ∣ x} ∧
      Set.InjOn (fun ks => word (4 * d.rowMajor 0 ks)) {ks | Shape.Indexes d.dims ks} :=
  ⟨fun h hlen hplace hrun => reads_address h hlen hplace hrun, Decl.bijOn_rowMajor⟩

/-! ## An access with three indexes -/

/-- A parameter `m` of shape `[][3][4]` and two scalars `i` and `j`. -/
def cubeEnv : Env where
  decls := #[{ name := "m", dims := [0, 3, 4] }, { name := "i" }, { name := "j" }]
  func := { name := "get", params := [0, 1, 2] }
  globals := {}

/-- Nothing is generated yet, and the parameters have the first variables. -/
def cubeStart : State where
  vars := #[⟨"m", .arg, 0, some [0, 3, 4]⟩, ⟨"i", .arg, 1, none⟩, ⟨"j", .arg, 2, none⟩]
  counters := {}
  scope := (((Std.TreeMap.empty).insert 0 0).insert 1 1).insert 2 2

/-- The index vector `[i + 1][2][j]`. -/
def cubeIndex : List Expr :=
  [.binary .add (.lval 1 [] {}) (.num 1), .num 2, .lval 2 [] {}]

/-- A place to run where nothing answers. -/
def cubeSetting : Setting Unit where
  valid _ := false
  reply _ := none
  vars := cubeStart.vars
  addr _ := 0
  look _ _ := ()

/-- The array starts at 1000, `i` is five and `j` is three. -/
def cubeArgs : Run.State Unit where
  temp _ := 0
  var id := if id = 0 then 1000 else if id = 1 then 5 else 3
  world := ⟨fun _ => 0, []⟩

/-- The access `m[i + 1][2][j]`, and the elements of an array of shape `[2][3][4]`. -/
theorem address_denotes_cube : (∃ st' t ws a b,
    address cubeEnv 0 {} (cubeEnv.decls.at 0) (exprs cubeEnv cubeIndex) cubeStart =
      .ok ((.temp 4, 32), st') ∧
    Completes cubeSetting (emitted cubeStart st') cubeArgs t ∧
    Reads cubeSetting cubeEnv cubeIndex cubeStart st' cubeArgs t ws ∧
    cubeArgs.eval cubeSetting (.var 0) = some a ∧ t.eval cubeSetting (.temp 4) = some b ∧
    b + word 32 = a + word (4 * (cubeEnv.decls.at 0).rowMajor 0 (ws.map Int32.toInt))) ∧
    Set.BijOn (fun ks => 4 * ({ name := "a", dims := [2, 3, 4] } : Decl).rowMajor 0 ks)
      {ks | Shape.Indexes [2, 3, 4] ks} {x | 0 ≤ x ∧ x < 96 ∧ 4 ∣ x} := by
  constructor
  -- The three indexes multiply and add up in five statements.
  · have haddr : ∃ st', address cubeEnv 0 {} (cubeEnv.decls.at 0) (exprs cubeEnv cubeIndex) cubeStart =
        .ok ((.temp 4, 32), st') ∧ (emitted cubeStart st').length ≤ 18446744073709551616 ∧
        ∃ t, Completes cubeSetting (emitted cubeStart st') cubeArgs t :=
      ⟨_, rfl, by decide, _, 5, rfl⟩
    obtain ⟨st', haddr, hlen, t, hrun⟩ := haddr
    obtain ⟨ws, a, b, hreads⟩ := address_denotes.1 haddr hlen (Or.inr rfl) hrun
    exact ⟨st', t, ws, a, b, haddr, hrun, hreads⟩
  · have hfits := (@address_denotes Unit cubeSetting cubeEnv).2
      (d := { name := "a", dims := [2, 3, 4] }) (by decide) (by decide)
    exact hfits.2.1

end Generate

end Tac.Tree
