import Mathlib
import Tac.Proofs.Constructs
import Tac.Proofs.Operands
import Tac.Machine.Run

/-!
# The loop of the word copy

The tree of the word copy counts an index and computes both addresses from it.  Here the loop is stated
with loads and stores of the machine, whatever the addresses are.

* **`copyLoop`** — the loop.
* **`end_le`** — the source of a loop that succeeds ends inside the memory.
* **`function_memmoveRef`** — the tree does what the loop does, for positions that are indexes of the
  tree: those that are not negative and do not wrap around.
-/

namespace Tac

open Machine

/-! ## The loop -/

/-- Counting up below a bound does not wrap. -/
theorem toInt_succ {i n : Word} (h : i < n) : (i + 1).toInt = i.toInt + 1 := by
  have hlt := Int32.lt_iff_toInt_lt.1 h
  have hn := Int32.toInt_lt n
  have hi := Int32.le_toInt i
  exact toInt_add_word (n := 1) (by omega) (by omega)

namespace Builtin

/-- Copies words in ascending order while the index `i` is below `len`: word `i` of `src` becomes word
`pos + i` of `dst`.  Addresses wrap around. -/
def copyLoop (m : Machine) (dst pos src len i : Word) : Except TrapCause (Machine × Word) :=
  if _h : i < len then
    match m.load (src + 4 * i) with
    | .error e => .error e
    | .ok x =>
      match m.store (dst + 4 * (pos + i)) x with
      | .error e => .error e
      | .ok m => copyLoop m dst pos src len (i + 1)
  else .ok (m, i)
termination_by (len.toInt - i.toInt).toNat
decreasing_by
  have hi := toInt_succ _h
  have hlt := Int32.lt_iff_toInt_lt.1 _h
  omega

section Loop

variable {m m' : Machine} {dst pos src len i r : Word}

theorem copyLoop_of_le (h : ¬ i < len) : copyLoop m dst pos src len i = .ok (m, i) := by
  rw [copyLoop, dif_neg h]

/-- One turn of the loop copies one word. -/
theorem copyLoop_of_lt (h : i < len) {j k : Nat} (hj : m.wordIndex? (src + 4 * i) = some j)
    (hk : m.wordIndex? (dst + 4 * (pos + i)) = some k) : copyLoop m dst pos src len i =
      copyLoop { m with mem := m.mem.set k (m.mem.get j) } dst pos src len (i + 1) := by
  rw [copyLoop, dif_pos h]
  simp only [load, store, hj, hk]

/-- A turn of a loop that succeeds. -/
theorem copyLoop_turn (h : i < len) (hloop : copyLoop m dst pos src len i = .ok (m', r)) :
    ∃ j k, m.wordIndex? (src + 4 * i) = some j ∧ m.wordIndex? (dst + 4 * (pos + i)) = some k ∧
      copyLoop { m with mem := m.mem.set k (m.mem.get j) } dst pos src len (i + 1) = .ok (m', r) := by
  rw [copyLoop, dif_pos h] at hloop
  simp only [load, store] at hloop
  -- Either address may miss the memory, and then the loop fails.
  cases hj : m.wordIndex? (src + 4 * i) with
  | none => simp [hj] at hloop
  | some j =>
    cases hk : m.wordIndex? (dst + 4 * (pos + i)) with
    | none => simp [hj, hk] at hloop
    | some k =>
      simp only [hj, hk] at hloop
      exact ⟨j, k, rfl, rfl, hloop⟩

/-- A word has one byte address. -/
theorem wordIndex?_injective {a b : Word} {k : Nat} (ha : m.wordIndex? a = some k)
    (hb : m.wordIndex? b = some k) : a = b := by
  have htoInt : ∀ {c : Word}, m.wordIndex? c = some k → c.toInt = 4 * k := by
    intro c hc
    unfold wordIndex? at hc
    simp only at hc
    split at hc
    · cases hc
    · obtain rfl := Option.some.inj hc
      omega
  exact Int32.toInt_inj.1 ((htoInt ha).trans (htoInt hb).symm)

/-- A byte address of a word of memory is that of the word. -/
theorem toInt_of_wordIndex? {a : Word} {j : Nat} (h : m.wordIndex? a = some j) :
    a.toInt + 4 ≤ 4 * m.mem.size := by
  unfold wordIndex? at h
  simp only at h
  split at h
  · cases h
  · omega

/-- The source of a loop that succeeds ends inside the memory, and its addresses do not wrap around. -/
theorem end_le (hsize : 4 * m.mem.size < 2147483648) (h : i < len)
    (hloop : copyLoop m dst pos src len i = .ok (m', r)) :
    (src + 4 * i).toInt + 4 * (len.toInt - i.toInt) ≤ 4 * m.mem.size := by
  -- the induction is on the turns that are left
  obtain ⟨n, hn⟩ : ∃ n : Nat, len.toInt - i.toInt = n + 1 := by
    have hlt := Int32.lt_iff_toInt_lt.1 h
    exact ⟨(len.toInt - i.toInt - 1).toNat, by omega⟩
  -- On the words that are left; the index stays at most the length.
  induction n generalizing m i with
  | zero =>
    obtain ⟨j, k, hj, -, -⟩ := copyLoop_turn h hloop
    have := toInt_of_wordIndex? hj
    omega
  | succ n ih =>
    obtain ⟨j, k, hj, -, hloop'⟩ := copyLoop_turn h hloop
    have hle := toInt_of_wordIndex? hj
    have hi := toInt_succ h
    have hnext : i + 1 < len := by
      rw [Int32.lt_iff_toInt_lt]
      omega
    have hend := ih (m := { m with mem := m.mem.set k (m.mem.get j) }) hsize hnext hloop' (by omega)
    have haddr : (src + 4 * (i + 1)).toInt = (src + 4 * i).toInt + 4 := by
      have hmin := Int32.le_toInt (src + 4 * i)
      rw [show src + 4 * (i + 1) = src + 4 * i + word 4 by grind [word]]
      exact toInt_add_word (by omega) (by omega)
    rw [haddr] at hend
    have hsame : ({ m with mem := m.mem.set k (m.mem.get j) } : Machine).mem.size = m.mem.size := rfl
    omega

end Loop

/-! ## The tree -/

open Tac.Tree Tac.Tree.Meaning

/-- The memory by address. -/
def wordAt (m : Machine) (a : Word) : Word :=
  match m.wordIndex? a with
  | some k => m.mem.get k
  | none => 0

/-- Writing a word changes the word at its address only. -/
theorem wordAt_set {m : Machine} {a x : Word} {k : Nat} (ha : m.wordIndex? a = some k) :
    wordAt { m with mem := m.mem.set k x } = Function.update (wordAt m) a x := by
  funext b
  have hsame : ({ m with mem := m.mem.set k x } : Machine).wordIndex? b = m.wordIndex? b := rfl
  unfold wordAt
  rw [hsame, Function.update_apply]
  -- Different addresses are different words of memory.
  by_cases hb : b = a
  · subst hb
    simp only [ha, if_true, Memory.get_set]
  · rw [if_neg hb]
    cases hj : m.wordIndex? b with
    | none => rfl
    | some j =>
      have hne : k ≠ j := by
        rintro rfl
        exact hb (wordIndex?_injective hj ha)
      simp only [Memory.get_set, if_neg hne]

/-- What the tree is evaluated in: the memory of a machine. -/
def copyContext (m : Machine) : Context where
  decls := memmoveDecls
  globals := []
  params := memmoveRef.params
  addr _ := 0
  host := { valid := fun a => (m.wordIndex? a).isSome, reply := fun _ => none }

/-- The locals of the tree with `i` words copied. -/
def copyLocals (dst pos src len i : Word) : Locals := fun d => [dst, pos, src, len, i][d]?

section Tree

variable {m m' : Machine} {dst pos src len i r : Word} {frozen : List DeclId} {w : Run.World Unit}

/-- What a scalar of the loop evaluates to. -/
theorem expr_local {d : DeclId} {x : Word} (hd : d = 1 ∨ d = 3 ∨ d = 4)
    (hx : copyLocals dst pos src len i d = some x) :
    expr (copyContext m) (copyLocals dst pos src len i) frozen (ref d) w = .ok (x, w) := by
  have hread : expr (copyContext m) (copyLocals dst pos src len i) frozen (ref d) w =
      the (copyLocals dst pos src len i d) w := by
    rcases hd with rfl | rfl | rfl <;> rfl
  rw [hread, hx]
  rfl

/-- The address of an element of one of the two arrays. -/
theorem address_element {d : DeclId} (hd : d = 0 ∨ d = 2) {base v : Word} {index : Eval (List Word)}
    (hbase : copyLocals dst pos src len i d = some base) (hindex : index w = .ok ([v], w))
    (hv : 0 ≤ v.toInt) :
    address (copyContext m) (copyLocals dst pos src len i) d index w = .ok (base + 4 * v, w) := by
  have hin : inRange ((copyContext m).decls.at d) [v] = true := by
    rcases hd with rfl | rfl <;> simpa [inRange, copyContext, memmoveDecls, Decls.at, inside] using hv
  have hoffset : offset ((copyContext m).decls.at d) 0 [v] = v * word 4 + 0 := by
    rcases hd with rfl | rfl <;> rfl
  have hheld : (copyContext m).base (copyLocals dst pos src len i) d = some base := by
    rw [← hbase]
    rcases hd with rfl | rfl <;> rfl
  rw [address, bind_of_ok hindex, hin, hoffset, hheld]
  show Except.ok (base + (v * word 4 + 0), w) = _
  rw [show base + (v * word 4 + 0) = base + 4 * v by grind [word]]

/-- What the element to be copied evaluates to. -/
theorem expr_source (hi : 0 ≤ i.toInt) {j : Nat} (hj : m.wordIndex? (src + 4 * i) = some j) :
    expr (copyContext m) (copyLocals dst pos src len i) frozen (.lval 2 [ref 4] {}) w =
      .ok (w.mem (src + 4 * i), w) := by
  have haddr : address (copyContext m) (copyLocals dst pos src len i) 2
      (exprs (copyContext m) (copyLocals dst pos src len i) frozen [ref 4]) w =
        .ok (src + 4 * i, w) :=
    address_element (Or.inr rfl) rfl rfl hi
  have hread : expr (copyContext m) (copyLocals dst pos src len i) frozen (.lval 2 [ref 4] {}) w =
      (do fetch (copyContext m) (← address (copyContext m) (copyLocals dst pos src len i) 2
        (exprs (copyContext m) (copyLocals dst pos src len i) frozen [ref 4])) : Eval Word) w := rfl
  have hload : w.load (copyContext m).host (src + 4 * i) = some (w.mem (src + 4 * i)) :=
    if_pos (by show (m.wordIndex? _).isSome = true; rw [hj]; rfl)
  rw [hread, bind_of_ok haddr]
  show the (w.load (copyContext m).host (src + 4 * i)) w = _
  rw [hload]
  rfl

/-- The body of the loop. -/
def copyBody : Node := .block [
  .assign 0 [.binary .add (ref 1) (ref 4)] {} (.lval 2 [ref 4] {}) {},
  .assign 4 [] {} (.binary .add (ref 4) (.num 1)) {}]

/-- Counting up changes the counter only. -/
theorem update_copyLocals (x : Word) :
    Function.update (copyLocals dst pos src len i) 4 (some x) = copyLocals dst pos src len x := by
  funext d
  by_cases hd : d = 4
  · subst hd
    rfl
  · rw [Function.update_of_ne hd]
    match d, hd with
    | 0, _ | 1, _ | 2, _ | 3, _ => rfl
    | d + 5, _ => rfl

variable (len) in
/-- The body copies one word, if both addresses are those of words. -/
theorem node_copyBody {n : Nat} {j k : Nat} (hi : 0 ≤ i.toInt) (hpos : 0 ≤ (pos + i).toInt)
    (hj : m.wordIndex? (src + 4 * i) = some j) (hk : m.wordIndex? (dst + 4 * (pos + i)) = some k) :
    ∃ w', node (copyContext m) n copyBody ⟨copyLocals dst pos src len i, w⟩ =
      .ok (.next, ⟨copyLocals dst pos src len (i + 1), w'⟩) ∧
      w'.mem = Function.update w.mem (dst + 4 * (pos + i)) (w.mem (src + 4 * i)) := by
  obtain ⟨w', hstore, hmem⟩ : ∃ w', w.store (copyContext m).host (dst + 4 * (pos + i))
      (w.mem (src + 4 * i)) = some w' ∧
        w'.mem = Function.update w.mem (dst + 4 * (pos + i)) (w.mem (src + 4 * i)) :=
    ⟨_, if_pos (by show (m.wordIndex? _).isSome = true; rw [hk]; rfl), rfl⟩
  refine ⟨w', ?_, hmem⟩
  -- The source is read before the target is written, so they may overlap.
  have hvalue : ∀ frozen, evaluate (fun loc => expr (copyContext m) loc frozen (.lval 2 [ref 4] {}))
      ⟨copyLocals dst pos src len i, w⟩ =
        .ok (w.mem (src + 4 * i), ⟨copyLocals dst pos src len i, w⟩) := by
    intro frozen
    unfold evaluate
    simp only [expr_source hi hj]
  have htarget : ∀ frozen, evaluate (fun loc => address (copyContext m) loc 0
      (exprs (copyContext m) loc frozen [.binary .add (ref 1) (ref 4)]))
        ⟨copyLocals dst pos src len i, w⟩ =
          .ok (dst + 4 * (pos + i), ⟨copyLocals dst pos src len i, w⟩) := by
    intro frozen
    unfold evaluate
    simp only [address_element (m := m) (w := w) (i := i) (Or.inl rfl) rfl
      (show exprs (copyContext m) (copyLocals dst pos src len i) frozen
        [.binary .add (ref 1) (ref 4)] w = .ok ([pos + i], w) from rfl) hpos]
  have hput : Meaning.put (copyContext m) (dst + 4 * (pos + i)) (w.mem (src + 4 * i))
      ⟨copyLocals dst pos src len i, w⟩ = .ok ((), ⟨copyLocals dst pos src len i, w'⟩) := by
    unfold Meaning.put
    simp only [hstore]
  have hassign : node (copyContext m) n
      (.assign 0 [.binary .add (ref 1) (ref 4)] {} (.lval 2 [ref 4] {}) {})
        ⟨copyLocals dst pos src len i, w⟩ = .ok (.next, ⟨copyLocals dst pos src len i, w'⟩) :=
    bind_of_ok ((bind_of_ok (hvalue _)).trans ((bind_of_ok (htarget _)).trans hput))
  rw [copyBody, node, nodes_next hassign, ← update_copyLocals (i := i) (i + 1)]
  rfl

/-- The turns that are left copy what the loop copies. -/
theorem turns_copy {m₀ : Machine} (body k : Nat) (hi : 0 ≤ i.toInt) (hpos : 0 ≤ pos.toInt)
    (hfits : pos.toInt + len.toInt < 2147483648) (hk : len.toInt - i.toInt < k) (hk0 : 0 < k)
    (hsize : m.mem.size = m₀.mem.size)
    (hcopy : copyLoop m dst pos src len i = .ok (m', r)) (hw : w.mem = wordAt m) :
    ∃ w', turns (value (copyContext m₀) (.binary (.cmp .lt) (ref 4) (ref 3)))
        (node (copyContext m₀) body copyBody) k ⟨copyLocals dst pos src len i, w⟩ =
      .ok (.next, ⟨copyLocals dst pos src len r, w'⟩) ∧ w'.mem = wordAt m' := by
  have hsame : ∀ a, m₀.wordIndex? a = m.wordIndex? a := fun a => by
    unfold wordIndex?
    rw [hsize]
  have htest : ∀ i w, value (copyContext m₀) (.binary (.cmp .lt) (ref 4) (ref 3))
      ⟨copyLocals dst pos src len i, w⟩ =
        .ok (Word.ofBool (decide (i < len)), ⟨copyLocals dst pos src len i, w⟩) := fun i w =>
    value_of_expr rfl
  -- the induction is on the turns that may be taken
  induction k generalizing m i w with
  | zero => exact absurd hk0 (lt_irrefl 0)
  | succ k ih =>
    by_cases h : i < len
    · obtain ⟨j, l, hj, hl, hcopy'⟩ := copyLoop_turn h hcopy
      have hlt := Int32.lt_iff_toInt_lt.1 h
      have hnext := toInt_succ h
      have hsum : (pos + i).toInt = pos.toInt + i.toInt := by
        have := toInt_add_word (a := pos) (n := i.toInt) (by omega) (by omega)
        rwa [show word i.toInt = i from Int32.ofInt_toInt i] at this
      obtain ⟨w₁, hbody, hmem₁⟩ := node_copyBody len (m := m₀) (w := w) (n := body) hi
        (by omega) ((hsame _).trans hj) ((hsame _).trans hl)
      have hw₁ : w₁.mem = wordAt { m with mem := m.mem.set l (m.mem.get j) } := by
        rw [hmem₁, wordAt_set hl, hw]
        have hload : wordAt m (src + 4 * i) = m.mem.get j := by
          unfold wordAt
          rw [hj]
        rw [hload]
      have htrue : Word.ofBool (decide (i < len)) ≠ 0 := by simp [Word.ofBool, h]
      obtain ⟨w', hturns, hw'⟩ := ih
        (m := { m with mem := m.mem.set l (m.mem.get j) }) (by omega) (by omega) (by omega) hsize hcopy'
        hw₁ hsame
      exact ⟨w', (turns_again (htest i w) htrue hbody).trans hturns, hw'⟩
    · have hfalse : Word.ofBool (decide (i < len)) = 0 := by simp [Word.ofBool, h]
      rw [copyLoop_of_le h] at hcopy
      cases hcopy
      exact ⟨w, turns_done (hfalse ▸ htest _ w), hw⟩

/-- **The tree.**  For positions that are not negative and do not wrap around, `memmoveRef` leaves the
memory that the loop leaves and returns what it returns. -/
theorem function_memmoveRef {n : Nat} (hpos : 0 ≤ pos.toInt)
    (hfits : pos.toInt + len.toInt < 2147483648) (hn : len.toInt < n) (hn0 : 0 < n)
    (hcopy : copyLoop m dst pos src len 0 = .ok (m', r)) {trace : List (Run.Event Unit)}
    {x : Option Word} :
    ∃ s', function (copyContext m) memmoveRef n
        ⟨Function.update (copyLocals dst pos src len 0) 4 x, ⟨wordAt m, trace⟩⟩ = .ok (some r, s') ∧
      s'.world.mem = wordAt m' := by
  -- The counter starts at zero whatever was there before.
  have hdeclare : node (copyContext m) n (.declare 4)
      ⟨Function.update (copyLocals dst pos src len 0) 4 x, ⟨wordAt m, trace⟩⟩ =
        .ok (.next, ⟨copyLocals dst pos src len 0, ⟨wordAt m, trace⟩⟩) := by
    show Except.ok (Meaning.Control.next, (⟨Function.update (Function.update (Function.update
      (copyLocals dst pos src len 0) 4 x) 4 none) 4 (some 0), ⟨wordAt m, trace⟩⟩ : Store)) = _
    rw [Function.update_idem, Function.update_idem, update_copyLocals]
  obtain ⟨w', hturns, hw'⟩ := turns_copy (m := m) (w := ⟨wordAt m, trace⟩) n n le_rfl hpos
    hfits (by simpa using hn) hn0 rfl hcopy rfl
  have hloop : node (copyContext m) n (.loop (.binary (.cmp .lt) (ref 4) (ref 3)) copyBody)
      ⟨copyLocals dst pos src len 0, ⟨wordAt m, trace⟩⟩ =
        .ok (.next, ⟨copyLocals dst pos src len r, w'⟩) := by
    rw [node]
    exact hturns
  have hret : node (copyContext m) n (.ret (some (ref 4)) {}) ⟨copyLocals dst pos src len r, w'⟩ =
      .ok (.returned (some r), ⟨copyLocals dst pos src len r, w'⟩) :=
    node_ret (value_of_expr (expr_local (Or.inr (Or.inr rfl)) rfl))
  have hbody : nodes (copyContext m) n memmoveRef.body
      ⟨Function.update (copyLocals dst pos src len 0) 4 x, ⟨wordAt m, trace⟩⟩ =
        .ok (.returned (some r), ⟨copyLocals dst pos src len r, w'⟩) :=
    (nodes_next hdeclare).trans ((nodes_next hloop).trans (nodes_returned hret))
  refine ⟨⟨copyLocals dst pos src len r, w'⟩, ?_, hw'⟩
  rw [function, bind_of_ok hbody]
  rfl

end Tree

end Builtin

end Tac
