import Mathlib
import Tac.Proofs.Evaluation

/-!
# Single constructs of trees

What one statement or one operator does, given what its parts do.  With these a tree that is known in
full is evaluated statement by statement.

* **`nodes_next`, `nodes_returned`** — the first of several statements.
* **`node_cond`, `node_ret`, `turns_again`, `turns_done`** — decisions, returns and loops.
* **`expr_arith`** — operators that are not logical.
-/

namespace Tac.Tree.Meaning

variable {C : Context} {n : Nat} {s s₁ : Store} {x y z : Word} {e l r : Expr}

/-- A statement that goes on leads to the next. -/
theorem nodes_next {c : Node} {cs : List Node} (h : node C n c s = .ok (.next, s₁)) :
    nodes C n (c :: cs) s = nodes C n cs s₁ := by
  rw [nodes, bind_of_ok h]

/-- A statement that returns ends the list. -/
theorem nodes_returned {c : Node} {cs : List Node} {v : Option Word}
    (h : node C n c s = .ok (.returned v, s₁)) :
    nodes C n (c :: cs) s = .ok (.returned v, s₁) := by
  rw [nodes, bind_of_ok h]
  rfl

/-- A conditional goes by the value of its test. -/
theorem node_cond {yes no : Node} (h : value C e s = .ok (x, s₁)) :
    node C n (.cond e yes no) s = if x = 0 then node C n no s₁ else node C n yes s₁ := by
  rw [node, bind_of_ok h]
  split <;> rfl

/-- A return ends with the value of its expression. -/
theorem node_ret {pos : Pos} (h : value C e s = .ok (x, s₁)) :
    node C n (.ret (some e) pos) s = .ok (.returned (some x), s₁) := by
  rw [node, bind_of_ok h]
  rfl

/-- A loop goes on with what its body leaves. -/
theorem turns_again {test : Act Word} {body : Act Control} {s₂ : Store} (h : test s = .ok (x, s₁))
    (hx : x ≠ 0) (hbody : body s₁ = .ok (.next, s₂)) :
    turns test body (n + 1) s = turns test body n s₂ := by
  rw [turns, bind_of_ok h, if_neg hx, bind_of_ok hbody]

/-- A loop ends when its test is zero. -/
theorem turns_done {test : Act Word} {body : Act Control} (h : test s = .ok (0, s₁)) :
    turns test body (n + 1) s = .ok (.next, s₁) := by
  rw [turns, bind_of_ok h, if_pos rfl]
  rfl

/-- An expression that leaves the world alone has its value. -/
theorem value_of_expr (h : expr C s.loc (mentions e) e s.world = .ok (x, s.world)) :
    value C e s = .ok (x, s) := by
  unfold value evaluate
  simp only [h]

/-- Operators that are not logical evaluate both operands. -/
theorem expr_arith {loc : Locals} {frozen : List DeclId} {w : Run.World Unit} {op : BinOp}
    (hop : op ≠ .and ∧ op ≠ .or) (hl : expr C loc frozen l w = .ok (x, w))
    (hr : expr C loc frozen r w = .ok (y, w)) (hz : operate op x y = some z) :
    expr C loc frozen (.binary op l r) w = .ok (z, w) := by
  have harith : expr C loc frozen (.binary op l r) w =
      arith op (expr C loc frozen l) (expr C loc frozen r) w := by
    rw [expr]
    cases op <;> first | rfl | exact absurd rfl hop.1 | exact absurd rfl hop.2
  rw [harith, arith, bind_of_ok hl, bind_of_ok hr, hz]
  rfl

end Tac.Tree.Meaning
