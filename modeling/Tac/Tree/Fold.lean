import Tac.Arithmetic
import Tac.Tree

/-!
# Constant expressions

An expression is constant when it is built from literals, operators and elements of constant
declarations.  Operators compute on 32-bit words; minus and not keep the full width of literals.

An initial value may refer to other elements, of the same constant or of others, so folding follows
a chain of elements.  Its length is at most their number, as no element depends on itself.
-/

namespace Tac.Tree

/-- The value of a constant expression, nothing for any other one, or a fault for a constant with
more indexes than dimensions. -/
abbrev Folded := Except Malformed (Option Int)

namespace Fold

/-- A truth value as a number. -/
def ofBool (b : Bool) : Int := if b then 1 else 0

/-- A binary operator on constants; division by zero has no value. -/
def binary (op : BinOp) (l r : Int) : Option Int :=
  let x := word l
  let y := word r
  match op with
  | .add => some (x + y).toInt
  | .sub => some (x - y).toInt
  | .mul => some (x * y).toInt
  | .div => if y = 0 then none else some (x / y).toInt
  | .mod => if y = 0 then none else some (x % y).toInt
  | .cmp rel => some (ofBool (rel.holds x y))
  | .and => some (ofBool (x != 0 && y != 0))
  | .or => some (ofBool (x != 0 || y != 0))

/-- A unary operator on a constant. -/
def unary (op : UnOp) (x : Int) : Int :=
  match op with
  | .neg => wrap64 (-x)
  | .not => ofBool (x == 0)
  | .plus => x

/-- The element number that constant indexes select, counted from number `i` on; `k` is the sum of
those before. -/
def element (d : Decl) : Nat → Int → List Folded → Folded
  | _, k, [] => .ok (some k)
  | i, k, c :: cs =>
    match c with
    | .error e => .error e
    | .ok none => .ok none
    | .ok (some c) =>
      if i < d.dims.length then element d (i + 1) (wrap64 (k + c * d.stride i)) cs
      else .error .malformed

/-- The value of the element that indexes select in a declaration, where `look` gives the value of
an initial expression. -/
def select (look : Expr → Folded) (d : Decl) (index : List Folded) : Folded :=
  match d.const, d.init with
  | true, some init =>
    match element d 0 0 index with
    | .error e => .error e
    | .ok none => .ok none
    | .ok (some k) =>
      if index.length ≠ d.dims.length ∨ k < 0 ∨ d.elems ≤ k then .ok none
      else match init[k.toNat]? with
        | none => .ok (some 0)
        | some e => look e
  | _, _ => .ok none

mutual

/-- The value of an expression, where `look` gives the value of an initial expression. -/
def expr (ds : Decls) (look : Expr → Folded) : Expr → Folded
  | .absent => .ok (some 0)
  | .num n => .ok (some n)
  | .lval d index _ => select look (ds.at d) (exprs ds look index)
  | .call .. => .ok none
  | .unary op x =>
    match expr ds look x with
    | .ok (some v) => .ok (some (unary op v))
    | r => r
  | .binary op l r =>
    match expr ds look l with
    | .ok (some x) =>
      match expr ds look r with
      | .ok (some y) => .ok (binary op x y)
      | r => r
    | l => l

/-- The values of expressions. -/
def exprs (ds : Decls) (look : Expr → Folded) : List Expr → List Folded
  | [] => []
  | e :: es => expr ds look e :: exprs ds look es

end

/-- The value of an expression through at most `depth - 1` initial values. -/
def within (ds : Decls) : Nat → Expr → Folded
  | 0, _ => .ok none
  | depth + 1, e => expr ds (within ds depth) e

end Fold

/-- How many initial values the declarations have. -/
def Decls.initCount (ds : Decls) : Nat :=
  ds.foldl (fun n d => n + (d.init.getD []).length) 0

/-- The value of a constant expression. -/
def Expr.fold (ds : Decls) (e : Expr) : Folded := Fold.within ds (ds.initCount + 1) e

end Tac.Tree
