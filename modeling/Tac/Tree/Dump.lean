import Std.Data.TreeMap
import Tac.Tree
import Tac.Wire

/-!
# Canonical form of a function

The canonical form writes a function tree as nested lists.  Parameters and locals are numbered in
the order of their declarations, so their names do not matter; all other variables are named.
Positions are left out.  Equal forms mean equal functions, which is how hand-written replacements
find the functions they replace; a 64-bit hash of the form serves as a short key.
-/

namespace Tac.Tree

/-- The numbers of the declarations met so far. -/
abbrev Numbering := Std.TreeMap Nat Nat

namespace Dump

/-- Integers between brackets. -/
def dims (ns : List Int) : String := "[" ++ " ".intercalate (ns.map Text.decimal) ++ "]"

/-- A truth value. -/
def bool (b : Bool) : String := if b then "true" else "false"

/-- How a variable opens: by number when it was declared in the function, by name otherwise. -/
def varHead (ds : Decls) (num : Numbering) (d : DeclId) : String :=
  match num[d]? with
  | some n => "(var " ++ Text.decimal n
  | none => "(global " ++ (ds.at d).name

mutual

/-- An expression. -/
def expr (ds : Decls) (num : Numbering) : Expr → String
  | .absent => "0"
  | .num n => Text.decimal n
  | .lval d index _ => varHead ds num d ++ exprs ds num index ++ ")"
  | .call name _ args _ => "(call " ++ name ++ exprs ds num args ++ ")"
  | .unary op x => "(" ++ op.text ++ " " ++ expr ds num x ++ ")"
  | .binary op l r => "(" ++ op.text ++ " " ++ expr ds num l ++ " " ++ expr ds num r ++ ")"

/-- Expressions, a blank before each. -/
def exprs (ds : Decls) (num : Numbering) : List Expr → String
  | [] => ""
  | e :: es => " " ++ expr ds num e ++ exprs ds num es

end

/-- A declaration, which gets the next number. -/
def decl (ds : Decls) (num : Numbering) (d : DeclId) : String × Numbering :=
  let n := num.size
  let num := num.insert d n
  let x := ds.at d
  ("(def " ++ Text.decimal n ++ " " ++ bool x.const ++ " " ++ dims x.dims ++
    (match x.init with | some es => " (init" ++ exprs ds num es ++ ")" | none => "") ++ ")", num)

mutual

/-- A statement, with the numbers known after it. -/
def node (ds : Decls) (num : Numbering) : Node → String × Numbering
  | .skip => ("()", num)
  | .declare d => decl ds num d
  | .block items =>
    let (s, num) := nodes ds num items
    ("(block" ++ s ++ ")", num)
  | .assign d index _ value _ =>
    ("(= " ++ varHead ds num d ++ exprs ds num index ++ ") " ++ expr ds num value ++ ")", num)
  | .eval x => ("(expr " ++ expr ds num x ++ ")", num)
  | .cond c yes no =>
    let (y, num') := node ds num yes
    let (n, num'') := node ds num' no
    ("(if " ++ expr ds num c ++ " " ++ y ++ " " ++ n ++ ")", num'')
  | .loop c body =>
    let (b, num') := node ds num body
    ("(while " ++ expr ds num c ++ " " ++ b ++ ")", num')
  | .leave _ => ("(break)", num)
  | .again _ => ("(continue)", num)
  | .ret none _ => ("(return)", num)
  | .ret (some v) _ => ("(return " ++ expr ds num v ++ ")", num)

/-- Statements, a blank before each. -/
def nodes (ds : Decls) (num : Numbering) : List Node → String × Numbering
  | [] => ("", num)
  | s :: ss =>
    let (a, num) := node ds num s
    let (b, num) := nodes ds num ss
    (" " ++ a ++ b, num)

end

/-- Parameters, a blank before each. -/
def params (ds : Decls) (num : Numbering) : List DeclId → String × Numbering
  | [] => ("", num)
  | d :: rest =>
    let (a, num) := decl ds num d
    let (b, num) := params ds num rest
    (" " ++ a ++ b, num)

end Dump

/-- The canonical form of a function. -/
def FuncDef.dump (ds : Decls) (f : FuncDef) : String :=
  let (ps, num) := Dump.params ds {} f.params
  let (body, _) := Dump.nodes ds num f.body
  "(func " ++ f.name ++ " " ++ Dump.bool f.void ++ " (params" ++ ps ++ ") (block" ++ body ++ "))"

/-- The 64-bit key of a byte sequence: each byte is added in by exclusive or and the result is
multiplied by a prime. -/
def hashBytes (bytes : List UInt8) : UInt64 :=
  bytes.foldl (fun h b => (h ^^^ b.toUInt64) * 1099511628211) 14695981039346656037

/-- The key of a function's canonical form. -/
def FuncDef.hash (ds : Decls) (f : FuncDef) : UInt64 := hashBytes (f.dump ds).toUTF8.toList

/-- A key as sixteen hexadecimal digits. -/
def hashText (h : UInt64) : String := Text.hexDigits 16 h.toNat

end Tac.Tree
