import Tac.Operator
import Tac.Text.Decimal
import Tac.Word

/-!
# Syntax trees

The resolved tree of a program: every use of a variable names its declaration.  Declarations are
kept in a table, and a use holds the position in it, so two declarations of one name stay apart.
-/

namespace Tac

/-- An input that breaks what its producer promises, so that no answer makes sense. -/
inductive Malformed where
  | malformed
deriving DecidableEq, Repr

/-- A place in the source; line zero means unknown. -/
structure Pos where
  line : Int := 0
  col : Int := 0
deriving DecidableEq, Inhabited, Repr

namespace Pos

/-- A known place as line and column; nothing for an unknown one. -/
def text (p : Pos) : String :=
  if p.line = 0 then "" else Text.decimal p.line ++ ":" ++ Text.decimal p.col

end Pos

namespace Tree

/-- The position of a declaration in the table. -/
abbrev DeclId := Nat

/-- What a call knows of the function it names. -/
structure Signature where
  params : Nat
  void : Bool
deriving DecidableEq, Inhabited, Repr

/-- An expression. -/
inductive Expr where
  /-- Nothing, which counts as zero. -/
  | absent
  | num (n : Int)
  /-- A variable, or an element or a part of an array. -/
  | lval (decl : DeclId) (index : List Expr) (pos : Pos)
  /-- A call; functions of the environment have no signature. -/
  | call (name : String) (callee : Option Signature) (args : List Expr) (pos : Pos)
  | unary (op : UnOp) (x : Expr)
  | binary (op : BinOp) (l r : Expr)
deriving Inhabited, Repr

/-- A declaration. -/
structure Decl where
  name : String
  const : Bool := false
  /-- The shape of an array, empty for scalars.  Array parameters start with zero. -/
  dims : List Int := []
  /-- The initial values in row-major order; an absent one means zero. -/
  init : Option (List Expr) := none
  pos : Pos := {}
deriving Inhabited, Repr

namespace Decl

/-- Whether the declared variable is an array. -/
def isArray (d : Decl) : Bool := !d.dims.isEmpty

/-- The number of words that the variable occupies. -/
def elems (d : Decl) : Int := wrapProduct d.dims

/-- The distance in elements between neighbours along dimension `i`. -/
def stride (d : Decl) (i : Nat) : Int := wrapProduct (d.dims.drop (i + 1))

end Decl

/-- A statement. -/
inductive Node where
  /-- No statement. -/
  | skip
  | block (items : List Node)
  | declare (decl : DeclId)
  | assign (target : DeclId) (index : List Expr) (targetPos : Pos) (value : Expr) (pos : Pos)
  | eval (x : Expr)
  | cond (c : Expr) (yes no : Node)
  | loop (c : Expr) (body : Node)
  | leave (pos : Pos)
  | again (pos : Pos)
  | ret (value : Option Expr) (pos : Pos)
deriving Inhabited, Repr

/-- Whether there is no statement. -/
def Node.isSkip : Node → Bool
  | .skip => true
  | _ => false

/-- A function. -/
structure FuncDef where
  name : String
  void : Bool := false
  params : List DeclId := []
  body : List Node := []
  pos : Pos := {}
deriving Inhabited, Repr

/-- The declarations of a program by position. -/
abbrev Decls := Array Decl

/-- The declaration at a position. -/
def Decls.at (ds : Decls) (d : DeclId) : Decl := ds.getD d { name := "" }

/-- A whole program. -/
structure CompUnit where
  decls : Decls := #[]
  globals : List DeclId := []
  funcs : List FuncDef := []
deriving Inhabited

end Tree

end Tac
