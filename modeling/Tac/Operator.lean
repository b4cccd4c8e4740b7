/-!
# Operators

Relations compare two words.  Binary operators are the five arithmetic ones, one comparison for each
relation and the two logical ones; unary operators are plus, minus and logical not.  Each family is
numbered in the order of its table.
-/

namespace Tac

/-- A relation between two words. -/
inductive Rel where
  | lt | gt | le | ge | eq | ne
deriving DecidableEq, Inhabited, Repr

namespace Rel

/-- The relations in the order of their numbers. -/
def all : List Rel := [lt, gt, le, ge, eq, ne]

/-- The spelling of a relation. -/
def text : Rel → String
  | lt => "<"
  | gt => ">"
  | le => "<="
  | ge => ">="
  | eq => "=="
  | ne => "!="

/-- The relation that holds exactly when this one does not. -/
def invert : Rel → Rel
  | lt => ge
  | gt => le
  | le => gt
  | ge => lt
  | eq => ne
  | ne => eq

/-- The position in the table. -/
def code (r : Rel) : Nat := all.idxOf r

/-- The relation with a given number. -/
def ofCode? (n : Int) : Option Rel := if 0 ≤ n then all[n.toNat]? else none

/-- The relation with a given spelling. -/
def parse? (s : String) : Option Rel := all.find? fun r => r.text == s

/-- Inverting twice gives the relation back. -/
@[simp]
theorem invert_invert (r : Rel) : r.invert.invert = r := by cases r <;> rfl

/-- A spelling reads back as its relation. -/
@[simp]
theorem parse?_text (r : Rel) : parse? r.text = some r := by cases r <;> decide

/-- A number reads back as its relation. -/
@[simp]
theorem ofCode?_code (r : Rel) : ofCode? r.code = some r := by cases r <;> decide

end Rel

/-- A binary operator. -/
inductive BinOp where
  | add | sub | mul | div | mod
  | cmp (r : Rel)
  | and | or
deriving DecidableEq, Inhabited, Repr

namespace BinOp

/-- The operators in the order of their numbers. -/
def all : List BinOp := [add, sub, mul, div, mod] ++ Rel.all.map cmp ++ [and, or]

/-- The spelling of an operator. -/
def text : BinOp → String
  | add => "+"
  | sub => "-"
  | mul => "*"
  | div => "/"
  | mod => "%"
  | cmp r => r.text
  | and => "&&"
  | or => "||"

/-- The relation that a comparison computes. -/
def rel? : BinOp → Option Rel
  | cmp r => some r
  | _ => none

/-- Whether the operator is one of the two logical ones, which take effect by jumps. -/
def isLogical : BinOp → Bool
  | and | or => true
  | _ => false

/-- The position in the table. -/
def code (op : BinOp) : Nat := all.idxOf op

/-- The operator with a given spelling. -/
def parse? (s : String) : Option BinOp := all.find? fun op => op.text == s

/-- A spelling reads back as its operator. -/
@[simp]
theorem parse?_text (op : BinOp) : parse? op.text = some op := by
  rcases op with _ | _ | _ | _ | _ | r | _ | _
  case cmp => cases r <;> decide
  all_goals decide

end BinOp

/-- A unary operator. -/
inductive UnOp where
  | plus | neg | not
deriving DecidableEq, Inhabited, Repr

namespace UnOp

/-- The operators in the order of their numbers. -/
def all : List UnOp := [plus, neg, not]

/-- The spelling of an operator. -/
def text : UnOp → String
  | plus => "+"
  | neg => "-"
  | not => "!"

/-- The position in the table. -/
def code (op : UnOp) : Nat := all.idxOf op

/-- The operator with a given spelling. -/
def parse? (s : String) : Option UnOp := all.find? fun op => op.text == s

/-- A spelling reads back as its operator. -/
@[simp]
theorem parse?_text (op : UnOp) : parse? op.text = some op := by cases op <;> decide

end UnOp

end Tac
