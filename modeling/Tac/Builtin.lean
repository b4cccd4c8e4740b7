import Tac.Clobber
import Tac.Code
import Tac.Tree.Dump

/-!
# Hand-written functions

A few functions have hand-written machine code.  A tree is replaced by it when the canonical form of
the tree is that of the reference tree, which says what the code does.
-/

namespace Tac

/-- A function with hand-written code. -/
structure Builtin where
  name : String
  /-- The declarations of the reference tree. -/
  decls : Tree.Decls
  /-- The tree that the code replaces. -/
  reference : Tree.FuncDef
  /-- The registers that the code writes. -/
  clobber : RegSet
  /-- How many labels the code needs. -/
  labels : Nat
  /-- The code, given its labels. -/
  code : List Int → List Instr

namespace Builtin

open Tac.Tree

/-- A use of declaration `d` without indexes. -/
def ref (d : DeclId) : Expr := .lval d [] {}

/-- The modulus of the modular multiplication. -/
def modulus : Int := 998244353

/-! ## Copying words -/

/-- The declarations of `memmoveRef`: four parameters and a counter. -/
def memmoveDecls : Decls := #[
  { name := "dst", dims := [0] }, { name := "dst_pos" }, { name := "src", dims := [0] },
  { name := "len" }, { name := "i", init := some [.num 0] }]

/-- Copies `len` words from `src` to `dst` starting at `dst_pos`, in ascending order, and returns
the count. -/
def memmoveRef : FuncDef where
  name := "memmove"
  params := [0, 1, 2, 3]
  body := [
    .declare 4,
    .loop (.binary (.cmp .lt) (ref 4) (ref 3)) (.block [
      .assign 0 [.binary .add (ref 1) (ref 4)] {} (.lval 2 [ref 4] {}) {},
      .assign 4 [] {} (.binary .add (ref 4) (.num 1)) {}]),
    .ret (some (ref 4)) {}]

/-- The code of `memmoveRef`. -/
def memmoveCode (loop zero : Int) : List Instr :=
  let a := Reg.a
  let t := Reg.t
  [ .shift (a 1) (a 1) .left 2,
    .binary (a 1) .add (a 0) (a 1),
    .branch (a 3) Reg.x0 .le zero,
    .shift (t 1) (a 3) .left 2,
    .binary (t 1) .add (a 2) (t 1),
    .label loop,
    .load (t 0) (a 2) 0,
    .store (a 1) 0 (t 0),
    .addImm (a 2) (a 2) 4,
    .addImm (a 1) (a 1) 4,
    .branch (a 2) (t 1) .lt loop,
    .move (a 0) (a 3),
    .ret,
    .label zero,
    .imm (a 0) 0,
    .ret ]

/-! ## Modular multiplication -/

/-- The declarations of `multiplyRef`: two parameters and the partial result. -/
def multiplyDecls : Decls := #[
  { name := "a" }, { name := "b" },
  { name := "cur"
    init := some [.call "multiply" (some { params := 2, void := false })
      [ref 0, .binary .div (ref 1) (.num 2)] {}] }]

/-- Multiplies modulo `modulus` by halving the second factor. -/
def multiplyRef : FuncDef where
  name := "multiply"
  params := [0, 1]
  body := [
    .cond (.binary (.cmp .eq) (ref 1) (.num 0)) (.ret (some (.num 0)) {}) .skip,
    .cond (.binary (.cmp .eq) (ref 1) (.num 1))
      (.ret (some (.binary .mod (ref 0) (.num modulus))) {}) .skip,
    .declare 2,
    .assign 2 [] {} (.binary .mod (.binary .add (ref 2) (ref 2)) (.num modulus)) {},
    .cond (.binary (.cmp .eq) (.binary .mod (ref 1) (.num 2)) (.num 1))
      (.ret (some (.binary .mod (.binary .add (ref 2) (ref 0)) (.num modulus))) {})
      (.ret (some (ref 2)) {})]

/-- The code of `multiplyRef`: doubling and adding over the bits of the second factor. -/
def multiplyCode (loop skip done : Int) : List Instr :=
  let a := Reg.a
  let t := Reg.t
  [ .imm (t 1) modulus,
    .binary (a 0) .mod (a 0) (t 1),
    .imm (a 2) 0,
    .label loop,
    .branch (a 1) Reg.x0 .eq done,
    .shift (t 0) (a 1) .left 31,
    .branch (t 0) Reg.x0 .eq skip,
    .binary (a 2) .add (a 2) (a 0),
    .binary (a 2) .mod (a 2) (t 1),
    .label skip,
    .binary (a 0) .add (a 0) (a 0),
    .binary (a 0) .mod (a 0) (t 1),
    .shift (a 1) (a 1) .arithRight 1,
    .jump loop,
    .label done,
    .move (a 0) (a 2),
    .ret ]

/-! ## The catalog -/

/-- Word copy. -/
def memmove : Builtin where
  name := "memmove"
  decls := memmoveDecls
  reference := memmoveRef
  clobber := RegSet.ofList [Reg.a 0, Reg.a 1, Reg.a 2, Reg.a 3, Reg.t 0, Reg.t 1]
  labels := 2
  code := fun ls => memmoveCode (ls.getD 0 0) (ls.getD 1 0)

/-- Modular multiplication. -/
def multiply : Builtin where
  name := "multiply"
  decls := multiplyDecls
  reference := multiplyRef
  clobber := RegSet.ofList [Reg.a 0, Reg.a 1, Reg.a 2, Reg.t 0, Reg.t 1]
  labels := 3
  code := fun ls => multiplyCode (ls.getD 0 0) (ls.getD 1 0) (ls.getD 2 0)

/-- All functions with hand-written code. -/
def catalog : List Builtin := [memmove, multiply]

/-- The function of a name. -/
def find? (name : String) : Option Builtin := catalog.find? fun b => b.name == name

/-- The message about a name without hand-written code. -/
def unknownMessage (name : String) : String := "unknown builtin pattern: " ++ name

/-- The canonical form of the reference tree. -/
def dump (b : Builtin) : String := b.reference.dump b.decls

/-- The hand-written function that a tree is, by name, number of parameters and canonical form. -/
def match? (decls : Decls) (f : FuncDef) : Option String :=
  match find? f.name with
  | some b =>
    if b.reference.params.length = f.params.length ∧ b.dump = f.dump decls then some b.name else none
  | none => none

/-- The sets of the functions that have hand-written code. -/
def clobbers (funcs : List Func) : ClobberSets :=
  funcs.foldl
    (fun m f => match f.builtin.bind find? with
      | some b => m.insert f.name b.clobber
      | none => m)
    {}

/-- Draws a number of labels. -/
def drawLabels : Nat → Counters → List Int × Counters
  | 0, c => ([], c)
  | n + 1, c =>
    let (ls, c') := drawLabels n c.nextLabel
    (c.labels :: ls, c')

/-- The code of a hand-written function, with new labels. -/
def lower (b : Builtin) (c : Counters) : CodeFunc × Counters :=
  let (ls, c) := drawLabels b.labels c
  ({ name := b.name, params := b.reference.params.length, stack := 0, body := b.code ls }, c)

end Builtin

end Tac
