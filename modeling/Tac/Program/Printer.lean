import Std.Data.TreeMap
import Tac.BitSet
import Tac.Reg
import Tac.VReg

/-!
# Program text

The written form of a program: declarations and initial values of the globals, then each function
between its header and its end line, one statement to a line.  The annotated form puts the location
of every operand before its name and a line with the live values after every statement.

Only programs whose operands can all be looked up have a written form.
-/

namespace Tac

/-- What the annotated form adds to a function: where its values live, and which of them are live
before and after each statement. -/
structure Annotation where
  locs : Std.TreeMap Nat Loc
  arrays : Std.TreeMap Int Loc
  live : Array BitSet
  meet : Array BitSet

namespace Program.Printer

/-- The space before declarations and statements of a function. -/
def indent : String := "    "

/-- One indented line. -/
def line (s : String) : String := indent ++ s ++ "\n"

/-- The plain name of an operand. -/
def plain (vars : VarTable) : Val → String
  | .const n => Text.decimal n
  | .temp n => "t" ++ Text.decimal n
  | .var id => ((vars.get? id).map Var.text).getD ""

/-- A note before a name, between braces. -/
def note (s : String) : String := "\x7b" ++ s ++ "\x7d"

/-- The location note of an operand that is not a constant. -/
def placeOf (vars : VarTable) (a : Annotation) (v : Val) : String :=
  let located (l : Option Loc) := ((l.map Loc.text).getD "???")
  match vars.vreg? v with
  | some u => located a.locs[u]?
  | none =>
    match v with
    | .var id =>
      match (vars.get? id).map Var.cls with
      | some .global => "global"
      | _ => located a.arrays[id]?
    | _ => located none

/-- An operand, with its location in the annotated form. -/
def value (vars : VarTable) (ann : Option Annotation) (v : Val) : String :=
  match ann, v with
  | _, .const n => Text.decimal n
  | none, v => plain vars v
  | some a, v => note (placeOf vars a v) ++ plain vars v

/-- The lines of a statement, given how operands are written. -/
def stmt (val : Val → String) : Stmt → String
  | .binary d l op r => line (val d ++ " = " ++ val l ++ " " ++ op.text ++ " " ++ val r)
  | .unary d .plus x => line (val d ++ " = " ++ val x)
  | .unary d op x => line (val d ++ " = " ++ op.text ++ " " ++ val x)
  | .move d s => line (val d ++ " = " ++ val s)
  | .store b off s => line (val b ++ " [" ++ Text.decimal off ++ "] = " ++ val s)
  | .load d b off => line (val d ++ " = " ++ val b ++ " [" ++ Text.decimal off ++ "]")
  | .branch l rel r t =>
    line ("if " ++ val l ++ " " ++ rel.text ++ " " ++ val r ++ " goto l" ++ Text.decimal t)
  | .jump t => line ("goto l" ++ Text.decimal t)
  | .label id => "l" ++ Text.decimal id ++ ":\n"
  | .call none f args =>
    String.join (args.map fun a => line ("param " ++ val a)) ++ line ("call f_" ++ f)
  | .call (some d) f args =>
    String.join (args.map fun a => line ("param " ++ val a)) ++
      line (val d ++ " = call f_" ++ f)
  | .ret none => line "return"
  | .ret (some v) => line ("return " ++ val v)
  | .zeroFill a => line ("fillzero " ++ val a)

/-- Names of virtual registers, separated by blanks. -/
def vregs (us : List VReg) : String := " ".intercalate (us.map fun (u : VReg) => VReg.text u)

/-- The line after statement `i` of the annotated form. -/
def liveness (vars : VarTable) (a : Annotation) (i : Nat) (s : Stmt) : String :=
  let members (sets : Array BitSet) := vregs ((sets[i]?.map BitSet.toList).getD [])
  line ("// DEF: " ++ vregs (s.defs vars) ++ " | USE: " ++ vregs (s.uses vars) ++
    " | LIVE: " ++ members a.live ++ " | MEET: " ++ members a.meet)

/-- The declaration of a variable. -/
def decl (before : String) (v : Var) : String :=
  if v.isArray then before ++ "var " ++ Text.decimal v.bytes ++ " " ++ v.text ++ "\n"
  else before ++ "var " ++ v.text ++ "\n"

/-- The declarations of listed variables. -/
def decls (vars : VarTable) (before : String) (ids : List VarId) : String :=
  String.join (ids.map fun id => ((vars.get? id).map (decl before)).getD "")

/-- One statement with what the annotated form puts after it. -/
def stmtAt (vars : VarTable) (ann : Option Annotation) (i : Nat) (s : Stmt) : String :=
  stmt (value vars ann) s ++ (match ann with | some a => liveness vars a i s | none => "")

end Program.Printer

open Program.Printer in
/-- The written form of a function. -/
def Func.text (vars : VarTable) (ann : Option Annotation) (f : Func) : String :=
  "f_" ++ f.name ++ " [" ++ Text.decimal f.params.length ++ "]\n" ++
    (match f.builtin with | some b => line ("// builtin " ++ b) | none => "") ++
    decls vars indent f.locals ++
    String.join (f.temps.map fun t => line ("var t" ++ Text.decimal t)) ++
    String.join (f.stmts.zipIdx.map fun (s, i) => stmtAt vars ann i s) ++
    "end f_" ++ f.name ++ "\n"

/-- Whether every name that the function's text needs can be looked up. -/
def Func.isNamed (vars : VarTable) (f : Func) : Bool :=
  f.locals.all (fun id => (vars.get? id).isSome) &&
    f.stmts.all fun s => s.operands.all vars.resolves

namespace Program

/-- The line of an initial value. -/
def initText (vars : VarTable) (i : Init) : String :=
  let name := ((vars.get? i.var).map Var.text).getD ""
  if i.off < 0 then name ++ " = " ++ Text.decimal i.val ++ "\n"
  else name ++ " [" ++ Text.decimal i.off ++ "] = " ++ Text.decimal i.val ++ "\n"

/-- Whether every name that the program's text needs can be looked up. -/
def isNamed (p : Program) : Bool :=
  p.globals.all (fun id => (p.vars.get? id).isSome) &&
    p.inits.all (fun i => (p.vars.get? i.var).isSome) &&
    p.funcs.all (Func.isNamed p.vars)

/-- The written form of the globals. -/
def globalsText (p : Program) : String :=
  Printer.decls p.vars "" p.globals ++ String.join (p.inits.map (initText p.vars))

/-- Puts functions after what is already written, an empty line before each unless it is first. -/
def appendFuncs (written : String) (texts : List String) : String :=
  texts.foldl (fun out t => out ++ (if out.isEmpty then "" else "\n") ++ t) written

/-- The written form of a program, with an annotation for each function that has one. -/
def text (p : Program) (anns : List (Option Annotation)) : String :=
  appendFuncs p.globalsText
    (p.funcs.zipIdx.map fun (f, i) => f.text p.vars ((anns[i]?).getD none))

/-- The plain written form, if every name can be looked up. -/
def plainText? (p : Program) : Option String :=
  if p.isNamed then some (p.text []) else none

end Program

end Tac
