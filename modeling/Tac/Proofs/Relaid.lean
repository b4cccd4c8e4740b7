import Mathlib
import Tac.Program.Printer
import Tac.Proofs.Names

/-!
# Programs as their text has them

Text tells less than a program: it numbers variables by name and declares them where they belong, writes
arrays by their size, and leaves the next free numbers to be found again.  The relaid program is what is
left of a program in its text, laid out as a reader finds it.

* **`Program.relaid`** — globals first, then the parameters and locals of each function; arrays in one
  dimension; the counters above all numbers that occur.
* **`Program.Printable`** — the programs whose text tells enough.
* **`Program.text_relaid`** — a printable program and the relaid one have the same text.
-/

namespace Tac

/-! ## The relaid program -/

/-- The variable that a declaration in text stands for. -/
def Var.reread (cls : VarClass) (v : Var) : Var where
  name := v.text
  cls := cls
  index := v.index
  dims := if v.isArray then some [v.bytes / 4] else none

/-- The variable at a position, whatever it is outside the table. -/
def VarTable.at (vars : VarTable) (id : VarId) : Var := (vars.get? id).getD default

/-- Operands with variables moved to other positions. -/
def Val.rename (ρ : VarId → VarId) : Val → Val
  | .var id => .var (ρ id)
  | v => v

/-- The statement with variables moved to other positions. -/
def Stmt.rename (ρ : VarId → VarId) : Stmt → Stmt
  | .binary d l op r => .binary (d.rename ρ) (l.rename ρ) op (r.rename ρ)
  | .unary d op x => .unary (d.rename ρ) op (x.rename ρ)
  | .move d s => .move (d.rename ρ) (s.rename ρ)
  | .store b off s => .store (b.rename ρ) off (s.rename ρ)
  | .load d b off => .load (d.rename ρ) (b.rename ρ) off
  | .branch l rel r t => .branch (l.rename ρ) rel (r.rename ρ) t
  | .jump t => .jump t
  | .label l => .label l
  | .call r g args => .call (r.map (Val.rename ρ)) g (args.map (Val.rename ρ))
  | .ret v => .ret (v.map (Val.rename ρ))
  | .zeroFill a => .zeroFill (a.rename ρ)

/-- The labels that a statement mentions. -/
def Stmt.labels : Stmt → List Int
  | .branch _ _ _ l | .jump l | .label l => [l]
  | _ => []

namespace Relaid

/-- The number after the highest, in 64 bits. -/
def above (ns : List Int) : Int := ns.foldl (fun m n => max m (wrap64 (n + 1))) 0

/-- One more number raises the bound if it lies above. -/
theorem above_concat (ns : List Int) (n : Int) :
    above (ns ++ [n]) = max (above ns) (wrap64 (n + 1)) := by
  rw [above, List.foldl_append]
  rfl

/-- Positions from `base` on. -/
def positions (base n : Nat) : List VarId := (List.range n).map fun k => ((base + k : Nat) : VarId)

/-- The positions of a block follow one another. -/
theorem getElem?_positions {base n k : Nat} (hk : k < n) :
    (positions base n)[k]? = some ((base + k : Nat) : VarId) := by
  rw [positions, List.getElem?_map, List.getElem?_range hk]
  rfl

theorem length_positions (base n : Nat) : (positions base n).length = n := by
  rw [positions, List.length_map, List.length_range]

/-- The variables that the text of the globals declares. -/
def heads (vars : VarTable) (globals : List VarId) : List Var :=
  globals.map fun id => (vars.at id).reread .global

/-- The variables that the text of a function declares. -/
def block (vars : VarTable) (f : Func) : List Var :=
  (List.range f.params.length).map Program.Reader.paramVar ++
    f.locals.map fun id => (vars.at id).reread .loc

/-- The block of a function has its parameters and then its locals. -/
theorem length_block (vars : VarTable) (f : Func) :
    (block vars f).length = f.params.length + f.locals.length := by
  rw [block, List.length_append, List.length_map, List.length_range, List.length_map]

/-- The new position of a variable, seen from a function whose own variables begin at `base`. -/
def place (globals : List VarId) (base : Nat) (f : Func) (id : VarId) : VarId :=
  if id ∈ f.params then ((base + f.params.idxOf id : Nat) : VarId)
  else if id ∈ f.locals then ((base + f.params.length + f.locals.idxOf id : Nat) : VarId)
  else (globals.idxOf id : Nat)

/-- The function with its own variables from `base` on. -/
def func (globals : List VarId) (base : Nat) (f : Func) : Func :=
  { f with params := positions base f.params.length
           locals := positions (base + f.params.length) f.locals.length
           stmts := f.stmts.map (Stmt.rename (place globals base f)) }

/-- Functions one after the other, the variables of the first from `base` on. -/
def funcs (globals : List VarId) : Nat → List Func → List Func
  | _, [] => []
  | base, f :: fs => func globals base f :: funcs globals (base + f.params.length + f.locals.length) fs

/-- The initial value with its variable among the globals. -/
def init (globals : List VarId) (i : Init) : Init := { i with var := (globals.idxOf i.var : Nat) }

/-- The number of the indexes of listed variables. -/
def indexes (vars : VarTable) (ids : List VarId) : List Int := ids.map fun id => (vars.at id).index

end Relaid

open Relaid in
/-- The program as its text has it. -/
def Program.relaid (p : Program) : Program where
  vars := (heads p.vars p.globals ++ p.funcs.flatMap (block p.vars)).toArray
  globals := positions 0 p.globals.length
  inits := p.inits.map (init p.globals)
  funcs := Relaid.funcs p.globals p.globals.length p.funcs
  counters :=
    { vars := above (indexes p.vars (p.globals ++ p.funcs.flatMap Func.locals))
      temps := above (p.funcs.flatMap Func.temps)
      labels := above (p.funcs.flatMap fun f => f.stmts.flatMap Stmt.labels) }

/-! ## Printable programs -/

/-- The variable can be declared in text, outside or inside a function. -/
structure Var.Declarable (v : Var) : Prop where
  cls : v.cls ≠ .arg
  index : FitsName v.index
  bytes : v.isArray = true → 0 < v.bytes ∧ v.bytes < 2147483648

namespace InText

section Operands

variable (vars : VarTable) (globals : List VarId) (f : Func)

/-- The operand is a temporary of the function or a variable that the function sees. -/
def Place : Val → Prop
  | .const _ => False
  | .temp n => n ∈ f.temps
  | .var id => id ∈ globals ∨ id ∈ f.params ∨ id ∈ f.locals

/-- The operand is a place or a constant of 32 bits. -/
def Operand : Val → Prop
  | .const n => Fits32 n
  | v => Place globals f v

instance : ∀ v, Decidable (Place globals f v)
  | .const _ => inferInstanceAs (Decidable False)
  | .temp n => inferInstanceAs (Decidable (n ∈ f.temps))
  | .var id => inferInstanceAs (Decidable (id ∈ globals ∨ id ∈ f.params ∨ id ∈ f.locals))

instance : ∀ v, Decidable (Operand globals f v)
  | .const n => inferInstanceAs (Decidable (Fits32 n))
  | .temp n => inferInstanceAs (Decidable (Place globals f (.temp n)))
  | .var id => inferInstanceAs (Decidable (Place globals f (.var id)))

/-- The statement can be told from its text. -/
def Statement : Stmt → Prop
  | .binary d l op r => Place globals f d ∧ Operand globals f l ∧ Operand globals f r ∧
      op.isLogical = false ∧ ¬ ((op = .div ∨ op = .mod) ∧ r = .const 0)
  | .unary d op x => Place globals f d ∧ Operand globals f x ∧ op ≠ .plus
  | .move d s => Place globals f d ∧ Operand globals f s
  | .store b off s => Place globals f b ∧ Fits32 off ∧ Operand globals f s
  | .load d b off => Place globals f d ∧ Operand globals f b ∧ Fits32 off
  | .branch l _ r t => Operand globals f l ∧ Operand globals f r ∧ FitsName t
  | .jump t | .label t => FitsName t
  | .call ret g args => (∀ d, ret = some d → Place globals f d) ∧ Text.IsWord g ∧
      ∀ a ∈ args, Operand globals f a
  | .ret v => ∀ x, v = some x → Operand globals f x
  | .zeroFill a => ∃ id ∈ f.locals, a = .var id ∧ (vars.at id).isArray = true

end Operands

/-- The variables are in the table and can be declared. -/
def Declared (vars : VarTable) (ids : List VarId) : Prop :=
  ∀ id ∈ ids, ∃ v, vars.get? id = some v ∧ v.Declarable

open Relaid in
/-- The function can be told from its text. -/
structure Function (vars : VarTable) (globals : List VarId) (f : Func) : Prop where
  name : Text.IsWord f.name
  builtin : ∀ b, f.builtin = some b → Text.IsWord b
  few : f.params.length < 2147483648
  params : ∀ (k : Nat) id, f.params[k]? = some id →
    ∃ v, vars.get? id = some v ∧ v.cls = .arg ∧ v.index = k
  locals : Declared vars f.locals
  distinct : (indexes vars (globals ++ f.locals)).Nodup
  temps : ∀ t ∈ f.temps, FitsName t
  temps_nodup : f.temps.Nodup
  stmts : ∀ s ∈ f.stmts, Statement vars globals f s
  void_iff : f.void = true ↔ ∀ v, .ret (some v) ∉ f.stmts

end InText

open InText Relaid in
/-- The program can be told from its text. -/
structure Program.Printable (p : Program) : Prop where
  globals : Declared p.vars p.globals
  distinct : (indexes p.vars p.globals).Nodup
  inits : ∀ i ∈ p.inits, i.var ∈ p.globals ∧ (i.off = -1 ∨ 0 ≤ i.off) ∧ Fits32 i.off ∧ Fits32 i.val
  funcs : ∀ f ∈ p.funcs, Function p.vars p.globals f

/-! ## Text of variables -/

namespace Var

variable {v : Var}

/-- All variables but the parameters are printed with one mark. -/
theorem text_of_cls (h : v.cls ≠ .arg) : v.text = "T" ++ Text.decimal v.index := by
  unfold text
  cases hc : v.cls <;> simp_all

/-- A variable that is read back is printed the same, whatever class it was read with. -/
theorem text_reread (h : v.cls ≠ .arg) (cls : VarClass) (hcls : cls ≠ .arg) :
    (v.reread cls).text = v.text := by
  rw [text_of_cls h, text_of_cls hcls]
  rfl

/-- Reading back keeps arrays arrays. -/
@[simp] theorem isArray_reread (v : Var) (cls : VarClass) : (v.reread cls).isArray = v.isArray := by
  unfold reread isArray
  split
  · next h => rw [h]; rfl
  · next h => rw [Bool.eq_false_of_not_eq_true h]; rfl

/-- A variable takes whole words. -/
theorem four_dvd_bytes (v : Var) : v.bytes % 4 = 0 := by
  rw [bytes, wrap64, Int.bmod_def]
  split <;> omega

/-- Arrays keep their size, though they lose their shape. -/
theorem bytes_reread (h : v.isArray = true) (hbytes : 0 < v.bytes ∧ v.bytes < 2147483648)
    (cls : VarClass) : (v.reread cls).bytes = v.bytes := by
  have hdiv := v.four_dvd_bytes
  have helems : (v.reread cls).elems = v.bytes / 4 := by
    rw [elems, reread, if_pos h, Option.getD_some, wrapProduct, List.foldl_cons, List.foldl_nil,
      Int.one_mul]
    exact Int.bmod_eq_of_le (by omega) (by omega)
  rw [bytes, helems]
  have : wrap64 (4 * (v.bytes / 4)) = 4 * (v.bytes / 4) := Int.bmod_eq_of_le (by omega) (by omega)
  rw [this]
  omega

end Var

/-- The entry that is there is the one that is printed. -/
theorem VarTable.at_eq {vars : VarTable} {id : VarId} {v : Var} (h : vars.get? id = some v) :
    vars.at id = v := by
  rw [VarTable.at, h]
  rfl

/-- A table made of a list has its entries in order. -/
theorem VarTable.get?_toArray (vs : List Var) (k : Nat) :
    VarTable.get? vs.toArray ((k : Nat) : VarId) = vs[k]? := by
  rw [VarTable.get?, if_pos (Int.natCast_nonneg k), Int.toNat_natCast, List.getElem?_toArray]

/-! ## What functions see -/

namespace Relaid

open InText Program.Printer

section Operands

variable {vars : VarTable} {globals : List VarId} {f : Func}

/-- In the table a function finds all that it sees at the new positions. -/
structure Sees (vars : VarTable) (globals : List VarId) (f : Func) (base : Nat) (table : VarTable) :
    Prop where
  global : ∀ (k : Nat) id, globals[k]? = some id →
    table.get? ((k : Nat) : VarId) = some ((vars.at id).reread .global)
  param : ∀ k < f.params.length,
    table.get? ((base + k : Nat) : VarId) = some (Program.Reader.paramVar k)
  loc : ∀ (k : Nat) id, f.locals[k]? = some id →
    table.get? ((base + f.params.length + k : Nat) : VarId) = some ((vars.at id).reread .loc)

/-- The table may hold variables of other functions before those of the function, and after them. -/
theorem sees_of_eq {others behind : List Var} {base : Nat}
    (hbase : base = globals.length + others.length) :
    Sees vars globals f base
      (heads vars globals ++ (others ++ (block vars f ++ behind))).toArray := by
  have hlen : (heads vars globals).length = globals.length := List.length_map _
  -- Behind the globals and the blocks of other functions comes the block of this one.
  have hown : ∀ k : Nat, VarTable.get?
      (heads vars globals ++ (others ++ (block vars f ++ behind))).toArray ((base + k : Nat) : VarId) =
      (block vars f ++ behind)[k]? := fun k => by
    rw [VarTable.get?_toArray, List.getElem?_append_right (by omega),
      List.getElem?_append_right (by omega)]
    congr 1
    omega
  refine ⟨fun k id hk => ?_, fun k hk => ?_, fun k id hk => ?_⟩
  · obtain ⟨hlt, -⟩ := List.getElem?_eq_some_iff.1 hk
    rw [VarTable.get?_toArray, List.getElem?_append_left (by omega), heads, List.getElem?_map, hk]
    rfl
  · rw [hown, block, List.append_assoc, List.getElem?_append_left (by simpa using hk),
      List.getElem?_map, List.getElem?_range hk]
    rfl
  · obtain ⟨hlt, -⟩ := List.getElem?_eq_some_iff.1 hk
    rw [Nat.add_assoc, hown, block, List.append_assoc, List.getElem?_append_right (by simp),
      List.getElem?_append_left (by simp; omega), List.getElem?_map]
    simp only [List.length_map, List.length_range, Nat.add_sub_cancel_left, hk, Option.map_some]

theorem place_param {base : Nat} {id : VarId} (hid : id ∈ f.params) :
    place globals base f id = ((base + f.params.idxOf id : Nat) : VarId) := if_pos hid

/-- What can be assigned can be read. -/
theorem operand_of_place {v : Val} (hv : Place globals f v) : Operand globals f v := by
  cases v with
  | const n => exact absurd hv id
  | temp n => exact hv
  | var id => exact hv

/-- Every operand of a statement that can be told from its text is one. -/
theorem operand_of_statement {s : Stmt} (hs : Statement vars globals f s) :
    ∀ v ∈ s.operands, Operand globals f v := by
  intro v hv
  cases s <;> simp only [Stmt.operands, Stmt.dst?, Stmt.sources, Option.toList_some, Option.toList_none,
    List.mem_append, List.mem_cons, List.not_mem_nil, or_false, false_or] at hv
  -- For each statement, its operands and which of them are assigned.
  case binary d l op r =>
    obtain ⟨hd, hl, hr, _⟩ := hs
    rcases hv with rfl | rfl | rfl
    · exact operand_of_place hd
    · exact hl
    · exact hr
  case unary d op x =>
    obtain ⟨hd, hx, _⟩ := hs
    rcases hv with rfl | rfl
    · exact operand_of_place hd
    · exact hx
  case move d s =>
    rcases hv with rfl | rfl
    · exact operand_of_place hs.1
    · exact hs.2
  case store b off s =>
    rcases hv with rfl | rfl
    · exact operand_of_place hs.1
    · exact hs.2.2
  case load d b off =>
    rcases hv with rfl | rfl
    · exact operand_of_place hs.1
    · exact hs.2.1
  case branch l rel r t =>
    rcases hv with rfl | rfl
    · exact hs.1
    · exact hs.2.1
  case call ret g args =>
    rcases hv with hv | hv
    · exact operand_of_place (hs.1 v (Option.mem_toList.1 hv))
    · exact hs.2.2 v hv
  case ret x => exact hs v (Option.mem_toList.1 hv)
  case zeroFill a =>
    obtain ⟨id, hid, rfl, _⟩ := hs
    subst hv
    exact Or.inr (Or.inr hid)

/-- A declaration reads the same when its variable is read again. -/
theorem decl_reread {v : Var} (h : v.Declarable) {cls : VarClass} (hcls : cls ≠ .arg)
    (before : String) : decl before (v.reread cls) = decl before v := by
  unfold decl
  rw [Var.isArray_reread, Var.text_reread h.cls cls hcls]
  split
  · next harray => rw [Var.bytes_reread harray (h.bytes harray)]
  · rfl

/-- Declarations read the same from the new positions. -/
theorem decls_positions {ids : List VarId} (hids : Declared vars ids) {cls : VarClass}
    (hcls : cls ≠ .arg) {base : Nat} {table : VarTable} {before : String}
    (h : ∀ (k : Nat) id, ids[k]? = some id →
      table.get? ((base + k : Nat) : VarId) = some ((vars.at id).reread cls)) :
    decls table before (positions base ids.length) = decls vars before ids := by
  unfold decls
  congr 1
  refine List.ext_getElem? fun k => ?_
  rw [List.getElem?_map, List.getElem?_map]
  -- Position by position, the entries are declared the same.
  by_cases hk : k < ids.length
  · have hget := List.getElem?_eq_getElem hk
    obtain ⟨v, hv, hdecl⟩ := hids _ (List.mem_of_getElem? hget)
    rw [getElem?_positions hk, hget, Option.map_some, Option.map_some, h k _ hget, hv,
      VarTable.at_eq hv, Option.map_some, Option.map_some, decl_reread hdecl hcls]
  · rw [List.getElem?_eq_none (by rw [length_positions]; omega), List.getElem?_eq_none (by omega)]
    rfl

/-- Renaming a statement renames its operands. -/
theorem operands_rename (ρ : VarId → VarId) (s : Stmt) :
    (s.rename ρ).operands = s.operands.map (Val.rename ρ) := by
  cases s with
  | call r g args => cases r <;> simp [Stmt.rename, Stmt.operands, Stmt.dst?, Stmt.sources]
  | ret v => cases v <;> simp [Stmt.rename, Stmt.operands, Stmt.dst?, Stmt.sources]
  | _ => rfl

/-- A statement reads the same when its operands do. -/
theorem stmt_rename {ρ : VarId → VarId} {val val' : Val → String} {s : Stmt}
    (h : ∀ v ∈ s.operands, val' (v.rename ρ) = val v) : stmt val' (s.rename ρ) = stmt val s := by
  -- Renaming goes through to the operands, and the printer prints nothing else of them.
  cases s with
  | unary d op x =>
    have hd := h d (List.mem_cons_self ..)
    have hx := h x (List.mem_cons_of_mem _ (List.mem_cons_self ..))
    cases op <;> simp only [Stmt.rename, stmt, hd, hx]
  | call r g args =>
    have hargs : (args.map (Val.rename ρ)).map (fun a => line ("param " ++ val' a)) =
        args.map fun a => line ("param " ++ val a) := by
      rw [List.map_map]
      refine List.map_congr_left fun a ha => ?_
      rw [Function.comp_apply, h a (by simp [Stmt.operands, Stmt.sources, ha])]
    cases r with
    | none => simp only [Stmt.rename, stmt, Option.map_none, hargs]
    | some d =>
      simp only [Stmt.rename, stmt, Option.map_some, hargs,
        h d (by simp [Stmt.operands, Stmt.dst?])]
  | ret v =>
    cases v with
    | none => rfl
    | some x => simp only [Stmt.rename, stmt, Option.map_some, h x (List.mem_cons_self ..)]
  | _ =>
    simp only [Stmt.operands, Stmt.dst?, Stmt.sources, Option.toList_some, Option.toList_none,
      List.mem_append, List.mem_cons, List.not_mem_nil, or_false, false_or, forall_eq_or_imp,
      forall_eq, false_imp_iff, implies_true] at h
    simp only [Stmt.rename, stmt, h]

/-- Without annotations statements have no numbers. -/
theorem texts_stmts (table : VarTable) (stmts : List Stmt) :
    stmts.zipIdx.map (fun x => stmtAt table none x.2 x.1) = stmts.map (stmt (plain table)) := by
  have hvalue : value table none = plain table := by
    funext v
    cases v <;> rfl
  have hat : (fun x => stmtAt table none x.2 x.1 : Stmt × Nat → String) =
      stmt (plain table) ∘ Prod.fst := by
    funext x
    show stmt (value table none) x.1 ++ "" = stmt (plain table) x.1
    rw [hvalue, String.append_empty]
  rw [hat, ← List.map_map, List.zipIdx_map_fst]

/-- The text of a function without annotation. -/
theorem func_text (table : VarTable) (f : Func) : f.text table none =
    "f_" ++ f.name ++ " [" ++ Text.decimal f.params.length ++ "]\n" ++
      (f.builtin.elim "" fun b => line ("// builtin " ++ b)) ++
      decls table indent f.locals ++
      String.join (f.temps.map fun t => line ("var t" ++ Text.decimal t)) ++
      String.join (f.stmts.map (stmt (plain table))) ++
      "end f_" ++ f.name ++ "\n" := by
  have hstmts := texts_stmts table f.stmts
  unfold Func.text
  rw [hstmts]
  cases f.builtin <;> rfl

section Seen

variable (hf : Function vars globals f)

include hf

/-- A parameter is in the table, with its own number. -/
theorem exists_param {id : VarId} (hid : id ∈ f.params) :
    ∃ v, vars.get? id = some v ∧ v.cls = .arg ∧ v.index = (f.params.idxOf id : Nat) :=
  hf.params _ _ (List.getElem?_idxOf hid)

/-- What is declared is no parameter. -/
theorem not_param_of_declared {ids : List VarId} (hids : Declared vars ids) {id : VarId}
    (hid : id ∈ ids) : id ∉ f.params := fun h => by
  obtain ⟨v, hv, hcls, _⟩ := exists_param hf h
  obtain ⟨w, hw, hdecl⟩ := hids id hid
  obtain rfl : v = w := Option.some.inj (hv.symm.trans hw)
  exact hdecl.cls hcls

/-- A local is placed behind the parameters. -/
theorem place_local {base : Nat} {id : VarId} (hid : id ∈ f.locals) :
    place globals base f id = ((base + f.params.length + f.locals.idxOf id : Nat) : VarId) := by
  rw [place, if_neg (not_param_of_declared hf hf.locals hid), if_pos hid]

variable (hg : Declared vars globals)

include hg

/-- A global is placed at the start of the table. -/
theorem place_global {base : Nat} {id : VarId} (hid : id ∈ globals) :
    place globals base f id = ((globals.idxOf id : Nat) : VarId) := by
  have hlocal : id ∉ f.locals := fun h => by
    have hdistinct := hf.distinct
    rw [indexes, List.map_append] at hdistinct
    exact List.disjoint_of_nodup_append hdistinct (List.mem_map_of_mem hid) (List.mem_map_of_mem h)
  rw [place, if_neg (not_param_of_declared hf hg hid), if_neg hlocal]

variable {base : Nat} {table : VarTable} (hs : Sees vars globals f base table)

include hs

/-- A place resolves and has its name. -/
theorem Sees.place {v : Val} (hv : Place globals f v) :
    table.resolves (v.rename (Relaid.place globals base f)) = true ∧ vars.resolves v = true ∧
      plain table (v.rename (Relaid.place globals base f)) = plain vars v := by
  cases v with
  | const n => exact absurd hv id
  | temp n => exact ⟨rfl, rfl, rfl⟩
  | var id =>
    simp only [Val.rename, VarTable.resolves, plain]
    -- A global, a parameter or a local; only parameters are printed by position.
    rcases hv with hid | hid | hid
    · obtain ⟨v, hv, hdecl⟩ := hg id hid
      rw [place_global hf hg hid, hs.global _ id (List.getElem?_idxOf hid), hv, VarTable.at_eq hv]
      exact ⟨rfl, rfl, Var.text_reread hdecl.cls .global (by decide)⟩
    · obtain ⟨v, hv, hcls, hindex⟩ := exists_param hf hid
      rw [place_param hid, hs.param _ (List.idxOf_lt_length_iff.2 hid), hv]
      refine ⟨rfl, rfl, ?_⟩
      simp only [Option.map_some, Option.getD_some, Var.text, hcls, hindex]
      rfl
    · obtain ⟨v, hv, hdecl⟩ := hf.locals id hid
      rw [place_local hf hid, hs.loc _ id (List.getElem?_idxOf hid), hv, VarTable.at_eq hv]
      exact ⟨rfl, rfl, Var.text_reread hdecl.cls .loc (by decide)⟩

/-- An operand is seen through the new table as through the old one, and printed the same. -/
theorem Sees.operand {v : Val} (hv : Operand globals f v) :
    table.resolves (v.rename (Relaid.place globals base f)) = true ∧ vars.resolves v = true ∧
      plain table (v.rename (Relaid.place globals base f)) = plain vars v := by
  cases v with
  | const n => exact ⟨rfl, rfl, rfl⟩
  | temp n => exact hs.place hf hg hv
  | var id => exact hs.place hf hg hv

/-- What a statement refers to resolves, and the statement has the same text. -/
theorem Sees.statement {s : Stmt} (h : Statement vars globals f s) :
    (s.rename (Relaid.place globals base f)).operands.all table.resolves = true ∧
      s.operands.all vars.resolves = true ∧
      stmt (plain table) (s.rename (Relaid.place globals base f)) = stmt (plain vars) s := by
  have hop := fun v hv => hs.operand hf hg (operand_of_statement h v hv)
  rw [operands_rename, List.all_map, List.all_eq_true, List.all_eq_true]
  exact ⟨fun v hv => (hop v hv).1, fun v hv => (hop v hv).2.1,
    stmt_rename fun v hv => (hop v hv).2.2⟩

/-- The function has the same text, and every name in it can be looked up. -/
theorem Sees.function :
    (Relaid.func globals base f).isNamed table = true ∧ f.isNamed vars = true ∧
      (Relaid.func globals base f).text table none = f.text vars none := by
  have hstmt := fun s h => hs.statement hf hg (hf.stmts s h)
  refine ⟨?_, ?_, ?_⟩
  · simp only [Func.isNamed, Relaid.func, Bool.and_eq_true, List.all_eq_true, List.mem_map]
    refine ⟨fun id hid => ?_, ?_⟩
    · obtain ⟨k, hk⟩ := List.getElem?_of_mem hid
      have hlt : k < f.locals.length := by
        obtain ⟨hlt, -⟩ := List.getElem?_eq_some_iff.1 hk
        rwa [length_positions] at hlt
      rw [getElem?_positions hlt] at hk
      rw [← Option.some.inj hk, hs.loc k _ (List.getElem?_eq_getElem hlt)]
      rfl
    · rintro _ ⟨s, h, rfl⟩
      exact List.all_eq_true.1 (hstmt s h).1
  · simp only [Func.isNamed, Bool.and_eq_true, List.all_eq_true]
    refine ⟨fun id hid => ?_, fun s h => List.all_eq_true.1 (hstmt s h).2.1⟩
    obtain ⟨v, hv, -⟩ := hf.locals id hid
    rw [hv]
    rfl
  -- The text depends on the declared locals and on how operands are printed.
  · have hlocals : decls table indent (positions (base + f.params.length) f.locals.length) =
        decls vars indent f.locals :=
      decls_positions hf.locals (by decide) hs.loc
    have hstmts : (f.stmts.map (Stmt.rename (Relaid.place globals base f))).map (stmt (plain table)) =
        f.stmts.map (stmt (plain vars)) := by
      rw [List.map_map]
      exact List.map_congr_left fun s h => (hstmt s h).2.2
    rw [func_text, func_text]
    simp only [Relaid.func, length_positions, hlocals, hstmts]

end Seen

end Operands

/-- In the table of the whole program every function reads as before. -/
theorem alike_funcs {vars : VarTable} {globals : List VarId} (hg : Declared vars globals)
    {table : VarTable} (fs : List Func) (hfs : ∀ f ∈ fs, Function vars globals f) (others : List Var)
    (base : Nat) (hbase : base = globals.length + others.length)
    (htable : table = (heads vars globals ++ (others ++ fs.flatMap (block vars))).toArray) :
    (funcs globals base fs).all (Func.isNamed table) = true ∧ fs.all (Func.isNamed vars) = true ∧
      (funcs globals base fs).map (fun f => f.text table none) =
        fs.map fun f => f.text vars none := by
  -- On the functions; the block of each starts where that of the one before ends.
  induction fs generalizing others base with
  | nil => simp only [funcs, List.all_nil, List.map_nil, and_self]
  | cons f fs ih =>
    obtain ⟨hf, hfs⟩ := List.forall_mem_cons.1 hfs
    rw [List.flatMap_cons] at htable
    have hs : Sees vars globals f base table := htable ▸ sees_of_eq hbase
    obtain ⟨h₁, h₂, h₃⟩ := hs.function hf hg
    obtain ⟨ih₁, ih₂, ih₃⟩ := ih hfs (others ++ block vars f)
      (base + f.params.length + f.locals.length)
      (by rw [List.length_append, length_block, hbase]; omega) (by rw [htable, List.append_assoc others])
    simp only [funcs, List.all_cons, List.map_cons, h₁, h₂, h₃, ih₁, ih₂, ih₃, Bool.and_self,
      and_self]

end Relaid

open Program.Printer in
/-- Without notes the text is the globals and then the functions. -/
theorem Program.text_nil (p : Program) :
    p.text [] = appendFuncs p.globalsText (p.funcs.map fun f => f.text p.vars none) := by
  have hfst : p.funcs.zipIdx.map Prod.fst = p.funcs := List.zipIdx_map_fst 0 p.funcs
  rw [text]
  nth_rewrite 2 [← hfst]
  rw [List.map_map]
  rfl

section Program

open InText Relaid Program.Printer

variable {p : Program}

/-- A global of the new program is the old one as it is read back. -/
theorem Program.global_relaid {k : Nat} {id : VarId} (hk : p.globals[k]? = some id) :
    p.relaid.vars.get? ((k : Nat) : VarId) = some ((p.vars.at id).reread .global) := by
  obtain ⟨hlt, -⟩ := List.getElem?_eq_some_iff.1 hk
  rw [relaid, VarTable.get?_toArray, List.getElem?_append_left (by simpa [heads] using hlt), heads,
    List.getElem?_map, hk]
  rfl

variable (hp : p.Printable)

include hp

/-- Initial values have the same text, in which every name can be looked up. -/
theorem Program.init_relaid {i : Init} (hi : i ∈ p.inits) :
    (p.relaid.vars.get? (Relaid.init p.globals i).var).isSome = true ∧
      (p.vars.get? i.var).isSome = true ∧
      initText p.relaid.vars (Relaid.init p.globals i) = initText p.vars i := by
  have hmem := (hp.inits i hi).1
  obtain ⟨v, hv, hdecl⟩ := hp.globals _ hmem
  have hget : p.relaid.vars.get? (Relaid.init p.globals i).var = some (v.reread .global) := by
    rw [Relaid.init, global_relaid (List.getElem?_idxOf hmem), VarTable.at_eq hv]
  refine ⟨by rw [hget]; rfl, by rw [hv]; rfl, ?_⟩
  simp only [initText, hget, hv, Option.map_some, Option.getD_some,
    Var.text_reread hdecl.cls .global (by decide)]
  rfl

/-- A printable program and the relaid one have the same text, in which every name can be looked up. -/
theorem Program.text_relaid :
    p.plainText? = some (p.text []) ∧ p.relaid.plainText? = some (p.text []) := by
  obtain ⟨hfuncs', hfuncs, htexts⟩ :=
    alike_funcs hp.globals p.funcs hp.funcs [] p.globals.length rfl rfl
  have hinits := fun i hi => init_relaid hp (i := i) hi
  have hdecls : decls p.relaid.vars "" p.relaid.globals = decls p.vars "" p.globals :=
    decls_positions hp.globals (show VarClass.global ≠ .arg by decide) fun k id hk => by
      rw [Nat.zero_add]
      exact global_relaid hk
  have hglobals : p.relaid.globalsText = p.globalsText := by
    rw [globalsText, globalsText, hdecls]
    congr 2
    show (p.inits.map (Relaid.init p.globals)).map (initText p.relaid.vars) = _
    rw [List.map_map]
    exact List.map_congr_left fun i hi => (hinits i hi).2.2
  -- Every variable that is printed has an entry, in the old table and in the new one.
  have hnamed : p.isNamed = true := by
    simp only [isNamed, Bool.and_eq_true, List.all_eq_true (p := fun i : Init => _),
      List.all_eq_true (p := fun id : VarId => _)]
    refine ⟨⟨fun id hid => ?_, fun i hi => (hinits i hi).2.1⟩, hfuncs⟩
    obtain ⟨v, hv, -⟩ := hp.globals id hid
    rw [hv]
    rfl
  have hnamed' : p.relaid.isNamed = true := by
    simp only [isNamed, Bool.and_eq_true, List.all_eq_true (p := fun i : Init => _),
      List.all_eq_true (p := fun id : VarId => _)]
    refine ⟨⟨fun id hid => ?_, fun i hi => ?_⟩, hfuncs'⟩
    · obtain ⟨k, hk, rfl⟩ := List.mem_map.1 hid
      rw [Nat.zero_add, global_relaid (List.getElem?_eq_getElem (List.mem_range.1 hk))]
      rfl
    · obtain ⟨j, hj, rfl⟩ := List.mem_map.1 hi
      exact (hinits j hj).1
  have htext : p.relaid.text [] = p.text [] := by
    rw [text_nil, text_nil, hglobals]
    exact congrArg _ htexts
  rw [plainText?, if_pos hnamed, plainText?, if_pos hnamed', htext]
  exact ⟨rfl, rfl⟩

end Program

end Tac
