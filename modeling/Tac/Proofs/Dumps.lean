import Tac.Builtin
import Tac.Proofs.Sexps

/-!
# Canonical forms as nested lists

The canonical form of a function is written in one walk over its tree, which numbers declarations as
it meets them.  Where each variable is declared before it is used, the numbers known at a use are
the final ones, so the form is the text of a nested list that looks variables up in the whole list
of declarations.

* **`Mention`, `FuncDef.mentions`** — what the walk meets, in its order.
* **`Ordered`, `FuncDef.Orderly`** — declarations begin once and before their uses; names are plain
  words.
* **`FuncDef.sexp`** — the nested list of a function.
* **`FuncDef.dump_eq_text`** — the canonical form is its text.
* **`FuncDef.Orderly.sexp_plain`** — its words are plain.
-/

namespace Tac.Tree

open Sexp

/-! ## Names in a tree -/

/-- What a walk over a tree meets: a declaration that begins, a use of a variable, a call. -/
inductive Mention where
  | opens (d : DeclId)
  | uses (d : DeclId)
  | calls (name : String)
deriving DecidableEq, Repr

/-- The declarations that begin, in their order. -/
def begun (ms : List Mention) : List DeclId :=
  ms.filterMap fun
    | .opens d => some d
    | _ => none

mutual

/-- What the walk over an expression meets. -/
def Expr.mentions : Expr → List Mention
  | .absent | .num _ => []
  | .lval d index _ => .uses d :: Expr.mentionsAll index
  | .call name _ args _ => .calls name :: Expr.mentionsAll args
  | .unary _ x => x.mentions
  | .binary _ l r => l.mentions ++ r.mentions

/-- What the walk over expressions meets. -/
def Expr.mentionsAll : List Expr → List Mention
  | [] => []
  | e :: es => e.mentions ++ Expr.mentionsAll es

end

/-- What the walk over a declaration meets: its initial values come after it began. -/
def Decls.mentions (ds : Decls) (d : DeclId) : List Mention :=
  .opens d :: ((ds.at d).init.map Expr.mentionsAll).getD []

mutual

/-- What the walk over a statement meets. -/
def Node.mentions (ds : Decls) : Node → List Mention
  | .skip | .leave _ | .again _ | .ret none _ => []
  | .declare d => ds.mentions d
  | .block items => Node.mentionsAll ds items
  | .assign d index _ value _ => .uses d :: Expr.mentionsAll index ++ value.mentions
  | .eval x => x.mentions
  | .cond c yes no => c.mentions ++ Node.mentions ds yes ++ Node.mentions ds no
  | .loop c body => c.mentions ++ Node.mentions ds body
  | .ret (some v) _ => v.mentions

/-- What the walk over statements meets. -/
def Node.mentionsAll (ds : Decls) : List Node → List Mention
  | [] => []
  | s :: ss => Node.mentions ds s ++ Node.mentionsAll ds ss

end

/-- What the walk over a function meets, parameters first. -/
def FuncDef.mentions (ds : Decls) (f : FuncDef) : List Mention :=
  f.params.flatMap ds.mentions ++ Node.mentionsAll ds f.body

@[simp] theorem begun_nil : begun [] = [] := rfl

@[simp] theorem begun_append (ms ns : List Mention) : begun (ms ++ ns) = begun ms ++ begun ns :=
  List.filterMap_append

@[simp] theorem begun_opens (d : DeclId) (ms : List Mention) :
    begun (.opens d :: ms) = d :: begun ms := rfl

@[simp] theorem begun_uses (d : DeclId) (ms : List Mention) :
    begun (.uses d :: ms) = begun ms := rfl

@[simp] theorem begun_calls (name : String) (ms : List Mention) :
    begun (.calls name :: ms) = begun ms := rfl

mutual

/-- No declaration begins in an expression. -/
@[simp] theorem begun_mentions : ∀ e : Expr, begun e.mentions = []
  | .absent | .num _ => by rw [Expr.mentions]; rfl
  | .lval d index _ => by rw [Expr.mentions, begun_uses, begun_mentionsAll index]
  | .call name _ args _ => by rw [Expr.mentions, begun_calls, begun_mentionsAll args]
  | .unary _ x => by rw [Expr.mentions, begun_mentions x]
  | .binary _ l r => by
    rw [Expr.mentions, begun_append, begun_mentions l, begun_mentions r, List.append_nil]

/-- No declaration begins in expressions. -/
@[simp] theorem begun_mentionsAll : ∀ es : List Expr, begun (Expr.mentionsAll es) = []
  | [] => by rw [Expr.mentionsAll]; rfl
  | e :: es => by
    rw [Expr.mentionsAll, begun_append, begun_mentions e, begun_mentionsAll es, List.append_nil]

end

/-- A declaration begins in itself and no other one does, whatever its initial values. -/
@[simp] theorem begun_decl (ds : Decls) (d : DeclId) : begun (ds.mentions d) = [d] := by
  unfold Decls.mentions
  cases (ds.at d).init with
  | none => rfl
  | some es => simp

/-! ## Functions in order -/

/-- Declarations begin once each, and before they are used. -/
structure Ordered (ms : List Mention) : Prop where
  once : (begun ms).Nodup
  opened : ∀ d ∈ begun ms, ∀ i < ms.length, ms[i]? = some (.uses d) → d ∈ begun (ms.take i)

instance (ms : List Mention) : Decidable (Ordered ms) :=
  decidable_of_iff (_ ∧ _) ⟨fun h => ⟨h.1, h.2⟩, fun h => ⟨h.once, h.opened⟩⟩

/-- Where a tree stands: its table, and the declarations of its function in their order. -/
structure Scope where
  decls : Decls
  declared : List DeclId

/-- The scope of a function. -/
def FuncDef.scope (ds : Decls) (f : FuncDef) : Scope := ⟨ds, begun (f.mentions ds)⟩

/-- The number of a variable that the function declares. -/
def Scope.number? (A : Scope) (d : DeclId) : Option Nat := A.declared.idxOf? d

/-- A name that a canonical form writes out is a plain word: that of a callee, and that of a
variable which the function does not declare. -/
def Mention.Plain (A : Scope) : Mention → Prop
  | .opens _ => True
  | .uses d => d ∉ A.declared → PlainWord (A.decls.at d).name
  | .calls name => PlainWord name

instance (A : Scope) : DecidablePred (Mention.Plain A)
  | .opens _ => inferInstanceAs (Decidable True)
  | .uses _ => inferInstanceAs (Decidable (_ → _))
  | .calls name => inferInstanceAs (Decidable (PlainWord name))

/-- A function whose declarations are in order and whose names are plain words. -/
structure FuncDef.Orderly (ds : Decls) (f : FuncDef) : Prop where
  ordered : Ordered (f.mentions ds)
  name : PlainWord f.name
  names : ∀ m ∈ f.mentions ds, m.Plain (f.scope ds)

instance (ds : Decls) (f : FuncDef) : Decidable (f.Orderly ds) :=
  decidable_of_iff (_ ∧ _ ∧ _)
    ⟨fun h => ⟨h.1, h.2.1, h.2.2⟩, fun h => ⟨h.ordered, h.name, h.names⟩⟩

/-! ## Canonical forms as nested lists -/

/-- Words up to a closing bracket: `word`, then numbers. -/
def closedWords (word : String) : List Int → List String
  | [] => [word ++ "]"]
  | n :: ns => word :: closedWords (Text.decimal n) ns

/-- The words of a shape, brackets included. -/
def dimWords : List Int → List String
  | [] => closedWords "[" []
  | n :: ns => closedWords ("[" ++ Text.decimal n) ns

namespace Scope

variable (A : Scope)

/-- A variable and its indexes. -/
def varForm (d : DeclId) (index : List Sexp) : Sexp :=
  match A.number? d with
  | some n => .form "var" (.atom (Text.decimal n) :: index)
  | none => .form "global" (.atom (A.decls.at d).name :: index)

mutual

/-- The canonical form of an expression. -/
def expr : Expr → Sexp
  | .absent => .atom "0"
  | .num n => .atom (Text.decimal n)
  | .lval d index _ => A.varForm d (exprs index)
  | .call name _ args _ => .form "call" (.atom name :: exprs args)
  | .unary op x => .form op.text [expr x]
  | .binary op l r => .form op.text [expr l, expr r]

/-- The canonical forms of expressions. -/
def exprs : List Expr → List Sexp
  | [] => []
  | e :: es => expr e :: exprs es

end

/-- The initial values of a declaration. -/
def init : Option (List Expr) → List Sexp
  | some es => [.form "init" (A.exprs es)]
  | none => []

/-- The canonical form of a declaration with `k` declarations before it. -/
def decl (k : Nat) (d : DeclId) : Sexp :=
  let x := A.decls.at d
  .form "def" (.atom (Text.decimal k) :: .atom (Dump.bool x.const) ::
    ((dimWords x.dims).map .atom ++ A.init x.init))

mutual

/-- The canonical form of a statement with `k` declarations before it. -/
def node (k : Nat) : Node → Sexp
  | .skip => .form "" []
  | .declare d => A.decl k d
  | .block items => .form "block" (nodes k items)
  | .assign d index _ value _ => .form "=" [A.varForm d (A.exprs index), A.expr value]
  | .eval x => .form "expr" [A.expr x]
  | .cond c yes no =>
    .form "if" [A.expr c, node k yes, node (k + (begun (yes.mentions A.decls)).length) no]
  | .loop c body => .form "while" [A.expr c, node k body]
  | .leave _ => .form "break" []
  | .again _ => .form "continue" []
  | .ret none _ => .form "return" []
  | .ret (some v) _ => .form "return" [A.expr v]

/-- The canonical forms of statements. -/
def nodes (k : Nat) : List Node → List Sexp
  | [] => []
  | s :: ss => node k s :: nodes (k + (begun (s.mentions A.decls)).length) ss

end

/-- The canonical forms of parameters. -/
def params (k : Nat) : List DeclId → List Sexp
  | [] => []
  | d :: rest => A.decl k d :: params (k + 1) rest

end Scope

/-- The canonical form of a function. -/
def FuncDef.sexp (ds : Decls) (f : FuncDef) : Sexp :=
  let A := f.scope ds
  .form "func" [.atom f.name, .atom (Dump.bool f.void), .form "params" (A.params 0 f.params),
    .form "block" (A.nodes f.params.length f.body)]

/-! ## Numbers -/

/-- The numbers that the declarations met so far have. -/
structure Numbered (num : Numbering) (ds : List DeclId) : Prop where
  size : num.size = ds.length
  get : ∀ d : DeclId, num[d]? = ds.idxOf? d

theorem numbered_empty : Numbered {} [] := ⟨rfl, fun d => by simp⟩

/-- The position in two lists is the one in the first of them, or the one in the second
behind the first. -/
theorem idxOf?_append (xs ys : List DeclId) (d : DeclId) :
    (xs ++ ys).idxOf? d = (xs.idxOf? d).or ((ys.idxOf? d).map (· + xs.length)) :=
  List.findIdx?_append

/-- What is in the first list has its position there, whatever comes behind. -/
theorem idxOf?_append_of_mem {xs : List DeclId} {d : DeclId} (h : d ∈ xs) (ys : List DeclId) :
    (xs ++ ys).idxOf? d = xs.idxOf? d := by
  have hsome : (xs.idxOf? d).isSome := by rw [List.isSome_idxOf?]; exact h
  rw [idxOf?_append, Option.or_of_isSome hsome]

/-- A declaration that begins gets the next number. -/
theorem Numbered.insert {num : Numbering} {ds : List DeclId} (h : Numbered num ds) {d : DeclId}
    (hd : d ∉ ds) : Numbered (num.insert d num.size) (ds ++ [d]) := by
  have hnew : ds.idxOf? d = none := List.idxOf?_eq_none_iff.2 hd
  have hnot : num.contains d = false := by
    rw [← Std.TreeMap.isSome_getElem?_eq_contains, h.get, hnew]
    rfl
  refine ⟨?_, fun d' => ?_⟩
  · rw [Std.TreeMap.size_insert, hnot, h.size, List.length_append]
    rfl
  · rw [Std.TreeMap.getElem?_insert, idxOf?_append, List.idxOf?_singleton, h.get, h.size]
    -- The declaration itself, or another one whose number stays.
    by_cases heq : d' = d
    · rw [heq, hnew]
      simp
    · have hcmp : compare d d' ≠ .eq := fun hcmp => heq (Nat.compare_eq_eq.1 hcmp).symm
      simp [hcmp, Ne.symm heq]

/-- A use is read with its final number, since the declaration that it may mean has begun. -/
theorem Ordered.idxOf?_of_use {before after : List Mention} {d : DeclId}
    (h : Ordered (before ++ .uses d :: after)) :
    (begun before).idxOf? d = (begun (before ++ .uses d :: after)).idxOf? d := by
  have hopen := fun hd => h.opened d hd before.length (by simp) (by simp)
  rw [List.take_left, begun_append] at hopen
  rw [begun_append]
  by_cases hmem : d ∈ begun before
  · rw [idxOf?_append_of_mem hmem]
  · rw [List.idxOf?_eq_none_iff.2 hmem, List.idxOf?_eq_none_iff.2 fun hall => hmem (hopen hall)]

/-- In the walk over the function of a scope, `ms` come right after `before`. -/
def Scope.Follows (A : Scope) (before ms : List Mention) : Prop :=
  ∃ after, Ordered (before ++ ms ++ after) ∧ A.declared = begun (before ++ ms ++ after)

namespace Scope.Follows

variable {A : Scope} {before ms ns : List Mention}

/-- The first part of the walk follows what the whole part follows. -/
theorem left (h : A.Follows before (ms ++ ns)) : A.Follows before ms := by
  obtain ⟨after, h⟩ := h
  refine ⟨ns ++ after, ?_⟩
  rwa [← List.append_assoc, List.append_assoc before]

/-- The second part of the walk follows the first one. -/
theorem right (h : A.Follows before (ms ++ ns)) : A.Follows (before ++ ms) ns := by
  obtain ⟨after, h⟩ := h
  refine ⟨after, ?_⟩
  rwa [List.append_assoc before]

/-- A declaration that begins is none of those that began before. -/
theorem fresh {d : DeclId} (h : A.Follows before (.opens d :: ms)) : d ∉ begun before := by
  obtain ⟨after, ⟨honce, -⟩, -⟩ := h
  rw [begun_append, begun_append, begun_opens, List.append_assoc, List.nodup_append] at honce
  exact fun hd => honce.2.2 d hd d List.mem_cons_self rfl

/-- What begins no declaration is read with the final numbers. -/
theorem number?_eq {num : Numbering} (h : A.Follows before ms) (hms : begun ms = [])
    (hnum : Numbered num (begun before)) : ∀ d, .uses d ∈ ms → num[d]? = A.number? d := by
  intro d hd
  obtain ⟨after, hord, hdecl⟩ := h
  obtain ⟨ms₁, ms₂, rfl⟩ := List.append_of_mem hd
  have hfirst : begun ms₁ = [] := by
    rw [begun_append] at hms
    exact (List.append_eq_nil_iff.1 hms).1
  -- The use is singled out, so that no declaration begins between `before` and the use.
  have hsplit : before ++ (ms₁ ++ .uses d :: ms₂) ++ after =
      before ++ ms₁ ++ .uses d :: (ms₂ ++ after) := by simp
  rw [hsplit] at hord hdecl
  rw [Scope.number?, hdecl, ← hord.idxOf?_of_use, begun_append, hfirst, List.append_nil, hnum.get]

end Scope.Follows

/-! ## Texts -/

section Texts

variable {A : Scope}

/-- A variable with its indexes is written as its form. -/
theorem varHead_text {num : Numbering} {d : DeclId} (h : num[d]? = A.number? d)
    (items : List Sexp) :
    Dump.varHead A.decls num d ++ itemsText items ++ ")" = (A.varForm d items).text := by
  unfold Dump.varHead Scope.varForm
  rw [h, ← String.toList_inj]
  -- Declared variables are written by number and others by name, on both sides.
  cases A.number? d <;> simp

mutual

/-- An expression in which all uses are read with their final numbers is written as its form. -/
theorem expr_text {num : Numbering} : ∀ {e : Expr},
    (∀ d, .uses d ∈ e.mentions → num[d]? = A.number? d) →
    Dump.expr A.decls num e = (A.expr e).text
  | .absent, _ => by rw [Dump.expr, Scope.expr, text_atom]
  | .num n, _ => by rw [Dump.expr, Scope.expr, text_atom]
  | .lval d index _, h => by
    rw [Expr.mentions] at h
    rw [Dump.expr, Scope.expr, exprs_text fun d hd => h d (List.mem_cons_of_mem _ hd),
      varHead_text (h d List.mem_cons_self)]
  | .call name _ args _, h => by
    rw [Expr.mentions] at h
    rw [Dump.expr, Scope.expr, exprs_text fun d hd => h d (List.mem_cons_of_mem _ hd),
      ← String.toList_inj]
    simp
  | .unary op x, h => by
    rw [Expr.mentions] at h
    rw [Dump.expr, Scope.expr, expr_text h, ← String.toList_inj]
    simp
  | .binary op l r, h => by
    rw [Expr.mentions] at h
    rw [Dump.expr, Scope.expr, expr_text fun d hd => h d (List.mem_append_left _ hd),
      expr_text fun d hd => h d (List.mem_append_right _ hd), ← String.toList_inj]
    simp

/-- Expressions are written as their forms, each with a blank in front. -/
theorem exprs_text {num : Numbering} : ∀ {es : List Expr},
    (∀ d, .uses d ∈ Expr.mentionsAll es → num[d]? = A.number? d) →
    Dump.exprs A.decls num es = itemsText (A.exprs es)
  | [], _ => by rw [Dump.exprs, Scope.exprs, itemsText_nil]
  | e :: es, h => by
    rw [Expr.mentionsAll] at h
    rw [Dump.exprs, Scope.exprs, itemsText_cons,
      expr_text fun d hd => h d (List.mem_append_left _ hd),
      exprs_text fun d hd => h d (List.mem_append_right _ hd)]

end

/-- Words up to a closing bracket are the numbers with blanks between them and the bracket
behind. -/
theorem closedWords_text (word : String) (ns : List Int) :
    itemsText ((closedWords word ns).map .atom) =
      " " ++ " ".intercalate (word :: ns.map Text.decimal) ++ "]" := by
  -- On the numbers; the bracket sticks to the last word.
  induction ns generalizing word with
  | nil =>
    rw [← String.toList_inj]
    simp [closedWords]
  | cons n ns ih =>
    rw [closedWords, List.map_cons, itemsText_cons, ih, List.map_cons, String.intercalate_cons_cons]
    simp only [text_atom, String.append_assoc]

/-- The words of a shape with a blank before each are the shape after a blank. -/
theorem dimWords_text (ns : List Int) :
    itemsText ((dimWords ns).map .atom) = " " ++ Dump.dims ns := by
  cases ns with
  | nil => rw [dimWords, closedWords_text]; rfl
  | cons n ns =>
    rw [dimWords, closedWords_text, String.intercalate_cons_append, Dump.dims, List.map_cons]
    simp only [String.append_assoc]

/-- No declaration begins in initial values. -/
theorem begun_init (x : Option (List Expr)) : begun ((x.map Expr.mentionsAll).getD []) = [] := by
  cases x with
  | none => rfl
  | some es => exact begun_mentionsAll es

/-- A declaration is written with the number of those that began before it. -/
theorem decl_text {num : Numbering} {before : List Mention} {d : DeclId}
    (h : A.Follows before (A.decls.mentions d)) (hnum : Numbered num (begun before)) :
    (Dump.decl A.decls num d).1 = (A.decl (begun before).length d).text ∧
      Numbered (Dump.decl A.decls num d).2 (begun (before ++ A.decls.mentions d)) := by
  have hnext : Numbered (num.insert d num.size) (begun before ++ [d]) := hnum.insert h.fresh
  -- The initial values are read after the declaration began, with its own number already
  -- known.
  have hinit := (show A.Follows before ([.opens d] ++ _) from h).right.number?_eq (begun_init _)
    (by rw [begun_append]; exact hnext)
  constructor
  · unfold Dump.decl Scope.decl
    dsimp only
    rw [hnum.size, text_form, itemsText_cons, itemsText_cons, itemsText_append, dimWords_text,
      ← hnum.size]
    generalize (A.decls.at d).init = x at hinit ⊢
    cases x with
    | none =>
      rw [Scope.init, ← String.toList_inj]
      simp
    | some es =>
      dsimp only
      rw [exprs_text hinit, Scope.init, ← String.toList_inj]
      simp
  · rw [begun_append, begun_decl]
    exact hnext

mutual

/-- A statement is written as its form, with the number of the declarations that began before it.
The numbers known after it are those of all declarations that have begun by then. -/
theorem node_text : ∀ {s : Node} {num : Numbering} {before : List Mention},
    A.Follows before (s.mentions A.decls) → Numbered num (begun before) →
    (Dump.node A.decls num s).1 = (A.node (begun before).length s).text ∧
      Numbered (Dump.node A.decls num s).2 (begun (before ++ s.mentions A.decls))
  | .skip, num, before, h, hnum => by
    rw [Node.mentions, List.append_nil, Dump.node, Scope.node]
    exact ⟨by rw [text_form]; rfl, hnum⟩
  | .declare d, num, before, h, hnum => by
    rw [Node.mentions] at h ⊢
    rw [Dump.node, Scope.node]
    exact decl_text h hnum
  | .block items, num, before, h, hnum => by
    rw [Node.mentions] at h ⊢
    obtain ⟨hitems, hnum'⟩ := nodes_text h hnum
    refine ⟨?_, by rw [Dump.node]; exact hnum'⟩
    rw [Dump.node, Scope.node, text_form, ← hitems]
    rfl
  | .assign d index pos value pos', num, before, h, hnum => by
    rw [Node.mentions] at h ⊢
    have hnone : begun (.uses d :: Expr.mentionsAll index ++ value.mentions) = [] := by simp
    have huse := h.number?_eq hnone hnum
    refine ⟨?_, by rwa [begun_append, hnone, List.append_nil, Dump.node]⟩
    rw [Dump.node, Scope.node, exprs_text fun d hd => huse d (by simp [hd]),
      expr_text fun d hd => huse d (by simp [hd]), text_form, itemsText_cons, itemsText_cons,
      ← varHead_text (huse d (by simp)), ← String.toList_inj]
    simp
  | .eval x, num, before, h, hnum => by
    rw [Node.mentions] at h ⊢
    rw [begun_append, begun_mentions, List.append_nil, Dump.node, Scope.node,
      expr_text (h.number?_eq (begun_mentions x) hnum)]
    exact ⟨by rw [← String.toList_inj]; simp, hnum⟩
  | .cond c yes no, num, before, h, hnum => by
    rw [Node.mentions] at h ⊢
    -- A condition begins no declaration, so the first way starts with the numbers that are
    -- known.
    have hcond := expr_text (h.left.left.number?_eq (begun_mentions c) hnum)
    have hstart : Numbered num (begun (before ++ c.mentions)) := by
      rwa [begun_append, begun_mentions, List.append_nil]
    obtain ⟨hyes, hnum'⟩ := node_text h.left.right hstart
    rw [List.append_assoc] at hnum'
    obtain ⟨hno, hnum''⟩ := node_text h.right hnum'
    rw [List.append_assoc] at hnum''
    refine ⟨?_, by rw [Dump.node]; exact hnum''⟩
    rw [Dump.node, Scope.node]
    dsimp only
    rw [hcond, hyes, hno, ← String.toList_inj]
    simp
  | .loop c body, num, before, h, hnum => by
    rw [Node.mentions] at h ⊢
    have hcond := expr_text (h.left.number?_eq (begun_mentions c) hnum)
    have hstart : Numbered num (begun (before ++ c.mentions)) := by
      rwa [begun_append, begun_mentions, List.append_nil]
    obtain ⟨hbody, hnum'⟩ := node_text h.right hstart
    rw [List.append_assoc] at hnum'
    refine ⟨?_, by rw [Dump.node]; exact hnum'⟩
    rw [Dump.node, Scope.node]
    dsimp only
    rw [hcond, hbody, ← String.toList_inj]
    simp
  | .leave _, num, before, h, hnum => by
    rw [Node.mentions, List.append_nil, Dump.node, Scope.node]
    exact ⟨by rw [text_form]; rfl, hnum⟩
  | .again _, num, before, h, hnum => by
    rw [Node.mentions, List.append_nil, Dump.node, Scope.node]
    exact ⟨by rw [text_form]; rfl, hnum⟩
  | .ret none _, num, before, h, hnum => by
    rw [Node.mentions, List.append_nil, Dump.node, Scope.node]
    exact ⟨by rw [text_form]; rfl, hnum⟩
  | .ret (some v) _, num, before, h, hnum => by
    rw [Node.mentions] at h ⊢
    rw [begun_append, begun_mentions, List.append_nil, Dump.node, Scope.node,
      expr_text (h.number?_eq (begun_mentions v) hnum)]
    exact ⟨by rw [← String.toList_inj]; simp, hnum⟩

/-- Statements are written as their forms, each with a blank in front and with the numbers
of those before it. -/
theorem nodes_text : ∀ {ss : List Node} {num : Numbering} {before : List Mention},
    A.Follows before (Node.mentionsAll A.decls ss) → Numbered num (begun before) →
    (Dump.nodes A.decls num ss).1 = itemsText (A.nodes (begun before).length ss) ∧
      Numbered (Dump.nodes A.decls num ss).2 (begun (before ++ Node.mentionsAll A.decls ss))
  | [], num, before, h, hnum => by
    rw [Node.mentionsAll, List.append_nil, Dump.nodes, Scope.nodes]
    exact ⟨rfl, hnum⟩
  | s :: ss, num, before, h, hnum => by
    rw [Node.mentionsAll] at h ⊢
    obtain ⟨hs, hnum'⟩ := node_text h.left hnum
    -- The rest is written with the numbers that the first statement left.
    obtain ⟨hss, hnum''⟩ := nodes_text h.right hnum'
    rw [Dump.nodes, Scope.nodes, itemsText_cons, ← hs]
    rw [begun_append, List.length_append] at hss
    rw [← hss, ← List.append_assoc]
    exact ⟨rfl, hnum''⟩

end

/-- Parameters are written as their forms, numbered from the first one. -/
theorem params_text : ∀ {ps : List DeclId} {num : Numbering} {before : List Mention},
    A.Follows before (ps.flatMap A.decls.mentions) → Numbered num (begun before) →
    (Dump.params A.decls num ps).1 = itemsText (A.params (begun before).length ps) ∧
      Numbered (Dump.params A.decls num ps).2 (begun (before ++ ps.flatMap A.decls.mentions))
  | [], num, before, h, hnum => by
    rw [List.flatMap_nil, List.append_nil]
    exact ⟨rfl, hnum⟩
  | d :: rest, num, before, h, hnum => by
    rw [List.flatMap_cons] at h ⊢
    obtain ⟨hd, hnum'⟩ := decl_text h.left hnum
    obtain ⟨hrest, hnum''⟩ := params_text h.right hnum'
    rw [Dump.params, Scope.params, itemsText_cons, ← hd]
    rw [begun_append, begun_decl, List.length_append, List.length_singleton] at hrest
    rw [← hrest, ← List.append_assoc]
    exact ⟨rfl, hnum''⟩

/-- Each parameter begins one declaration. -/
theorem length_begun_params (ds : Decls) (ps : List DeclId) :
    (begun (ps.flatMap ds.mentions)).length = ps.length := by
  induction ps with
  | nil => rfl
  | cons p ps ih => simp [ih]

/-- The canonical form of a function with ordered declarations is the text of a nested list. -/
theorem FuncDef.dump_eq_text {ds : Decls} {f : FuncDef} (h : Ordered (f.mentions ds)) :
    f.dump ds = (f.sexp ds).text := by
  have hwalk : (f.scope ds).Follows [] (f.mentions ds) := ⟨[], by simpa [FuncDef.scope] using h⟩
  -- The walk goes over the parameters first and over the body with their numbers.
  obtain ⟨hparams, hnum⟩ := params_text (A := f.scope ds) hwalk.left numbered_empty
  obtain ⟨hbody, -⟩ := nodes_text (A := f.scope ds) hwalk.right hnum
  have hparams : itemsText ((f.scope ds).params 0 f.params) = (Dump.params ds {} f.params).1 :=
    hparams.symm
  rw [List.nil_append, length_begun_params] at hbody
  unfold FuncDef.sexp
  rw [text_form, itemsText_cons, itemsText_cons, itemsText_cons, itemsText_cons, text_form,
    text_form, ← hbody, hparams, ← String.toList_inj]
  delta FuncDef.dump FuncDef.scope
  simp

end Texts

/-! ## Plain words -/

/-- All names that the canonical form of a part of the walk writes out are plain words. -/
def Scope.Spells (A : Scope) (ms : List Mention) : Prop := ∀ m ∈ ms, m.Plain A

namespace Scope.Spells

variable {A : Scope} {ms ns : List Mention}

theorem left (h : A.Spells (ms ++ ns)) : A.Spells ms := fun m hm => h m (List.mem_append_left ns hm)

theorem right (h : A.Spells (ms ++ ns)) : A.Spells ns :=
  fun m hm => h m (List.mem_append_right ms hm)

theorem tail {m : Mention} (h : A.Spells (m :: ms)) : A.Spells ms :=
  fun m' hm => h m' (List.mem_cons_of_mem m hm)

end Scope.Spells

section Plain

variable {A : Scope}

/-- A variable is written with a number or with a name that is plain. -/
theorem varForm_plain {ms : List Mention} {d : DeclId} {items : List Sexp}
    (h : A.Spells (.uses d :: ms)) (hitems : AllPlain items) : (A.varForm d items).Plain := by
  unfold Scope.varForm
  cases hd : A.number? d with
  | some n =>
    have hnumber := plain_atom.2 (plainWord_decimal n)
    exact plain_form.2 ⟨by decide, allPlain_cons.2 ⟨hnumber, hitems⟩⟩
  | none =>
    have hname := h _ List.mem_cons_self (List.idxOf?_eq_none_iff.1 hd)
    exact plain_form.2 ⟨by decide, allPlain_cons.2 ⟨plain_atom.2 hname, hitems⟩⟩

theorem unOp_plain (op : UnOp) : PlainWord op.text := by cases op <;> decide

/-- Binary operators are plain words. -/
theorem binOp_plain (op : BinOp) : PlainWord op.text := by
  cases op with
  | cmp r => cases r <;> decide
  | _ => decide

mutual

/-- The form of an expression is plain when its names are. -/
theorem expr_plain : ∀ {e : Expr}, A.Spells e.mentions → (A.expr e).Plain
  | .absent, _ => by rw [Scope.expr]; exact plain_atom.2 (by decide)
  | .num n, _ => by rw [Scope.expr]; exact plain_atom.2 (plainWord_decimal n)
  | .lval d index _, h => by
    rw [Expr.mentions] at h
    rw [Scope.expr]
    exact varForm_plain h (exprs_plain h.tail)
  | .call name _ args _, h => by
    rw [Expr.mentions] at h
    rw [Scope.expr, plain_form, allPlain_cons, plain_atom]
    exact ⟨by decide, h _ List.mem_cons_self, exprs_plain h.tail⟩
  | .unary op x, h => by
    rw [Expr.mentions] at h
    simp only [Scope.expr, plain_form, allPlain_cons, allPlain_nil, and_true]
    exact ⟨unOp_plain op, expr_plain h⟩
  | .binary op l r, h => by
    rw [Expr.mentions] at h
    simp only [Scope.expr, plain_form, allPlain_cons, allPlain_nil, and_true]
    exact ⟨binOp_plain op, expr_plain h.left, expr_plain h.right⟩

/-- The forms of expressions are plain when their names are. -/
theorem exprs_plain : ∀ {es : List Expr}, A.Spells (Expr.mentionsAll es) → AllPlain (A.exprs es)
  | [], _ => by rw [Scope.exprs]; exact allPlain_nil
  | e :: es, h => by
    rw [Expr.mentionsAll] at h
    rw [Scope.exprs, allPlain_cons]
    exact ⟨expr_plain h.left, exprs_plain h.right⟩

end

/-- Words up to a closing bracket are plain, as the bracket is no round one. -/
theorem closedWords_plain {word : String} (hword : PlainWord word) (ns : List Int) :
    AllPlain ((closedWords word ns).map .atom) := by
  induction ns generalizing word with
  | nil => simpa [closedWords] using hword.append (t := "]") (by decide)
  | cons n ns ih => simpa [closedWords] using ⟨hword, ih (plainWord_decimal n)⟩

/-- The words of a shape are plain. -/
theorem dimWords_plain (ns : List Int) : AllPlain ((dimWords ns).map .atom) := by
  cases ns with
  | nil => exact closedWords_plain (by decide) []
  | cons n ns =>
    have hopen : PlainWord "[" := by decide
    exact closedWords_plain (hopen.append (plainWord_decimal n)) ns

/-- The forms of initial values are plain when their names are. -/
theorem init_plain {x : Option (List Expr)}
    (h : A.Spells ((x.map Expr.mentionsAll).getD [])) : AllPlain (A.init x) := by
  cases x with
  | none => exact allPlain_nil
  | some es =>
    rw [Scope.init, allPlain_cons, plain_form]
    exact ⟨⟨by decide, exprs_plain h⟩, allPlain_nil⟩

theorem bool_plain (b : Bool) : PlainWord (Dump.bool b) := by cases b <;> decide

/-- The form of a declaration is plain when the names in its initial values are. -/
theorem decl_plain {k : Nat} {d : DeclId} (h : A.Spells (A.decls.mentions d)) :
    (A.decl k d).Plain := by
  unfold Scope.decl
  simp only [plain_form, allPlain_cons, plain_atom, allPlain_append]
  exact ⟨by decide, plainWord_decimal k, bool_plain _, dimWords_plain _, init_plain h.tail⟩

mutual

/-- The form of a statement is plain when its names are. -/
theorem node_plain : ∀ {s : Node} {k : Nat}, A.Spells (s.mentions A.decls) → (A.node k s).Plain
  -- One case for each statement; a form is plain if its head and parts are.
  | .skip, k, _ | .leave _, k, _ | .again _, k, _ | .ret none _, k, _ => by
    rw [Scope.node, plain_form]
    exact ⟨by decide, allPlain_nil⟩
  | .declare d, k, h => by
    rw [Node.mentions] at h
    rw [Scope.node]
    exact decl_plain h
  | .block items, k, h => by
    rw [Node.mentions] at h
    rw [Scope.node, plain_form]
    exact ⟨by decide, nodes_plain h⟩
  | .assign d index _ value _, k, h => by
    rw [Node.mentions] at h
    simp only [Scope.node, plain_form, allPlain_cons, allPlain_nil, and_true]
    exact ⟨by decide, varForm_plain h.left (exprs_plain h.left.tail), expr_plain h.right⟩
  | .eval x, k, h | .ret (some x) _, k, h => by
    rw [Node.mentions] at h
    simp only [Scope.node, plain_form, allPlain_cons, allPlain_nil, and_true]
    exact ⟨by decide, expr_plain h⟩
  | .cond c yes no, k, h => by
    rw [Node.mentions] at h
    simp only [Scope.node, plain_form, allPlain_cons, allPlain_nil, and_true]
    exact ⟨by decide, expr_plain h.left.left, node_plain h.left.right, node_plain h.right⟩
  | .loop c body, k, h => by
    rw [Node.mentions] at h
    simp only [Scope.node, plain_form, allPlain_cons, allPlain_nil, and_true]
    exact ⟨by decide, expr_plain h.left, node_plain h.right⟩

/-- The forms of statements are plain when their names are. -/
theorem nodes_plain : ∀ {ss : List Node} {k : Nat},
    A.Spells (Node.mentionsAll A.decls ss) → AllPlain (A.nodes k ss)
  | [], k, _ => by rw [Scope.nodes]; exact allPlain_nil
  | s :: ss, k, h => by
    rw [Node.mentionsAll] at h
    rw [Scope.nodes, allPlain_cons]
    exact ⟨node_plain h.left, nodes_plain h.right⟩

end

/-- The forms of parameters are plain when the names in their initial values are. -/
theorem params_plain : ∀ {ps : List DeclId} {k : Nat},
    A.Spells (ps.flatMap A.decls.mentions) → AllPlain (A.params k ps)
  | [], k, _ => allPlain_nil
  | d :: rest, k, h => by
    rw [List.flatMap_cons] at h
    exact allPlain_cons.2 ⟨decl_plain h.left, params_plain h.right⟩

/-- The form of an orderly function is plain, so that its text can be read back. -/
theorem FuncDef.Orderly.sexp_plain {ds : Decls} {f : FuncDef} (h : f.Orderly ds) :
    (f.sexp ds).Plain := by
  have hnames : (f.scope ds).Spells (f.params.flatMap ds.mentions ++ _) := h.names
  simp only [FuncDef.sexp, plain_form, allPlain_cons, allPlain_nil, and_true, plain_atom]
  exact ⟨by decide, h.name, bool_plain _, ⟨by decide, params_plain hnames.left⟩, by decide,
    nodes_plain hnames.right⟩

end Plain

end Tac.Tree
