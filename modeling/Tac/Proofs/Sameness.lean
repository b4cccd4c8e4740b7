import Tac.Proofs.Dumps

/-!
# What a canonical form tells apart

Two functions have the same canonical form when they are the same tree up to what the form leaves
out: positions, names of declared variables, what calls know of the function they name, and the
difference between an absent expression and a zero.

* **`SameExpr`, `SameNode`, `SameFunc`** — the same tree in this sense.
* **`sexp_inj`** — nested lists of functions are equal when the functions are the same.
* **`dump_identifies`** — so are canonical forms, and matching against the catalog finds exactly the
  functions that are the same as a reference.
-/

namespace Tac

/-! ## Heads of operators -/

theorem UnOp.text_injective : Function.Injective UnOp.text := fun a b h => by
  rw [← Option.some_inj, ← UnOp.parse?_text a, h, UnOp.parse?_text]

theorem BinOp.text_injective : Function.Injective BinOp.text := fun a b h => by
  rw [← Option.some_inj, ← BinOp.parse?_text a, h, BinOp.parse?_text]

namespace Tree

open Sexp

/-! ## The same tree -/

/-- The number that an absent expression or a literal stands for. -/
def Expr.literal? : Expr → Option Int
  | .absent => some 0
  | .num n => some n
  | _ => none

section Same

variable (A B : Scope)

/-- Two variables with the same number, or two undeclared ones of the same name. -/
def SameVar (d d' : DeclId) : Prop :=
  A.number? d = B.number? d' ∧ (d ∉ A.declared → (A.decls.at d).name = (B.decls.at d').name)

mutual

/-- Two expressions that are the same up to positions, names of declared variables and what calls
know of the function they name.  An absent expression is the same as a zero. -/
def SameExpr : Expr → Expr → Prop
  | .lval d index _, .lval d' index' _ => SameVar A B d d' ∧ SameExprs index index'
  | .call name _ args _, .call name' _ args' _ => name = name' ∧ SameExprs args args'
  | .unary op x, .unary op' x' => op = op' ∧ SameExpr x x'
  | .binary op l r, .binary op' l' r' => op = op' ∧ SameExpr l l' ∧ SameExpr r r'
  | x, y => ∃ n, x.literal? = some n ∧ y.literal? = some n

/-- Two lists of expressions that are the same one by one. -/
def SameExprs : List Expr → List Expr → Prop
  | [], [] => True
  | x :: xs, y :: ys => SameExpr x y ∧ SameExprs xs ys
  | _, _ => False

end

/-- Two declarations of the same variable but for its name and position. -/
structure SameDecl (x y : Decl) : Prop where
  const : x.const = y.const
  dims : x.dims = y.dims
  init : Option.Rel (SameExprs A B) x.init y.init

mutual

/-- Two statements that are the same up to positions and names of declared variables. -/
def SameNode : Node → Node → Prop
  | .skip, .skip => True
  | .block items, .block items' => SameNodes items items'
  | .declare d, .declare d' => SameDecl A B (A.decls.at d) (B.decls.at d')
  | .assign d index _ value _, .assign d' index' _ value' _ =>
    SameVar A B d d' ∧ SameExprs A B index index' ∧ SameExpr A B value value'
  | .eval x, .eval x' => SameExpr A B x x'
  | .cond c yes no, .cond c' yes' no' => SameExpr A B c c' ∧ SameNode yes yes' ∧ SameNode no no'
  | .loop c body, .loop c' body' => SameExpr A B c c' ∧ SameNode body body'
  | .leave _, .leave _ => True
  | .again _, .again _ => True
  | .ret v _, .ret v' _ => Option.Rel (SameExpr A B) v v'
  | _, _ => False

/-- Two lists of statements that are the same one by one. -/
def SameNodes : List Node → List Node → Prop
  | [], [] => True
  | s :: ss, t :: ts => SameNode s t ∧ SameNodes ss ts
  | _, _ => False

end

end Same

/-- Two functions that are the same tree: nothing is compared of positions, of the names of declared
variables, of undeclared variables but their names, and of callees but their names. -/
structure SameFunc (ds es : Decls) (f g : FuncDef) : Prop where
  name : f.name = g.name
  void : f.void = g.void
  params : List.Forall₂ (fun d d' => SameDecl (f.scope ds) (g.scope es) (ds.at d) (es.at d'))
    f.params g.params
  body : SameNodes (f.scope ds) (g.scope es) f.body g.body

/-! ## Forms of expressions -/

section Forms

variable {A B : Scope}

/-- The forms of two variables agree if the variables do and what follows them. -/
theorem varForm_inj {d d' : DeclId} {xs ys : List Sexp} :
    A.varForm d xs = B.varForm d' ys ↔ SameVar A B d d' ∧ xs = ys := by
  have hA : A.number? d = none ↔ d ∉ A.declared := List.idxOf?_eq_none_iff
  rw [SameVar, ← hA]
  unfold Scope.varForm
  -- Numbers are told from names by the head of the form.
  cases A.number? d with
  | some n =>
    cases B.number? d' with
    | some n' => simp [Text.decimal_injective.eq_iff]
    | none => simp
  | none =>
    cases B.number? d' with
    | some n' => simp
    | none => simp

/-- Which of the constructors made an expression; absent ones count as literals. -/
inductive Expr.Kind where
  | value | var | call | unary | binary
deriving DecidableEq

/-- The kind of an expression. -/
def Expr.kind : Expr → Expr.Kind
  | .absent | .num _ => .value
  | .lval .. => .var
  | .call .. => .call
  | .unary .. => .unary
  | .binary .. => .binary

/-- The kind that a form shows: operators are told apart by the number of their operands. -/
def shownKind : Sexp → Expr.Kind
  | .atom _ => .value
  | .form head items =>
    if head = "var" ∨ head = "global" then .var
    else if head = "call" then .call
    else if items.length = 1 then .unary
    else .binary

/-- No unary operator is written like one of the words for variables and calls. -/
theorem unOp_text_ne (op : UnOp) : op.text ≠ "var" ∧ op.text ≠ "global" ∧ op.text ≠ "call" := by
  cases op <;> decide

/-- No binary operator is written like one of the words for variables and calls. -/
theorem binOp_text_ne (op : BinOp) : op.text ≠ "var" ∧ op.text ≠ "global" ∧ op.text ≠ "call" := by
  cases op with
  | cmp r => cases r <;> decide
  | _ => decide

/-- A form shows the kind of its expression: no operator is written like a variable or a call. -/
theorem shownKind_expr (x : Expr) : shownKind (A.expr x) = x.kind := by
  cases x with
  | absent | num n => rw [Scope.expr]; rfl
  | lval d index pos =>
    rw [Scope.expr]
    unfold Scope.varForm
    cases A.number? d <;> rfl
  | call name callee args pos => rw [Scope.expr]; rfl
  | unary op x => simp [Scope.expr, shownKind, unOp_text_ne op, Expr.kind]
  | binary op l r => simp [Scope.expr, shownKind, binOp_text_ne op, Expr.kind]

/-- No two kinds of expressions are the same. -/
theorem SameExpr.kind_eq {x y : Expr} (h : SameExpr A B x y) : x.kind = y.kind := by
  cases x <;> cases y <;> first | rfl | simp [SameExpr, Expr.literal?] at h

/-- Expressions of different kinds have different forms and are not the same. -/
theorem expr_inj_of_kind_ne {x y : Expr} (h : x.kind ≠ y.kind) :
    A.expr x = B.expr y ↔ SameExpr A B x y := by
  refine iff_of_false (fun heq => h ?_) fun hsame => h hsame.kind_eq
  rw [← shownKind_expr (A := A), heq, shownKind_expr]

/-- An expression that is a literal is dumped as its number. -/
theorem expr_of_literal {x : Expr} {n : Int} (h : x.literal? = some n) :
    A.expr x = .atom (Text.decimal n) := by
  cases x with
  | absent =>
    obtain rfl : 0 = n := Option.some.inj h
    rw [Scope.expr]
    rfl
  | num m =>
    obtain rfl : m = n := Option.some.inj h
    rw [Scope.expr]
  | _ => simp [Expr.literal?] at h

/-- Literals are dumped alike if their numbers agree. -/
theorem expr_inj_of_literal {x y : Expr} {m n : Int} (hx : x.literal? = some m)
    (hy : y.literal? = some n) : A.expr x = B.expr y ↔ SameExpr A B x y := by
  have hsame : SameExpr A B x y ↔ m = n := by
    cases x <;> cases y <;> simp_all [SameExpr, Expr.literal?, eq_comm]
  rw [hsame, expr_of_literal hx, expr_of_literal hy, atom.injEq, Text.decimal_injective.eq_iff]

mutual

/-- Expressions have the same form when they are the same; numbers of variables take the place of
the variables. -/
theorem expr_inj : ∀ x y : Expr, A.expr x = B.expr y ↔ SameExpr A B x y
  | .absent, y => by
    cases y with
    | absent => exact expr_inj_of_literal rfl rfl
    | num n => exact expr_inj_of_literal rfl rfl
    | _ => exact expr_inj_of_kind_ne (by simp [Expr.kind])
  | .num n, y => by
    cases y with
    | absent => exact expr_inj_of_literal rfl rfl
    | num n => exact expr_inj_of_literal rfl rfl
    | _ => exact expr_inj_of_kind_ne (by simp [Expr.kind])
  | .lval d index _, y => by
    cases y with
    | lval d' index' pos => rw [Scope.expr, Scope.expr, SameExpr, varForm_inj, exprs_inj]
    | _ => exact expr_inj_of_kind_ne (by simp [Expr.kind])
  | .call name callee args _, y => by
    cases y with
    | call name' callee' args' pos => simp [Scope.expr, SameExpr, exprs_inj args]
    | _ => exact expr_inj_of_kind_ne (by simp [Expr.kind])
  | .unary op x, y => by
    cases y with
    | unary op' x' => simp [Scope.expr, SameExpr, UnOp.text_injective.eq_iff, expr_inj x]
    | _ => exact expr_inj_of_kind_ne (by simp [Expr.kind])
  | .binary op l r, y => by
    cases y with
    | binary op' l' r' =>
      simp [Scope.expr, SameExpr, BinOp.text_injective.eq_iff, expr_inj l, expr_inj r]
    | _ => exact expr_inj_of_kind_ne (by simp [Expr.kind])

/-- Lists of expressions are dumped alike if they are the same, one by one. -/
theorem exprs_inj : ∀ xs ys : List Expr, A.exprs xs = B.exprs ys ↔ SameExprs A B xs ys
  | [], [] => by simp [Scope.exprs, SameExprs]
  | [], y :: ys => by simp [Scope.exprs, SameExprs]
  | x :: xs, [] => by simp [Scope.exprs, SameExprs]
  | x :: xs, y :: ys => by
    rw [Scope.exprs, Scope.exprs, SameExprs, List.cons.injEq, expr_inj x y, exprs_inj xs ys]

end

/-! ## Forms of declarations -/

theorem closedWords_ne_nil (word : String) (ns : List Int) : closedWords word ns ≠ [] := by
  cases ns <;> exact List.cons_ne_nil _ _

/-- The words that are closed by brackets can be told apart. -/
theorem closedWords_inj : ∀ {v w : String} {ms ns : List Int},
    closedWords v ms = closedWords w ns → v = w ∧ ms = ns
  | v, w, [], [], h => ⟨(String.append_left_inj "]").1 (List.cons.inj h).1, rfl⟩
  | v, w, [], n :: ns, h => absurd (List.cons.inj h).2.symm (closedWords_ne_nil _ _)
  | v, w, m :: ms, [], h => absurd (List.cons.inj h).2 (closedWords_ne_nil _ _)
  | v, w, m :: ms, n :: ns, h => by
    obtain ⟨rfl, hrest⟩ := List.cons.inj h
    obtain ⟨hm, rfl⟩ := closedWords_inj hrest
    exact ⟨rfl, by rw [Text.decimal_injective hm]⟩

/-- Different dimensions are written differently. -/
theorem dimWords_injective : Function.Injective dimWords := fun ms ns h => by
  have hfirst : ∀ n : Int, "[" ≠ "[" ++ Text.decimal n := fun n hn => by
    rw [eq_comm, String.append_eq_left_iff] at hn
    exact Text.decimal_ne_nil n (by rw [hn]; rfl)
  match ms, ns, h with
  | [], [], _ => rfl
  | [], n :: ns, h => exact absurd (closedWords_inj h).1 (hfirst n)
  | m :: ms, [], h => exact absurd (closedWords_inj h).1.symm (hfirst m)
  | m :: ms, n :: ns, h =>
    obtain ⟨hm, rfl⟩ := closedWords_inj h
    rw [Text.decimal_injective ((String.append_right_inj "[").1 hm)]

/-- Initial values are dumped alike if both are missing or both are the same. -/
theorem init_inj {x y : Option (List Expr)} :
    A.init x = B.init y ↔ Option.Rel (SameExprs A B) x y := by
  cases x with
  | none => cases y <;> simp [Scope.init]
  | some es =>
    cases y with
    | none => simp [Scope.init]
    | some es' => simp [Scope.init, exprs_inj es]

/-- The words of a shape come before the initial values, which are no words. -/
theorem dims_append_inj {v w : List String} {x y : Option (List Expr)}
    (h : v.map .atom ++ A.init x = w.map .atom ++ B.init y) : v = w ∧ A.init x = B.init y := by
  -- On the first of the lists; the brackets say where the dimensions end.
  induction v generalizing w with
  | nil =>
    cases w with
    | nil => exact ⟨rfl, h⟩
    | cons a w => cases x <;> simp [Scope.init] at h
  | cons a v ih =>
    cases w with
    | nil => cases y <;> simp [Scope.init] at h
    | cons b w =>
      obtain ⟨hab, hrest⟩ := List.cons.inj h
      obtain ⟨rfl, hinit⟩ := ih hrest
      exact ⟨by rw [Sexp.atom.inj hab], hinit⟩

theorem bool_injective : Function.Injective Dump.bool := by decide

/-- Declarations are dumped alike if they are the same. -/
theorem decl_inj {k : Nat} {d d' : DeclId} :
    A.decl k d = B.decl k d' ↔ SameDecl A B (A.decls.at d) (B.decls.at d') := by
  unfold Scope.decl
  simp only [Sexp.form.injEq, true_and, List.cons.injEq, Sexp.atom.injEq, bool_injective.eq_iff]
  constructor
  · rintro ⟨hconst, hrest⟩
    obtain ⟨hdims, hinit⟩ := dims_append_inj hrest
    exact ⟨hconst, dimWords_injective hdims, init_inj.1 hinit⟩
  · rintro ⟨hconst, hdims, hinit⟩
    exact ⟨hconst, by rw [hdims, init_inj.2 hinit]⟩

/-! ## Forms of statements -/

/-- The head of the form of a statement. -/
def Node.head : Node → String
  | .skip => ""
  | .declare _ => "def"
  | .block _ => "block"
  | .assign .. => "="
  | .eval _ => "expr"
  | .cond .. => "if"
  | .loop .. => "while"
  | .leave _ => "break"
  | .again _ => "continue"
  | .ret .. => "return"

/-- A statement is dumped as a form that starts with its head. -/
theorem node_eq_form (k : Nat) (s : Node) : ∃ items, A.node k s = .form s.head items := by
  cases s with
  | ret v pos => cases v <;> exact ⟨_, by rw [Scope.node]; rfl⟩
  | _ => exact ⟨_, by rw [Scope.node]; rfl⟩

theorem SameNode.head_eq {s t : Node} (h : SameNode A B s t) : s.head = t.head := by
  cases s <;> cases t <;> first | rfl | simp [SameNode] at h

/-- Statements of different kinds have different forms and are not the same. -/
theorem node_inj_of_head_ne {k : Nat} {s t : Node} (h : s.head ≠ t.head) :
    A.node k s = B.node k t ↔ SameNode A B s t := by
  refine iff_of_false (fun heq => h ?_) fun hsame => h hsame.head_eq
  obtain ⟨xs, hs⟩ := node_eq_form (A := A) k s
  obtain ⟨ys, ht⟩ := node_eq_form (A := B) k t
  rw [hs, ht] at heq
  exact (Sexp.form.inj heq).1

mutual

/-- In the same statements equally many declarations begin. -/
theorem SameNode.length_begun : ∀ {s t : Node}, SameNode A B s t →
    (begun (s.mentions A.decls)).length = (begun (t.mentions B.decls)).length
  | .block items, .block items', h => by
    rw [SameNode] at h
    rw [Node.mentions, Node.mentions, SameNodes.length_begun h]
  | .cond c yes no, .cond c' yes' no', h => by
    rw [SameNode] at h
    simp [Node.mentions, SameNode.length_begun h.2.1, SameNode.length_begun h.2.2]
  | .loop c body, .loop c' body', h => by
    rw [SameNode] at h
    simp [Node.mentions, SameNode.length_begun h.2]
  | .ret v _, .ret v' _, h => by
    cases v <;> cases v' <;> simp [Node.mentions]
  | .skip, .skip, _ | .declare _, .declare _, _ | .assign .., .assign .., _ | .eval _, .eval _, _
  | .leave _, .leave _, _ | .again _, .again _, _ => by simp [Node.mentions]

/-- In the same lists of statements equally many declarations begin. -/
theorem SameNodes.length_begun : ∀ {ss ts : List Node}, SameNodes A B ss ts →
    (begun (Node.mentionsAll A.decls ss)).length = (begun (Node.mentionsAll B.decls ts)).length
  | [], [], _ => rfl
  | s :: ss, t :: ts, h => by
    rw [SameNodes] at h
    simp [Node.mentionsAll, SameNode.length_begun h.1, SameNodes.length_begun h.2]

end

mutual

/-- Statements after equally many declarations have the same form when they are the same. -/
theorem node_inj : ∀ {k : Nat} {s t : Node}, A.node k s = B.node k t ↔ SameNode A B s t
  | k, .skip, t => by
    cases t with
    | skip => simp [Scope.node, SameNode]
    | _ => exact node_inj_of_head_ne (by simp [Node.head])
  | k, .declare d, t => by
    cases t with
    | declare d' => rw [Scope.node, Scope.node, SameNode, decl_inj]
    | _ => exact node_inj_of_head_ne (by simp [Node.head])
  | k, .block items, t => by
    cases t with
    | block items' =>
      rw [Scope.node, Scope.node, SameNode, Sexp.form.injEq, nodes_inj, eq_self, true_and]
    | _ => exact node_inj_of_head_ne (by simp [Node.head])
  | k, .assign d index _ value _, t => by
    cases t with
    | assign d' index' _ value' _ =>
      simp [Scope.node, SameNode, varForm_inj, exprs_inj, expr_inj, and_assoc]
    | _ => exact node_inj_of_head_ne (by simp [Node.head])
  | k, .eval x, t => by
    cases t with
    | eval x' => simp [Scope.node, SameNode, expr_inj]
    | _ => exact node_inj_of_head_ne (by simp [Node.head])
  | k, .cond c yes no, t => by
    cases t with
    | cond c' yes' no' =>
      simp only [Scope.node, SameNode, Sexp.form.injEq, true_and, List.cons.injEq, and_true,
        expr_inj, node_inj (s := yes)]
      -- the later branch starts at the same number, since the earlier ones are the same
      refine and_congr_right fun _ => and_congr_right fun hyes => ?_
      rw [SameNode.length_begun hyes, node_inj (s := no)]
    | _ => exact node_inj_of_head_ne (by simp [Node.head])
  | k, .loop c body, t => by
    cases t with
    | loop c' body' => simp [Scope.node, SameNode, expr_inj, node_inj (s := body)]
    | _ => exact node_inj_of_head_ne (by simp [Node.head])
  | k, .leave _, t => by
    cases t with
    | leave pos => simp [Scope.node, SameNode]
    | _ => exact node_inj_of_head_ne (by simp [Node.head])
  | k, .again _, t => by
    cases t with
    | again pos => simp [Scope.node, SameNode]
    | _ => exact node_inj_of_head_ne (by simp [Node.head])
  | k, .ret v _, t => by
    cases t with
    | ret v' pos =>
      cases v with
      | none => cases v' <;> simp [Scope.node, SameNode]
      | some x =>
        cases v' with
        | none => simp [Scope.node, SameNode]
        | some x' => simp [Scope.node, SameNode, expr_inj]
    | _ => exact node_inj_of_head_ne (by simp [Node.head])

/-- Lists of statements are dumped alike if they are the same, one by one. -/
theorem nodes_inj : ∀ {k : Nat} {ss ts : List Node},
    A.nodes k ss = B.nodes k ts ↔ SameNodes A B ss ts
  | k, [], [] => by simp [Scope.nodes, SameNodes]
  | k, [], t :: ts => by simp [Scope.nodes, SameNodes]
  | k, s :: ss, [] => by simp [Scope.nodes, SameNodes]
  | k, s :: ss, t :: ts => by
    rw [Scope.nodes, Scope.nodes, SameNodes, List.cons.injEq, node_inj]
    refine and_congr_right fun hs => ?_
    rw [SameNode.length_begun hs, nodes_inj]

end

/-- Lists of parameters are dumped alike if they are the same, one by one. -/
theorem params_inj : ∀ {k : Nat} {ps qs : List DeclId}, A.params k ps = B.params k qs ↔
    List.Forall₂ (fun d d' => SameDecl A B (A.decls.at d) (B.decls.at d')) ps qs
  | k, [], [] => by simp [Scope.params]
  | k, [], q :: qs => by simp [Scope.params]
  | k, p :: ps, [] => by simp [Scope.params]
  | k, p :: ps, q :: qs => by
    rw [Scope.params, Scope.params, List.cons.injEq, decl_inj, params_inj, List.forall₂_cons]

/-- The forms of two functions are equal when the functions are the same. -/
theorem sexp_inj {ds es : Decls} {f g : FuncDef} :
    f.sexp ds = g.sexp es ↔ SameFunc ds es f g := by
  unfold FuncDef.sexp
  simp only [Sexp.form.injEq, true_and, List.cons.injEq, Sexp.atom.injEq, and_true,
    bool_injective.eq_iff, params_inj]
  constructor
  · rintro ⟨hname, hvoid, hparams, hbody⟩
    rw [← hparams.length_eq, nodes_inj] at hbody
    exact ⟨hname, hvoid, hparams, hbody⟩
  · rintro ⟨hname, hvoid, hparams, hbody⟩
    refine ⟨hname, hvoid, hparams, ?_⟩
    rwa [← hparams.length_eq, nodes_inj]

end Forms

instance (ds es : Decls) (f g : FuncDef) : Decidable (SameFunc ds es f g) :=
  decidable_of_iff _ sexp_inj

/-- Two functions have the same dump just if they are the same up to the names of what
they declare. -/
theorem FuncDef.Orderly.dump_inj {ds es : Decls} {f g : FuncDef} (hf : f.Orderly ds)
    (hg : g.Orderly es) : f.dump ds = g.dump es ↔ SameFunc ds es f g := by
  rw [dump_eq_text hf.ordered, dump_eq_text hg.ordered, text_inj hf.sexp_plain hg.sexp_plain,
    sexp_inj]

/-! ## Matching against the catalog -/

/-- The catalog finds a function by its name. -/
theorem find?_eq_some {b : Builtin} {name : String} :
    Builtin.find? name = some b ↔ b ∈ Builtin.catalog ∧ b.name = name := by
  have hnodup : (Builtin.catalog.map Builtin.name).Nodup := by decide
  constructor
  · intro h
    exact ⟨List.mem_of_find?_eq_some h, by simpa using List.find?_some h⟩
  · rintro ⟨hb, rfl⟩
    cases hfind : Builtin.find? b.name with
    | none => exact absurd (List.find?_eq_none.1 hfind b hb) (by simp)
    | some c =>
      have hname : c.name = b.name := by simpa using List.find?_some hfind
      rw [List.inj_on_of_nodup_map hnodup (List.mem_of_find?_eq_some hfind) hb hname]

/-- What it means for a function to be taken for one of the catalog: the name, the number
of parameters and the dump are the same. -/
theorem match?_eq_some {b : Builtin} (hb : b ∈ Builtin.catalog) {ds : Decls} {f : FuncDef} :
    Builtin.match? ds f = some b.name ↔
      b.name = f.name ∧ b.reference.params.length = f.params.length ∧ b.dump = f.dump ds := by
  unfold Builtin.match?
  -- Names are unique in the catalog, so at most one entry is compared.
  cases hfind : Builtin.find? f.name with
  | none =>
    refine iff_of_false nofun fun h => ?_
    rw [find?_eq_some.2 ⟨hb, h.1⟩] at hfind
    cases hfind
  | some c =>
    obtain ⟨hc, hname⟩ := find?_eq_some.1 hfind
    dsimp only
    constructor
    · intro h
      split at h
      case isTrue hdump =>
        have heq : c = b := by
          rw [← Option.some_inj, ← find?_eq_some.2 ⟨hb, rfl⟩, ← Option.some.inj h]
          exact (find?_eq_some.2 ⟨hc, rfl⟩).symm
        rw [← heq]
        exact ⟨hname, hdump⟩
      case isFalse => cases h
    · rintro ⟨hname', hdump⟩
      obtain rfl : c = b := by
        rw [← Option.some_inj, ← hfind, find?_eq_some.2 ⟨hb, hname'⟩]
      rw [if_pos hdump]

/-- A reference bears the name of its entry and is in order. -/
theorem reference_orderly {b : Builtin} (hb : b ∈ Builtin.catalog) :
    b.reference.name = b.name ∧ b.reference.Orderly b.decls := by
  simp only [Builtin.catalog, List.mem_cons, List.not_mem_nil, or_false] at hb
  rcases hb with rfl | rfl
  · exact ⟨rfl, by decide⟩
  · exact ⟨rfl, by decide⟩

/-- A function matches an entry of the catalog when it is the same as the reference. -/
theorem match?_iff_same {b : Builtin} (hb : b ∈ Builtin.catalog) {ds : Decls} {f : FuncDef}
    (hf : f.Orderly ds) :
    Builtin.match? ds f = some b.name ↔ SameFunc ds b.decls f b.reference := by
  obtain ⟨hname, hb'⟩ := reference_orderly hb
  rw [match?_eq_some hb, Builtin.dump, eq_comm (a := b.reference.dump b.decls), hf.dump_inj hb']
  constructor
  · exact fun h => h.2.2
  · exact fun h => ⟨by rw [← hname, h.name], h.params.length_eq.symm, h⟩

/-- **Canonical forms identify functions.**  Two functions in order have the same canonical form
exactly when they are the same, and a function in order matches exactly those entries of the catalog
whose reference it is the same as. -/
theorem dump_identifies {ds es : Decls} {f g : FuncDef} (hf : f.Orderly ds) (hg : g.Orderly es) :
    (f.dump ds = g.dump es ↔ SameFunc ds es f g) ∧
    ∀ b ∈ Builtin.catalog,
      (Builtin.match? ds f = some b.name ↔ SameFunc ds b.decls f b.reference) :=
  ⟨hf.dump_inj hg, fun _ hb => match?_iff_same hb hf⟩

open Builtin (ref modulus)

/-- Declarations of `renamedMultiply`: an unused constant, two parameters and the partial result. -/
def renamedDecls : Decls := #[
  { name := "limit", const := true, init := some [.num 7] },
  { name := "times", pos := { line := 1, col := 22 } }, { name := "x" },
  { name := "sum"
    init := some [.call "multiply" none [ref 2, .binary .div (ref 1) (.num 2)]
      { line := 4, col := 13 }] }]

/-- `multiplyRef` with other names, in another table and with nothing in place of the zero that it
compares with. -/
def renamedMultiply : FuncDef where
  name := "multiply"
  params := [2, 1]
  body := [
    .cond (.binary (.cmp .eq) (ref 1) .absent) (.ret (some (.num 0)) {}) .skip,
    .cond (.binary (.cmp .eq) (ref 1) (.num 1))
      (.ret (some (.binary .mod (ref 2) (.num modulus))) {}) .skip,
    .declare 3,
    .assign 3 [] {} (.binary .mod (.binary .add (ref 3) (ref 3)) (.num modulus)) {},
    .cond (.binary (.cmp .eq) (.binary .mod (ref 1) (.num 2)) (.num 1))
      (.ret (some (.binary .mod (.binary .add (ref 3) (ref 2)) (.num modulus))) {})
      (.ret (some (ref 3)) {})]
  pos := { line := 1, col := 1 }

/-- A renamed copy of the multiplication is taken for it. -/
theorem dump_identifies_renamed :
    renamedMultiply.Orderly renamedDecls ∧
    Builtin.match? renamedDecls renamedMultiply = some "multiply" := by
  have hf : renamedMultiply.Orderly renamedDecls := by decide
  have hg : Builtin.multiplyRef.Orderly Builtin.multiplyDecls := by decide
  have hsame : SameFunc renamedDecls Builtin.multiplyDecls renamedMultiply Builtin.multiplyRef := by
    decide
  exact ⟨hf, ((dump_identifies hf hg).2 Builtin.multiply (by simp [Builtin.catalog])).2 hsame⟩

end Tree

end Tac
