import Mathlib
import Tac.Tree.Fold
import Tac.Proofs.Execution

/-!
# What trees mean

A function is evaluated along its tree: expressions give 32-bit words, logical operators evaluate
their second operand only when the first does not decide, and statements end by going on, by leaving
or repeating the loop around them, or by returning.  Locals are kept by declaration and start
without a value; globals and arrays are in memory, where callees see them too.

An evaluation may *stop* without a result.  It is *lost* in a callee that does not come back.  It is
*spent* when a loop takes more turns than it was given.  It is a *fault* when the tree does something
that has no meaning, which is all of this:

* dividing by zero, using an invalid address or an index outside its dimension;
* reading a local that has no value;
* calling a function that changes a global scalar which is read in the same expression or assignment,
  as then the order of reading and calling would matter;
* calling a timing function, whose arguments are not those of the tree.

* **`expr`, `node`** — what expressions and statements do.
* **`constant`** — the value of an expression that is built from literals, operators and elements of
  constant declarations only.  A constant element stands for its initial value.
-/

namespace Tac.Tree

/-! ## States and errors -/

section Computations

variable {σ ε α β : Type} {x : StateT σ (Except ε) α} {f : α → StateT σ (Except ε) β} {s s' : σ}

/-- A sequence whose first part succeeds. -/
theorem bind_of_ok {a : α} (h : x s = .ok (a, s')) : (x >>= f) s = f a s' := by
  show (x s).bind _ = _
  rw [h]
  rfl

/-- A sequence whose first part fails. -/
theorem bind_of_error {e : ε} (h : x s = .error e) : (x >>= f) s = .error e := by
  show (x s).bind _ = _
  rw [h]
  rfl

/-- A sequence that succeeds does so in both parts. -/
theorem bind_eq_ok {b : β} (h : (x >>= f) s = .ok (b, s')) :
    ∃ a t, x s = .ok (a, t) ∧ f a t = .ok (b, s') := by
  cases hx : x s with
  | error e =>
    rw [bind_of_error hx] at h
    cases h
  | ok p => exact ⟨p.1, p.2, rfl, by rwa [bind_of_ok hx] at h⟩

end Computations

namespace Meaning

open Run (Event Host Place World)

/-! ## Words -/

/-- A binary operator on words; division by zero has no value. -/
def operate (op : BinOp) (x y : Word) : Option Word :=
  match op with
  | .add => some (x + y)
  | .sub => some (x - y)
  | .mul => some (x * y)
  | .div => if y = 0 then none else some (x / y)
  | .mod => if y = 0 then none else some (x % y)
  | .cmp rel => some (Word.ofBool (rel.holds x y))
  | .and => some (Word.ofBool (x != 0 && y != 0))
  | .or => some (Word.ofBool (x != 0 || y != 0))

/-- A unary operator on a word. -/
def operate₁ (op : UnOp) (x : Word) : Word :=
  match op with
  | .plus => x
  | .neg => 0 - x
  | .not => Word.ofBool (x == 0)

/-! ## Arrays -/

/-- Whether each index is inside its dimension. -/
def inside : List Int → List Word → Bool
  | _, [] => true
  | [], _ :: _ => false
  | n :: ns, w :: ws => 0 ≤ w.toInt && w.toInt < n && inside ns ws

/-- Whether indexes select an element or a part of an array; the first dimension of a parameter is
open. -/
def inRange (d : Decl) : List Word → Bool
  | [] => true
  | w :: ws =>
    if d.dims.head? = some 0 then 0 ≤ w.toInt && inside d.dims.tail ws else inside d.dims (w :: ws)

/-- The number of the selected element in row-major order, from dimension `i` on. -/
def position (d : Decl) : Nat → List Word → Int
  | _, [] => 0
  | i, w :: ws => w.toInt * d.stride i + position d (i + 1) ws

/-- The distance in bytes of the selected element from the start, from dimension `i` on. -/
def offset (d : Decl) : Nat → List Word → Word
  | _, [] => 0
  | i, w :: ws => w * word (4 * d.stride i) + offset d (i + 1) ws

/-! ## Constants -/

/-- An index that is outside its dimension. -/
inductive OutOfRange where
  | outOfRange

/-- The value of a constant expression; nothing for any other one. -/
abbrev Constant := Except OutOfRange (Option Word)

/-- The value of a selected element of a constant declaration, where `look` gives the value of an
initial expression.  Elements without an initial value are zero. -/
def element (look : Expr → Constant) (d : Decl) (index : Except OutOfRange (Option (List Word))) :
    Constant :=
  match d.const, d.init, index with
  | true, some init, .ok (some ws) =>
    if !inRange d ws then .error .outOfRange
    else
      let k := wrap64 (position d 0 ws)
      if ws.length ≠ d.dims.length ∨ k < 0 ∨ d.elems ≤ k then .ok none
      else match init[k.toNat]? with
        | none => .ok (some 0)
        | some e => look e
  | true, some _, .error e => .error e
  | _, _, _ => .ok none

/-- Both values, if both are constant. -/
def both (op : BinOp) (x y : Constant) : Constant :=
  match x, y with
  | .ok (some x), .ok (some y) => .ok (operate op x y)
  | .ok (some _), y => y
  | x, _ => x

/-- A further index. -/
def further (x : Constant) (xs : Except OutOfRange (Option (List Word))) :
    Except OutOfRange (Option (List Word)) :=
  match x, xs with
  | .ok (some w), .ok (some ws) => .ok (some (w :: ws))
  | .ok (some _), xs => xs
  | .ok none, _ => .ok none
  | .error e, _ => .error e

mutual

/-- The value of an expression, where `look` gives the value of an initial expression. -/
def constantOf (ds : Decls) (look : Expr → Constant) : Expr → Constant
  | .absent => .ok (some 0)
  | .num n => .ok (some (word n))
  | .lval d index _ => element look (ds.at d) (constantsOf ds look index)
  | .call .. => .ok none
  | .unary op x => (constantOf ds look x).map (Option.map (operate₁ op))
  | .binary op l r => both op (constantOf ds look l) (constantOf ds look r)

/-- The values of expressions, if all are constant. -/
def constantsOf (ds : Decls) (look : Expr → Constant) :
    List Expr → Except OutOfRange (Option (List Word))
  | [] => .ok (some [])
  | e :: es => further (constantOf ds look e) (constantsOf ds look es)

end

/-- The value of an expression through at most `depth - 1` initial values. -/
def constantWithin (ds : Decls) : Nat → Expr → Constant
  | 0, _ => .ok none
  | depth + 1, e => constantOf ds (constantWithin ds depth) e

/-- The value of a constant expression.  No element depends on itself, so a chain of initial values
is no longer than their number. -/
def constant (ds : Decls) (e : Expr) : Constant := constantWithin ds (ds.initCount + 1) e

/-! ## Expressions -/

/-- Why an evaluation has no result, with what was seen of it. -/
inductive Stop where
  | fault
  | lost (trace : List (Event Unit))
  | spent (trace : List (Event Unit))

/-- What a function is evaluated in: its declarations, with the addresses of globals and arrays, and
the outside. -/
structure Context where
  decls : Decls
  globals : List DeclId
  params : List DeclId
  addr : DeclId → Word
  host : Host Unit

/-- Where the value of a declared variable is. -/
def Context.place (C : Context) (d : DeclId) : Place :=
  if d ∈ C.globals then if (C.decls.at d).isArray then .array else .memory
  else if d ∈ C.params then .held
  else if (C.decls.at d).isArray then .array else .held

/-- Values of locals, where a local may have none. -/
abbrev Locals := DeclId → Option Word

/-- Evaluations of expressions: they may change memory by calls. -/
abbrev Eval := StateT (World Unit) (Except Stop)

/-- A value that may be missing. -/
def the (x : Option Word) : Eval Word :=
  match x with
  | some x => pure x
  | none => throw .fault

/-- Reads a word of memory. -/
def fetch (C : Context) (a : Word) : Eval Word := do the ((← get).load C.host a)

/-- Whether the scalars in memory among some declarations are as they were. -/
def Context.keeps (C : Context) (ds : List DeclId) (w w' : World Unit) : Bool :=
  ds.all fun d =>
    match C.place d with
    | .memory => w'.mem (C.addr d) == w.mem (C.addr d)
    | _ => true

/-- Whether a function is one of the timing functions. -/
def isTimer (name : String) : Bool := name == "starttime" || name == "stoptime"

/-- Enters a function and waits for it to come back, inside something that reads the declarations
`frozen`. -/
def enter (C : Context) (frozen : List DeclId) (name : String) (args : List Word) : Eval Word :=
  fun w =>
    let entered := w.enter name args ()
    match entered.back C.host with
    | none => .error (.lost entered.trace)
    | some (x, left) => if C.keeps frozen w left then .ok (x, left) else .error .fault

/-- A call. -/
def call (C : Context) (frozen : List DeclId) (name : String) (args : Eval (List Word)) : Eval Word :=
  if isTimer name then throw .fault
  else do enter C frozen name (← args)

/-- The start of an array: its address or, for a parameter, its value. -/
def Context.base (C : Context) (loc : Locals) (d : DeclId) : Option Word :=
  match C.place d with
  | .held => loc d
  | _ => some (C.addr d)

/-- The address that indexes select in an array. -/
def address (C : Context) (loc : Locals) (d : DeclId) (index : Eval (List Word)) : Eval Word := do
  let ws ← index
  if !inRange (C.decls.at d) ws then throw .fault
  else
    let base ← the (C.base loc d)
    pure (base + offset (C.decls.at d) 0 ws)

/-- The value of a variable, of an element, or the address of a part of an array, which has fewer
indexes than dimensions. -/
def lval (C : Context) (loc : Locals) (d : DeclId) (count : Nat) (index : Eval (List Word)) :
    Eval Word :=
  if !(C.decls.at d).isArray then
    match C.place d with
    | .held => the (loc d)
    | _ => fetch C (C.addr d)
  else do
    let a ← address C loc d index
    if count < (C.decls.at d).dims.length then pure a else fetch C a

/-- A logical operator: the second operand is evaluated only when the first does not decide. -/
def logical (isOr : Bool) (l r : Eval Word) : Eval Word := do
  let x ← l
  if (x != 0) = isOr then pure (Word.ofBool isOr)
  else
    let y ← r
    pure (Word.ofBool (y != 0))

/-- An arithmetic operator or a comparison. -/
def arith (op : BinOp) (l r : Eval Word) : Eval Word := do
  let x ← l
  let y ← r
  the (operate op x y)

/-- A binary operator. -/
def binary (op : BinOp) (l r : Eval Word) : Eval Word :=
  match op with
  | .and => logical false l r
  | .or => logical true l r
  | op => arith op l r

mutual

/-- The value of an expression inside something that reads the declarations `frozen`. -/
def expr (C : Context) (loc : Locals) (frozen : List DeclId) : Expr → Eval Word
  | .absent => pure 0
  | .num n => pure (word n)
  | .lval d index pos =>
    match constant C.decls (.lval d index pos) with
    | .error _ => throw .fault
    | .ok (some x) => pure x
    | .ok none => lval C loc d index.length (exprs C loc frozen index)
  | .call name _ args _ => call C frozen name (exprs C loc frozen args)
  | .unary op x => do return operate₁ op (← expr C loc frozen x)
  | .binary op l r => binary op (expr C loc frozen l) (expr C loc frozen r)

/-- The values of expressions in order. -/
def exprs (C : Context) (loc : Locals) (frozen : List DeclId) : List Expr → Eval (List Word)
  | [] => pure []
  | e :: es => do
    let x ← expr C loc frozen e
    let xs ← exprs C loc frozen es
    pure (x :: xs)

end

mutual

/-- The declarations that an expression reads. -/
def mentions : Expr → List DeclId
  | .absent | .num _ => []
  | .lval d index _ => d :: mentionsAll index
  | .call _ _ args _ => mentionsAll args
  | .unary _ x => mentions x
  | .binary _ l r => mentions l ++ mentions r

/-- The declarations that expressions read. -/
def mentionsAll : List Expr → List DeclId
  | [] => []
  | e :: es => mentions e ++ mentionsAll es

end

/-! ## Statements -/

/-- The state of a function under evaluation. -/
structure Store where
  loc : Locals
  world : World Unit

/-- Evaluations of statements. -/
abbrev Act := StateT Store (Except Stop)

/-- How a statement ends. -/
inductive Control where
  | next
  /-- Leaves the loop around. -/
  | broke
  /-- Goes on with the next turn of the loop around. -/
  | continued
  | returned (value : Option Word)

/-- An evaluation of expressions as part of a statement. -/
def evaluate {α : Type} (x : Locals → Eval α) : Act α := fun s =>
  match x s.loc s.world with
  | .ok (a, world) => .ok (a, { s with world })
  | .error stop => .error stop

/-- The value of an expression that stands alone. -/
def value (C : Context) (e : Expr) : Act Word := evaluate fun loc => expr C loc (mentions e) e

/-- Gives a local a value, or takes it away. -/
def setLocal (d : DeclId) (x : Option Word) : Act Unit :=
  modify fun s => { s with loc := Function.update s.loc d x }

/-- Writes a word to memory. -/
def put (C : Context) (a x : Word) : Act Unit := fun s =>
  match s.world.store C.host a x with
  | some world => .ok ((), { s with world })
  | none => .error .fault

/-- Writes zero to the words of an array. -/
def clear (C : Context) (a : Word) (n : Nat) : Act Unit := fun s =>
  match s.world.clear C.host a n with
  | some world => .ok ((), { s with world })
  | none => .error .fault

/-- Whether an expression is the constant zero. -/
def isZero (ds : Decls) (e : Expr) : Act Bool :=
  match constant ds e with
  | .error _ => throw .fault
  | .ok x => pure (x == some 0)

/-- Stores initial values of an array, from element `k` on.  A value that is absent is left out, and
after a zero fill so is a zero. -/
def storeInits (C : Context) (a : Word) (zeroed : Bool) : Int → List Expr → Act Unit
  | _, [] => pure ()
  | k, .absent :: es => storeInits C a zeroed (k + 1) es
  | k, e :: es => do
    unless zeroed && (← isZero C.decls e) do put C (a + word (4 * k)) (← value C e)
    storeInits C a zeroed (k + 1) es

/-- Whether some element of an array has no initial value. -/
def incomplete (x : Decl) (init : List Expr) : Bool :=
  decide ((init.length : Int) < x.elems) || init.any (· matches .absent)

/-- A declaration: a scalar gets its initial value or none, an array its initial values.  An array
with fewer initial values than elements is zeroed first. -/
def declare (C : Context) (d : DeclId) : Act Unit := do
  let x := C.decls.at d
  setLocal d none
  match x.init with
  | none => pure ()
  | some init =>
    if !x.isArray then
      match init with
      | [] => throw .fault
      | e :: _ => setLocal d (some (← value C e))
    else
      let zeroed := incomplete x init
      if zeroed then clear C (C.addr d) x.elems.toNat
      storeInits C (C.addr d) zeroed 0 init

/-- An assignment; the value comes before the indexes of the target. -/
def assign (C : Context) (target : DeclId) (index : List Expr) (e : Expr) : Act Unit := do
  let frozen := mentions e ++ mentionsAll index
  let x ← evaluate fun loc => expr C loc frozen e
  if !(C.decls.at target).isArray then
    match C.place target with
    | .held => setLocal target (some x)
    | _ => put C (C.addr target) x
  else
    let a ← evaluate fun loc => address C loc target (exprs C loc frozen index)
    put C a x

/-- An expression for its effect. -/
def effect (C : Context) (e : Expr) : Act Unit := do
  let _ ← value C e

/-- Up to `n` turns of a loop. -/
def turns (test : Act Word) (body : Act Control) : Nat → Act Control
  | 0 => do throw (.spent (← get).world.trace)
  | n + 1 => do
    if (← test) = 0 then pure .next
    else
      match ← body with
      | .next | .continued => turns test body n
      | .broke => pure .next
      | .returned x => pure (.returned x)

mutual

/-- A statement, where loops take up to `n` turns. -/
def node (C : Context) (n : Nat) : Node → Act Control
  | .skip => pure .next
  | .block items => nodes C n items
  | .declare d => do declare C d; pure .next
  | .assign target index _ e _ => do assign C target index e; pure .next
  | .eval e => do effect C e; pure .next
  | .cond c yes no => do if (← value C c) = 0 then node C n no else node C n yes
  | .loop c body => turns (value C c) (node C n body) n
  | .leave _ => pure .broke
  | .again _ => pure .continued
  | .ret none _ => pure (.returned none)
  | .ret (some e) _ => do return .returned (some (← value C e))

/-- Statements in order, until one does not go on. -/
def nodes (C : Context) (n : Nat) : List Node → Act Control
  | [] => pure .next
  | s :: ss => do
    match ← node C n s with
    | .next => nodes C n ss
    | c => pure c

end

/-- A function; one that has a result gives zero when it falls off its end. -/
def function (C : Context) (f : FuncDef) (n : Nat) : Act (Option Word) := do
  match ← nodes C n f.body with
  | .next => pure (if f.void then none else some 0)
  | .returned x => pure x
  | _ => throw .fault

/-! ## Behaviour -/

/-- How an evaluation ended, if it did, after all that was seen of it. -/
def conclusion : Except Stop (Option Word × Store) → Option (List (Event Unit) × Run.Outcome Unit)
  | .ok (x, s) => some (s.world.trace, .returned x s.world.mem ())
  | .error (.lost trace) => some (trace, .lost)
  | .error (.spent _) | .error .fault => none

/-- What was seen of an evaluation. -/
def seen : Except Stop (Option Word × Store) → List (Event Unit)
  | .ok (_, s) => s.world.trace
  | .error (.lost trace) | .error (.spent trace) => trace
  | .error .fault => []

section Behaviour

variable (C : Context) (f : FuncDef) (s : Store)

/-- The function has a meaning, however many turns its loops take. -/
def Faultless : Prop := ∀ n, function C f n s ≠ .error .fault

/-- The evaluation ends with an outcome after a trace. -/
def Ends (trace : List (Event Unit)) (o : Run.Outcome Unit) : Prop :=
  ∃ n, conclusion (function C f n s) = some (trace, o)

/-- The evaluation shows a trace, and maybe more. -/
def Shows (trace : List (Event Unit)) : Prop := ∃ n, trace <+: seen (function C f n s)

/-- The evaluation spends any number of turns. -/
def Diverges : Prop := ∀ n, ∃ trace, function C f n s = .error (.spent trace)

end Behaviour

end Meaning

end Tac.Tree
