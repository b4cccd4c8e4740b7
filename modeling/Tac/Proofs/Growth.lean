import Mathlib
import Tac.Tree.Generate
import Tac.Proofs.Coloring
import Tac.Proofs.Evaluation
import Tac.Proofs.Flow

/-!
# How generation grows a function

Generation only adds: statements behind those that are there, temporaries and labels with the next
numbers, variables at the end of the table.  A label is drawn before the code that jumps to it and
written once, where the jump goes.

* **`Grown`** — what a piece of generation adds to statements, labels and temporaries, and which of
  its labels still wait to be written.
* **`Declared`** — what a piece of generation adds to the variables.
* **`adds_expr`, `adds_node`** — expressions add code and no variables, statements the variables that
  they declare.
-/

namespace Tac.Tree

/-- An induction over expressions whose cases know of all operands. -/
theorem Expr.induction {motive : Expr → Prop} (absent : motive .absent)
    (num : ∀ n, motive (.num n))
    (lval : ∀ d index pos, (∀ e ∈ index, motive e) → motive (.lval d index pos))
    (call : ∀ name callee args pos, (∀ e ∈ args, motive e) → motive (.call name callee args pos))
    (unary : ∀ op x, motive x → motive (.unary op x))
    (binary : ∀ op l r, motive l → motive r → motive (.binary op l r)) : ∀ e, motive e :=
  Expr.rec absent num lval call unary binary nofun fun _ _ he hes => List.forall_mem_cons.2 ⟨he, hes⟩

/-- An induction over statements whose cases know of all parts. -/
theorem Node.induction {motive : Node → Prop} (skip : motive .skip)
    (block : ∀ items, (∀ s ∈ items, motive s) → motive (.block items))
    (declare : ∀ d, motive (.declare d))
    (assign : ∀ t index tp v pos, motive (.assign t index tp v pos))
    (eval : ∀ x, motive (.eval x))
    (cond : ∀ c yes no, motive yes → motive no → motive (.cond c yes no))
    (loop : ∀ c body, motive body → motive (.loop c body))
    (leave : ∀ pos, motive (.leave pos)) (again : ∀ pos, motive (.again pos))
    (ret : ∀ v pos, motive (.ret v pos)) : ∀ s, motive s :=
  Node.rec skip block declare assign eval cond loop leave again ret nofun
    fun _ _ hs hss => List.forall_mem_cons.2 ⟨hs, hss⟩

namespace Generate

/-! ## Steps of generation -/

namespace State

/-- The state with one more statement. -/
def add (st : State) (s : Stmt) : State := { st with stmts := st.stmts.push s }

/-- The state after a label was drawn. -/
def drawLabel (st : State) : State := { st with counters := st.counters.nextLabel }

/-- The state with one more temporary and the statement that gives it a value. -/
def define (st : State) (s : Val → Stmt) : State :=
  { st with counters := st.counters.nextTemp, temps := st.temps.push st.counters.temps
            stmts := st.stmts.push (s (.temp st.counters.temps)) }

end State

section Steps

variable {α : Type} {st st' : State}

theorem pure_inv {a b : α} (h : (pure a : Gen α) st = .ok (b, st')) : b = a ∧ st' = st := by
  cases h
  exact ⟨rfl, rfl⟩

theorem emit_inv {s : Stmt} (h : emit s st = .ok ((), st')) : st' = st.add s := by
  cases h
  rfl

/-- An operation of two values draws a temporary and writes the statement that defines it. -/
theorem binaryTemp_inv {l r v : Val} {op : BinOp} (h : binaryTemp l op r st = .ok (v, st')) :
    v = .temp st.counters.temps ∧ st' = st.define fun t => .binary t l op r := by
  cases h
  exact ⟨rfl, rfl⟩

/-- Asking for the fold of an expression goes on only if there was no error, with the
state as it was. -/
theorem folded_inv {f : Folded} {c : Option Int} (h : folded f st = .ok (c, st')) :
    f = .ok c ∧ st' = st := by
  cases f with
  | error e => cases h
  | ok c' =>
    cases h
    exact ⟨rfl, rfl⟩

/-- A refusal gives no state. -/
theorem refuse_inv {env : Env} {pos : Pos} {cause : GenCause} {a : α}
    (h : (refuse env pos cause : Gen α) st = .ok (a, st')) : False := by
  cases h

/-- Nothing comes behind a refusal. -/
theorem refuse_bind_inv {β : Type} {env : Env} {pos : Pos} {cause : GenCause} {f : α → Gen β} {b : β}
    (h : (refuse env pos cause >>= f) st = .ok (b, st')) : False := by
  cases h

/-- A name stands for the variable of the innermost declaration, or for the global when no
local has it. -/
theorem lookup_inv {env : Env} {d : DeclId} {pos : Pos} {id : VarId}
    (h : lookup env d pos st = .ok (id, st')) :
    st' = st ∧ (st.scope[d]? = some id ∨ st.scope[d]? = none ∧ env.globals[d]? = some id) := by
  obtain ⟨st₀, st₁, hget, h⟩ := bind_eq_ok h
  cases hget
  -- A local hides a global of the same declaration number, so the scope is asked first.
  cases hscope : st.scope[d]? with
  | some id' =>
    simp only [hscope] at h
    obtain ⟨rfl, rfl⟩ := pure_inv h
    exact ⟨rfl, Or.inl rfl⟩
  | none =>
    cases hglobal : env.globals[d]? with
    | some id' =>
      simp only [hscope, hglobal] at h
      obtain ⟨rfl, rfl⟩ := pure_inv h
      exact ⟨rfl, Or.inr ⟨rfl, rfl⟩⟩
    | none =>
      simp only [hscope, hglobal] at h
      exact (refuse_inv h).elim

end Steps

/-! ## Numbers -/

/-- The number that is drawn after `k` others, when `c` is the next. -/
def nth (c : Int) (k : Nat) : Int := (fun n => wrap64 (n + 1))^[k] c

/-- The next `k` numbers. -/
def drawn (c : Int) (k : Nat) : List Int := (List.range k).map (nth c)

theorem nth_add (c : Int) (j k : Nat) : nth c (j + k) = nth (nth c j) k := by
  rw [nth, Nat.add_comm, Function.iterate_add_apply]
  rfl

/-- The next `j + k` numbers are the next `j` and the `k` behind them. -/
theorem drawn_add (c : Int) (j k : Nat) : drawn c (j + k) = drawn c j ++ drawn (nth c j) k := by
  simp only [drawn, List.range_add, List.map_append, List.map_map]
  congr 1
  apply List.map_congr_left
  intro i _
  exact nth_add c j i

/-- A counter that holds a number of 64 bits draws consecutive numbers, modulo their size. -/
theorem nth_eq {c : Int} (hc : wrap64 c = c) (k : Nat) : nth c k = wrap64 (c + k) := by
  induction k with
  | zero => rw [Int.natCast_zero, Int.add_zero, hc]; rfl
  | succ k ih =>
    rw [nth_add, ih]
    show wrap64 (wrap64 (c + k) + 1) = _
    rw [wrap64_add, Int.add_assoc]
    rfl

/-- Fewer than 2^64 numbers are drawn without a number coming twice. -/
theorem nth_inj {c : Int} (hc : wrap64 c = c) {i j : Nat} (hi : i < 18446744073709551616)
    (hj : j < 18446744073709551616) (h : nth c i = nth c j) : i = j := by
  rw [nth_eq hc, nth_eq hc] at h
  exact wrap64_add_inj hi hj h

/-- The next numbers are different, as long as they are no more than there are numbers. -/
theorem nodup_drawn {c : Int} (hc : wrap64 c = c) {k : Nat} (hk : k ≤ 18446744073709551616) :
    (drawn c k).Nodup := by
  refine List.Nodup.map_on (fun i hi j hj h => ?_) List.nodup_range
  rw [List.mem_range] at hi hj
  exact nth_inj hc (by omega) (by omega) h

/-- Numbers that are drawn are different, wherever the counter stands. -/
theorem nodup_drawn_from (c : Int) {k : Nat} (hk : k ≤ 18446744073709551616) :
    (drawn c k).Nodup := by
  by_cases hc : wrap64 c = c
  · exact nodup_drawn hc hk
  · cases k with
    | zero => exact List.nodup_nil
    | succ k =>
      -- a counter that is no 64-bit number is left at once and never met again
      rw [Nat.add_comm, drawn_add]
      have hnext : wrap64 (nth c 1) = nth c 1 := by simp [nth, wrap64]
      refine List.nodup_cons.2 ⟨fun hmem => hc ?_, nodup_drawn hnext (by omega)⟩
      -- Every later number is wrapped, which the counter was not.
      obtain ⟨i, -, hi⟩ := List.mem_map.1 hmem
      rw [nth_eq hnext] at hi
      have hwrapped : wrap64 (nth c 1 + i) = c := hi
      rw [← hwrapped]
      simp [wrap64]

/-! ## Code -/

/-- The labels that statements define. -/
def labelsOf (ss : List Stmt) : List Int := ss.filterMap Stmt.label?

/-- From one state to another, statements were added with the next labels and temporaries.  Each of
the labels is defined once, but for those in `pending`, which are not defined yet. -/
inductive Grown (pending : List Int) (st st' : State) : Prop where
  | intro (code : List Stmt) (k m : Nat) (stmts : st'.stmts.toList = st.stmts.toList ++ code)
      (label : st'.counters.labels = nth st.counters.labels k)
      (labels : (labelsOf code ++ pending).Perm (drawn st.counters.labels k))
      (temp : st'.counters.temps = nth st.counters.temps m)
      (temps : st'.temps.toList = st.temps.toList ++ drawn st.counters.temps m)
      (le : m ≤ code.length)

namespace Grown

variable {st st₁ st₂ : State} {ps qs : List Int}

theorem refl (st : State) : Grown [] st st :=
  .intro [] 0 0 (by simp) rfl (List.Perm.refl _) rfl (by simp [drawn]) (Nat.le_refl _)

/-- Growth behind growth; labels of either may be pending. -/
theorem trans (h : Grown ps st st₁) (h' : Grown qs st₁ st₂) : Grown (ps ++ qs) st st₂ := by
  obtain ⟨c, k, m, hstmts, hlabel, hlabels, htemp, htemps, hle⟩ := h
  obtain ⟨c', k', m', hstmts', hlabel', hlabels', htemp', htemps', hle'⟩ := h'
  refine ⟨c ++ c', k + k', m + m', ?_, ?_, ?_, ?_, ?_, ?_⟩
  · rw [hstmts', hstmts, List.append_assoc]
  · rw [hlabel', hlabel, nth_add]
  · rw [hlabel] at hlabels'
    rw [drawn_add]
    -- The pending labels of the first piece move behind the labels that the second piece
    -- defines.
    refine List.Perm.trans ?_ (hlabels.append hlabels')
    rw [labelsOf, List.filterMap_append, List.append_assoc, List.append_assoc]
    refine List.Perm.append_left _ ?_
    rw [← List.append_assoc, ← List.append_assoc]
    exact List.perm_append_comm.append_right _
  · rw [htemp', htemp, nth_add]
  · rw [htemps', htemps, htemp, drawn_add, List.append_assoc]
  · rw [List.length_append]
    omega

/-- A statement that is no label adds itself. -/
theorem add (st : State) {s : Stmt} (hs : s.label? = none) : Grown [] st (st.add s) := by
  refine ⟨[s], 0, 0, Array.toList_push, rfl, ?_, rfl, by simp [State.add, drawn], Nat.zero_le _⟩
  simp [labelsOf, hs, drawn]

/-- A definition adds a temporary and a statement. -/
theorem define (st : State) {s : Val → Stmt} (hs : ∀ t, (s t).label? = none) :
    Grown [] st (st.define s) := by
  refine ⟨[s (.temp st.counters.temps)], 0, 1, Array.toList_push, rfl, ?_, rfl, ?_, Nat.le_refl _⟩
  · simp [labelsOf, hs, drawn]
  · exact Array.toList_push

/-- A label that is drawn is pending until it is written. -/
theorem drawLabel (st : State) : Grown [st.counters.labels] st st.drawLabel :=
  ⟨[], 1, 0, by simp [State.drawLabel], rfl, List.Perm.refl _, rfl,
    by simp [State.drawLabel, drawn], Nat.le_refl _⟩

/-- A label that was pending is defined. -/
theorem settle {l : Int} (h : Grown (l :: ps) st st₁) : Grown ps st (st₁.add (.label l)) := by
  obtain ⟨c, k, m, hstmts, hlabel, hlabels, htemp, htemps, hle⟩ := h
  refine ⟨c ++ [Stmt.label l], k, m, ?_, hlabel, ?_, htemp, htemps, ?_⟩
  · rw [State.add, Array.toList_push, hstmts, List.append_assoc]
  · rw [labelsOf, List.filterMap_append, List.append_assoc]
    exact hlabels
  · rw [List.length_append]
    omega

/-- Statements that are there stay there. -/
theorem isPrefix (h : Grown ps st st₁) : st.stmts.toList <+: st₁.stmts.toList := by
  obtain ⟨c, k, m, hstmts, -⟩ := h
  exact ⟨c, hstmts.symm⟩

/-- The temporaries do not become fewer. -/
theorem size_temps (h : Grown ps st st₁) : st.temps.size ≤ st₁.temps.size := by
  obtain ⟨c, k, m, -, -, -, -, htemps, -⟩ := h
  rw [← Array.length_toList, ← Array.length_toList, htemps, List.length_append]
  exact Nat.le_add_right _ _

end Grown

/-! ## Variables -/

/-- The shape of the variable of a declaration. -/
def shape (d : Decl) : Option (List Int) := if d.isArray then some d.dims else none

/-- The positions of `k` new variables in a table. -/
def places (vars : VarTable) (k : Nat) : List VarId :=
  (List.range k).map fun i => ((vars.size + i : Nat) : Int)

/-- A scope in which the declarations `ds` have the variables `ids`. -/
def extend (scope : Std.TreeMap Nat VarId) (ds : List DeclId) (ids : List VarId) :
    Std.TreeMap Nat VarId :=
  (ds.zip ids).foldl (fun m p => m.insert p.1 p.2) scope

/-- Names that are not declared stand for the same variable as before. -/
theorem getElem?_extend_of_notMem {d : DeclId} {ds : List DeclId} (hd : d ∉ ds) (ids : List VarId)
    (scope : Std.TreeMap Nat VarId) : (extend scope ds ids)[d]? = scope[d]? := by
  -- On the declarations, each of which is inserted into the scope that the earlier ones left.
  induction ds generalizing ids scope with
  | nil => rfl
  | cons d' ds ih =>
    rw [List.mem_cons, not_or] at hd
    cases ids with
    | nil => rfl
    | cons id ids =>
      show (extend (scope.insert d' id) ds ids)[d]? = _
      rw [ih hd.2, Std.TreeMap.getElem?_insert, if_neg]
      exact fun heq => hd.1 (Nat.compare_eq_eq.1 heq).symm

/-- Positions behind those of `j` variables, counted in the table that has them. -/
theorem places_add (vars vars' : VarTable) (j k : Nat) (h : vars'.size = vars.size + j) :
    places vars (j + k) = places vars j ++ places vars' k := by
  simp only [places, List.range_add, List.map_append, List.map_map, h]
  congr 1
  apply List.map_congr_left
  intro i _
  simp only [Function.comp_apply, Nat.add_assoc]

/-- The declarations `ds` got the next variables of a table, all of one class, in this order. -/
inductive Named (decls : Decls) (cls : VarClass) (ds : List DeclId) (vars : VarTable)
    (scope : Std.TreeMap Nat VarId) (vars' : VarTable) (scope' : Std.TreeMap Nat VarId) : Prop where
  | intro (vs : List Var)
      (kind : List.Forall₂ (fun d v => v.cls = cls ∧ v.dims = shape (decls.at d)) ds vs)
      (table : vars'.toList = vars.toList ++ vs)
      (names : scope' = extend scope ds (places vars ds.length))

namespace Named

variable {decls : Decls} {cls : VarClass} {ds es : List DeclId} {vars vars₁ vars₂ : VarTable}
  {scope scope₁ scope₂ : Std.TreeMap Nat VarId}

theorem nil (decls : Decls) (cls : VarClass) (vars : VarTable) (scope : Std.TreeMap Nat VarId) :
    Named decls cls [] vars scope vars scope :=
  ⟨[], .nil, (List.append_nil _).symm, rfl⟩

/-- One declaration gets the variable at the end of the table. -/
theorem one {d : DeclId} {v : Var} (hcls : v.cls = cls) (hdims : v.dims = shape (decls.at d)) :
    Named decls cls [d] vars scope (vars.push v) (scope.insert d vars.size) :=
  ⟨[v], .cons ⟨hcls, hdims⟩ .nil, Array.toList_push, rfl⟩

/-- The table grows by one variable for each declaration. -/
theorem size_eq (h : Named decls cls ds vars scope vars₁ scope₁) :
    vars₁.size = vars.size + ds.length := by
  obtain ⟨vs, hkind, hvars, -⟩ := h
  rw [← Array.length_toList, hvars, List.length_append, Array.length_toList, hkind.length_eq]

/-- Declarations behind declarations. -/
theorem trans (h : Named decls cls ds vars scope vars₁ scope₁)
    (h' : Named decls cls es vars₁ scope₁ vars₂ scope₂) :
    Named decls cls (ds ++ es) vars scope vars₂ scope₂ := by
  have hplaces := places_add vars vars₁ ds.length es.length h.size_eq
  obtain ⟨vs, hkind, hvars, hscope⟩ := h
  obtain ⟨us, hkind', hvars', hscope'⟩ := h'
  refine ⟨vs ++ us, List.rel_append hkind hkind', ?_, ?_⟩
  · rw [hvars', hvars, List.append_assoc]
  · rw [hscope', hscope, List.length_append, hplaces, extend, extend, extend,
      List.zip_append (by simp [places]), List.foldl_append]

/-- Variables stay where they are in the table. -/
theorem isPrefix (h : Named decls cls ds vars scope vars₁ scope₁) : vars.toList <+: vars₁.toList := by
  obtain ⟨vs, -, hvars, -⟩ := h
  exact ⟨vs, hvars.symm⟩

/-- Other declarations keep their variables. -/
theorem getElem?_scope (h : Named decls cls ds vars scope vars₁ scope₁) {d : DeclId} (hd : d ∉ ds) :
    scope₁[d]? = scope[d]? := by
  obtain ⟨vs, -, -, hscope⟩ := h
  rw [hscope]
  exact getElem?_extend_of_notMem hd _ _

end Named

/-- From one state to another, the declarations `ds` became locals, in this order. -/
structure Declared (decls : Decls) (ds : List DeclId) (st st' : State) : Prop where
  named : Named decls .loc ds st.vars st.scope st'.vars st'.scope
  locals : st'.locals.toList = st.locals.toList ++ places st.vars ds.length

namespace Declared

variable {decls : Decls} {ds es : List DeclId} {st st₁ st₂ : State}

/-- A state with the same variables, locals and scope declared nothing. -/
theorem none (h : st₁.vars = st.vars) (h' : st₁.locals = st.locals) (h'' : st₁.scope = st.scope) :
    Declared decls [] st st₁ where
  named := by
    rw [h, h'']
    exact .nil ..
  locals := by simp [h', places]

/-- Locals of one piece behind those of another. -/
theorem trans (h : Declared decls ds st st₁) (h' : Declared decls es st₁ st₂) :
    Declared decls (ds ++ es) st st₂ where
  named := h.named.trans h'.named
  locals := by
    rw [h'.locals, h.locals, List.length_append, places_add st.vars st₁.vars _ _ h.named.size_eq,
      List.append_assoc]

end Declared

/-- Declarations that have no variable yet, each named once. -/
structure Fresh (ds : List DeclId) (st : State) : Prop where
  nodup : ds.Nodup
  not_mem : ∀ d ∈ ds, st.scope[d]? = none

namespace Fresh

variable {decls : Decls} {ds es : List DeclId} {st st₁ : State}

theorem nil (st : State) : Fresh [] st := ⟨.nil, nofun⟩

theorem left (h : Fresh (ds ++ es) st) : Fresh ds st :=
  ⟨h.nodup.of_append_left, fun d hd => h.not_mem d (List.mem_append_left es hd)⟩

/-- Behind the first declarations the others have no variable still, since no declaration
comes twice. -/
theorem right (h : Fresh (ds ++ es) st) (hd : Declared decls ds st st₁) : Fresh es st₁ := by
  refine ⟨h.nodup.of_append_right, fun d hmem => ?_⟩
  have hne : d ∉ ds := fun hmem' => List.disjoint_of_nodup_append h.nodup hmem' hmem
  rw [hd.named.getElem?_scope hne]
  exact h.not_mem d (List.mem_append_right ds hmem)

/-- Declarations have no variable still where nothing was declared. -/
theorem of_declared (h : Fresh es st) (hd : Declared decls [] st st₁) : Fresh es st₁ :=
  right (show Fresh ([] ++ es) st from h) hd

end Fresh

/-! ## Pieces of generation -/

/-- A piece of generation adds code, with all its labels, and variables for some declarations. -/
def Adds {α : Type} (decls : Decls) (ds : List DeclId) (g : Gen α) : Prop :=
  ∀ ⦃st a st'⦄, g st = .ok (a, st') → Grown [] st st' ∧ Declared decls ds st st'

section Pieces

variable {α β : Type} {decls : Decls} {ds es : List DeclId} {env : Env} {l r : Coded}

/-- A step that only gives a value adds nothing. -/
theorem adds_pure (a : α) : Adds decls [] (pure a : Gen α) := fun _ _ _ h => by
  obtain ⟨-, rfl⟩ := pure_inv h
  exact ⟨.refl _, .none rfl rfl rfl⟩

/-- Steps one after the other add the code of both and the variables of both. -/
theorem Adds.bind {g : Gen α} {f : α → Gen β} (hg : Adds decls ds g)
    (hf : ∀ a, Adds decls es (f a)) : Adds decls (ds ++ es) (g >>= f) := fun _ _ _ h => by
  obtain ⟨a, st₁, h₁, h₂⟩ := bind_eq_ok h
  exact ⟨(hg h₁).1.trans (hf a h₂).1, (hg h₁).2.trans (hf a h₂).2⟩

/-- The same when only the second piece declares something. -/
theorem Adds.seq {g : Gen α} {f : α → Gen β} (hg : Adds decls [] g)
    (hf : ∀ a, Adds decls es (f a)) : Adds decls es (g >>= f) :=
  Adds.bind hg hf

/-- Writing a statement that is no label adds code. -/
theorem adds_emit {s : Stmt} (hs : s.label? = none) : Adds decls [] (emit s) := fun _ _ _ h => by
  obtain rfl := emit_inv h
  exact ⟨.add _ hs, .none rfl rfl rfl⟩

/-- Drawing a temporary and writing the statement that defines it adds code. -/
theorem adds_define {s : Val → Stmt} (hs : ∀ t, (s t).label? = none) :
    Adds decls [] (do let t ← newTemp; emit (s t); pure t) := fun _ _ _ h => by
  cases h
  exact ⟨.define _ hs, .none rfl rfl rfl⟩

theorem adds_binaryTemp (x : Val) (op : BinOp) (y : Val) :
    Adds decls [] (binaryTemp x op y) :=
  adds_define (s := fun t => .binary t x op y) fun _ => rfl

/-- Asking for the fold of an expression adds nothing. -/
theorem adds_folded (f : Folded) : Adds decls [] (folded f) := fun _ _ _ h => by
  obtain ⟨-, rfl⟩ := folded_inv h
  exact ⟨.refl _, .none rfl rfl rfl⟩

/-- A refusal may be said to add anything, as no state comes out. -/
theorem adds_refuse (pos : Pos) (cause : GenCause) : Adds decls ds (refuse env pos cause : Gen α) :=
  fun _ _ _ h => (refuse_inv h).elim

/-- Looking up a name adds nothing. -/
theorem adds_lookup (d : DeclId) (pos : Pos) : Adds decls [] (lookup env d pos) := fun _ _ _ h => by
  obtain ⟨rfl, -⟩ := lookup_inv h
  exact ⟨.refl _, .none rfl rfl rfl⟩

/-- Both ways to compile an expression add code only. -/
structure CodeOnly (decls : Decls) (c : Coded) : Prop where
  value : Adds decls [] c.value
  jump : ∀ label want, Adds decls [] (c.jump label want)

/-- The fold in front of an expression adds at most one jump. -/
theorem codeOnly_guardConst {c : Folded} {value : Gen Val} {jump : Int → Bool → Gen Unit}
    (hvalue : Adds decls [] value) (hjump : ∀ label want, Adds decls [] (jump label want)) :
    CodeOnly decls (guardConst c value jump) where
  value := by
    refine Adds.seq (adds_folded c) fun o => ?_
    cases o with
    -- What folds needs no code.
    | some n => exact adds_pure _
    | none => exact hvalue
  jump label want := by
    refine Adds.seq (adds_folded c) fun o => ?_
    cases o with
    | some n =>
      simp only
      -- A test whose outcome is known is a jump or nothing.
      split
      · exact adds_emit rfl
      · exact adds_pure _
    | none => exact hjump label want

theorem adds_jumpOnValue {value : Gen Val} (h : Adds decls [] value) (label : Int) (want : Bool) :
    Adds decls [] (jumpOnValue value label want) :=
  Adds.seq h fun _ => adds_emit rfl

/-- The indexes of an element add the code of those that do not fold, with their products
and sums. -/
theorem adds_indexes (name : String) (pos : Pos) (d : Decl) {xs : List Coded}
    (hxs : ∀ x ∈ xs, CodeOnly decls x) (i : Nat) (off : Int) (dyn : Option Val) :
    Adds decls [] (indexes env name pos d i off dyn xs) := by
  -- On the indexes, for any position, offset and sum so far.
  induction xs generalizing i off dyn with
  | nil => exact adds_pure _
  | cons x xs ih =>
    rw [List.forall_mem_cons] at hxs
    refine Adds.seq (adds_folded x.const) fun o => ?_
    cases o with
    | some c =>
      simp only
      split
      · exact adds_refuse _ _
      · exact ih hxs.2 _ _ _
    | none =>
      refine Adds.seq hxs.1.value fun v => ?_
      refine Adds.seq (adds_binaryTemp _ _ _) fun u => ?_
      cases dyn with
      | some s => exact Adds.seq (adds_binaryTemp _ _ _) fun w => ih hxs.2 _ _ _
      | none => exact Adds.seq (adds_pure _) fun w => ih hxs.2 _ _ _

/-- The address of an element adds the code of its indexes and at most one sum. -/
theorem adds_address (id : VarId) (pos : Pos) (d : Decl) {xs : List Coded}
    (hxs : ∀ x ∈ xs, CodeOnly decls x) : Adds decls [] (address env id pos d xs) := by
  refine Adds.seq (adds_indexes _ _ _ hxs _ _ _) fun p => ?_
  obtain ⟨off, dyn⟩ := p
  cases dyn with
  | some v => exact Adds.seq (adds_binaryTemp _ _ _) fun b => adds_pure _
  | none => exact adds_pure _

/-- The value of a variable or an element adds code only. -/
theorem adds_lvalValue (d : DeclId) (pos : Pos) {xs : List Coded}
    (hxs : ∀ x ∈ xs, CodeOnly decls x) : Adds decls [] (lvalValue env d pos xs) := by
  refine Adds.seq (adds_lookup d pos) fun id => ?_
  dsimp only
  split
  · exact adds_pure _
  · split
    · exact adds_refuse _ _
    · refine Adds.seq (adds_address id pos _ hxs) fun p => ?_
      split
      · split
        · exact adds_pure _
        · exact adds_binaryTemp _ _ _
      · exact adds_define (s := fun t => .load t p.1 p.2) fun _ => rfl

/-- The values of arguments add code only, one behind the other. -/
theorem adds_values {xs : List Coded} (hxs : ∀ x ∈ xs, CodeOnly decls x) :
    Adds decls [] (values xs) := by
  induction xs with
  | nil => exact adds_pure _
  | cons x xs ih =>
    rw [List.forall_mem_cons] at hxs
    exact Adds.seq hxs.1.value fun v => Adds.seq (ih hxs.2) fun vs =>
      adds_pure _

/-- A unary operator adds the code of its operand and at most one statement. -/
theorem adds_unaryValue (op : UnOp) {x : Coded} (hx : CodeOnly decls x) :
    Adds decls [] (unaryValue op x) := by
  refine Adds.seq hx.value fun v => ?_
  cases op with
  | plus => exact adds_pure _
  | neg => exact adds_define (s := fun t => .unary t .neg v) fun _ => rfl
  | not => exact adds_define (s := fun t => .unary t .not v) fun _ => rfl

/-- An operator that is not logical adds the code of both sides and one statement. -/
theorem adds_arithValue (op : BinOp) (hl : CodeOnly decls l) (hr : CodeOnly decls r) :
    Adds decls [] (arithValue env op l r) := by
  refine Adds.seq (adds_folded _) fun o => ?_
  split
  · exact Adds.seq (adds_refuse _ _) fun _ => Adds.seq hl.value fun a => Adds.seq hr.value fun b =>
      adds_binaryTemp _ _ _
  · exact Adds.seq hl.value fun a => Adds.seq hr.value fun b =>
      adds_binaryTemp _ _ _

/-- When the number of arguments and the use of the result pass their checks, the operands of a call
are compiled in order and the call is written. -/
theorem checkedCall_inv {name target : String} {callee : Option Signature} {args : List Coded}
    {pos : Pos} {wanted : Bool} {v : Val} {st st' : State}
    (h : (do
      if Reg.argCount < args.length then refuse env pos (.tooManyArguments name args.length)
      match callee with
      | some sig =>
        if args.length ≠ sig.params then
          refuse env pos (.argumentCount name sig.params args.length)
        if wanted && sig.void then refuse env pos (.voidAsValue name)
      | none => pure ()
      let vs ← values args
      if wanted then
        let t ← newTemp
        emit (.call (some t) target vs)
        pure t
      else
        emit (.call none target vs)
        pure (.const 0) : Gen Val) st = .ok (v, st')) :
    ∃ vs st₁, values args st = .ok (vs, st₁) ∧
      ((wanted = true ∧ v = .temp st₁.counters.temps ∧
          st' = st₁.define fun t => .call (some t) target vs) ∨
        (wanted = false ∧ st' = st₁.add (.call none target vs))) := by
  -- The last step is the same behind all checks, so it is inverted once.
  have htail : ∀ vs st₁, (if wanted then do
        let t ← newTemp
        emit (.call (some t) target vs)
        pure t
      else do
        emit (.call none target vs)
        pure (.const 0) : Gen Val) st₁ = .ok (v, st') →
      (wanted = true ∧ v = .temp st₁.counters.temps ∧
          st' = st₁.define fun t => .call (some t) target vs) ∨
        (wanted = false ∧ st' = st₁.add (.call none target vs)) := by
    intro vs st₁ h
    cases wanted with
    | true => cases h; exact Or.inl ⟨rfl, rfl, rfl⟩
    | false => cases h; exact Or.inr ⟨rfl, rfl⟩
  dsimp only at h
  split at h
  · exact (refuse_bind_inv h).elim
  · cases callee with
    | none =>
      obtain ⟨vs, st₁, hvs, h⟩ := bind_eq_ok h
      exact ⟨vs, st₁, hvs, htail vs st₁ h⟩
    | some sig =>
      simp only at h
      split at h
      · exact (refuse_bind_inv h).elim
      · split at h
        · exact (refuse_bind_inv h).elim
        · obtain ⟨vs, st₁, hvs, h⟩ := bind_eq_ok h
          exact ⟨vs, st₁, hvs, htail vs st₁ h⟩

/-- The line as an argument. -/
def lineArg (pos : Pos) : Coded :=
  guardConst (.ok (some pos.line)) (pure (.const pos.line)) fun _ _ => pure ()

/-- What a call is compiled to, when it passes the checks; a timing function gets the line. -/
theorem callValue_inv {name : String} {callee : Option Signature} {args : List Coded} {pos : Pos}
    {wanted : Bool} {v : Val} {st st' : State}
    (h : callValue env name callee args pos wanted st = .ok (v, st')) :
    ∃ target args' vs st₁, (timer? name = none → target = name ∧ args' = args) ∧
      (args' = args ∨ args' = [lineArg pos]) ∧
      values args' st = .ok (vs, st₁) ∧
      ((wanted = true ∧ v = .temp st₁.counters.temps ∧
          st' = st₁.define fun t => .call (some t) target vs) ∨
        (wanted = false ∧ st' = st₁.add (.call none target vs))) := by
  unfold callValue at h
  -- A timer is called by its own name, with the line instead of the arguments.
  cases htimer : timer? name with
  | none =>
    simp only [htimer] at h
    obtain ⟨vs, st₁, hvs, hst⟩ := checkedCall_inv h
    exact ⟨name, args, vs, st₁, fun _ => ⟨rfl, rfl⟩, Or.inl rfl, hvs, hst⟩
  | some t =>
    simp only [htimer] at h
    obtain ⟨vs, st₁, hvs, hst⟩ := checkedCall_inv h
    exact ⟨t, [lineArg pos], vs, st₁, nofun, Or.inr rfl, hvs, hst⟩

/-- A logical operator as a value: the label behind it is drawn first and written last. -/
theorem logicalValue_inv {isOr : Bool} {v : Val} {st st' : State}
    (h : logicalValue isOr l r st = .ok (v, st')) :
    ∃ st₁ st₂, v = .temp st.counters.temps ∧
      l.jump st.counters.labels isOr
        (st.define fun t => .move t (.const (if isOr then 1 else 0))).drawLabel = .ok ((), st₁) ∧
      r.jump st.counters.labels isOr st₁ = .ok ((), st₂) ∧
      st' = (st₂.add (.move (.temp st.counters.temps) (.const (if isOr then 0 else 1)))).add
        (.label st.counters.labels) := by
  -- The result is preset to what a jump out of the first operands leaves, and corrected if
  -- none is taken.
  obtain ⟨t, s₁, h₁, h⟩ := bind_eq_ok h
  cases h₁
  obtain ⟨done, s₂, h₂, h⟩ := bind_eq_ok h
  cases h₂
  obtain ⟨⟨⟩, s₃, h₃, h⟩ := bind_eq_ok h
  cases h₃
  obtain ⟨⟨⟩, st₁, hl, h⟩ := bind_eq_ok h
  obtain ⟨⟨⟩, st₂, hr, h⟩ := bind_eq_ok h
  obtain ⟨⟨⟩, s₄, h₄, h⟩ := bind_eq_ok h
  obtain ⟨⟨⟩, s₅, h₅, h⟩ := bind_eq_ok h
  obtain rfl := emit_inv h₄
  obtain rfl := emit_inv h₅
  obtain ⟨rfl, rfl⟩ := pure_inv h
  exact ⟨st₁, st₂, rfl, hl, hr, rfl⟩

/-- A logical operator as a jump. -/
theorem logicalJump_inv {isOr want : Bool} {label : Int} {st st' : State}
    (h : logicalJump isOr l r label want st = .ok ((), st')) :
    ((!isOr) = want ∧ ∃ st₁ st₂, l.jump st.counters.labels (!want) st.drawLabel = .ok ((), st₁) ∧
      r.jump label want st₁ = .ok ((), st₂) ∧ st' = st₂.add (.label st.counters.labels)) ∨
    (isOr = want ∧ ∃ st₁, l.jump label want st = .ok ((), st₁) ∧
      r.jump label want st₁ = .ok ((), st')) := by
  unfold logicalJump at h
  -- Either the first operand can decide against the jump, and then it skips the second, or
  -- both jump to the same label.
  split at h
  · next hwant =>
    obtain ⟨skip, s₁, h₁, h⟩ := bind_eq_ok h
    cases h₁
    obtain ⟨⟨⟩, st₁, hl, h⟩ := bind_eq_ok h
    obtain ⟨⟨⟩, st₂, hr, h⟩ := bind_eq_ok h
    obtain rfl := emit_inv h
    exact Or.inl ⟨by cases isOr <;> cases want <;> simp_all, st₁, st₂, hl, hr, rfl⟩
  · next hwant =>
    obtain ⟨⟨⟩, st₁, hl, hr⟩ := bind_eq_ok h
    exact Or.inr ⟨by cases isOr <;> cases want <;> simp_all, st₁, hl, hr⟩

/-- A logical operator as a value; its label is pending until both sides are compiled. -/
theorem adds_logicalValue (isOr : Bool) (hl : CodeOnly decls l) (hr : CodeOnly decls r) :
    Adds decls [] (logicalValue isOr l r) := fun st v st' h => by
  obtain ⟨st₁, st₂, -, h₁, h₂, rfl⟩ := logicalValue_inv h
  obtain ⟨hgrown₁, hdecl₁⟩ := hl.jump _ _ h₁
  obtain ⟨hgrown₂, hdecl₂⟩ := hr.jump _ _ h₂
  -- The temporary of the result and the label of the end come first.
  have hstart : Grown [st.counters.labels] st
      (st.define fun t => .move t (.const (if isOr then 1 else 0))).drawLabel :=
    (Grown.define st fun _ => rfl).trans
      (Grown.drawLabel (st.define fun t => .move t (.const (if isOr then 1 else 0))))
  have hmove := Grown.add st₂
    (s := .move (.temp st.counters.temps) (.const (if isOr then 0 else 1))) rfl
  refine ⟨(((hstart.trans hgrown₁).trans hgrown₂).trans hmove).settle, ?_⟩
  have hstart' : Declared decls [] st
      (st.define fun t => .move t (.const (if isOr then 1 else 0))).drawLabel := .none rfl rfl rfl
  exact ((hstart'.trans hdecl₁).trans hdecl₂).trans (.none rfl rfl rfl)

/-- A logical operator as a jump, with a label of its own only when the left side jumps
over the right one. -/
theorem adds_logicalJump (isOr : Bool) (hl : CodeOnly decls l) (hr : CodeOnly decls r) (label : Int)
    (want : Bool) : Adds decls [] (logicalJump isOr l r label want) := fun st v st' h => by
  rcases logicalJump_inv h with ⟨-, st₁, st₂, h₁, h₂, rfl⟩ | ⟨-, st₁, h₁, h₂⟩
  · obtain ⟨hgrown₁, hdecl₁⟩ := hl.jump _ _ h₁
    obtain ⟨hgrown₂, hdecl₂⟩ := hr.jump _ _ h₂
    refine ⟨(((Grown.drawLabel st).trans hgrown₁).trans hgrown₂).settle, ?_⟩
    have hstart' : Declared decls [] st st.drawLabel := .none rfl rfl rfl
    exact ((hstart'.trans hdecl₁).trans hdecl₂).trans (.none rfl rfl rfl)
  · obtain ⟨hgrown₁, hdecl₁⟩ := hl.jump _ _ h₁
    obtain ⟨hgrown₂, hdecl₂⟩ := hr.jump _ _ h₂
    exact ⟨hgrown₁.trans hgrown₂, hdecl₁.trans hdecl₂⟩

/-- A call adds the code of its arguments and one statement. -/
theorem adds_callValue (name : String) (callee : Option Signature) {args : List Coded}
    (hargs : ∀ x ∈ args, CodeOnly decls x) (pos : Pos) (wanted : Bool) :
    Adds decls [] (callValue env name callee args pos wanted) := fun st v st' h => by
  obtain ⟨target, args', vs, st₁, -, hargs', hvs, hst⟩ := callValue_inv h
  -- The arguments of a timer are replaced by its line number.
  have hcode : ∀ x ∈ args', CodeOnly decls x := by
    rcases hargs' with rfl | rfl
    · exact hargs
    · rw [List.forall_mem_singleton]
      exact codeOnly_guardConst (adds_pure _) fun _ _ => adds_pure _
  obtain ⟨hgrown, hdecl⟩ := adds_values hcode hvs
  rcases hst with ⟨-, -, rfl⟩ | ⟨-, rfl⟩
  · exact ⟨hgrown.trans (.define st₁ fun _ => rfl), hdecl.trans (.none rfl rfl rfl)⟩
  · exact ⟨hgrown.trans (.add st₁ rfl), hdecl.trans (.none rfl rfl rfl)⟩

/-- Lists of expressions are compiled element by element. -/
theorem exprs_eq_map (env : Env) (es : List Expr) : exprs env es = es.map (expr env) := by
  induction es with
  | nil => rfl
  | cons e es ih => rw [exprs, ih, List.map_cons]

/-- Each compiled element of a list adds code only when the expressions do. -/
theorem codeOnly_exprs {index : List Expr} (h : ∀ e ∈ index, CodeOnly decls (expr env e)) :
    ∀ x ∈ exprs env index, CodeOnly decls x := by
  rw [exprs_eq_map]
  exact List.forall_mem_map.2 h

/-- Expressions add code only. -/
theorem codeOnly_expr (decls : Decls) (env : Env) (e : Expr) : CodeOnly decls (expr env e) := by
  -- On the expression.  Both ways to compile it are shown together, because a negation
  -- compiles its operand as a jump.
  induction e using Expr.induction with
  | absent | num => exact codeOnly_guardConst (adds_pure _) fun _ _ => adds_pure _
  | lval d index pos ih =>
    have h : Adds decls [] (lvalValue env d pos (exprs env index)) :=
      adds_lvalValue d pos (codeOnly_exprs ih)
    exact codeOnly_guardConst h (adds_jumpOnValue h)
  | call name callee args pos ih =>
    have h : Adds decls [] (callValue env name callee (exprs env args) pos true) :=
      adds_callValue name callee (codeOnly_exprs ih) pos true
    exact codeOnly_guardConst h (adds_jumpOnValue h)
  | unary op x ih =>
    have h := adds_unaryValue op ih
    refine codeOnly_guardConst h ?_
    cases op with
    | plus | neg => exact adds_jumpOnValue h
    | not => exact fun label want => ih.jump label (!want)
  | binary op l r ihl ihr =>
    have h : Adds decls [] (arithValue env op (expr env l) (expr env r)) :=
      adds_arithValue op ihl ihr
    cases op with
    | and => exact codeOnly_guardConst (adds_logicalValue _ ihl ihr) (adds_logicalJump _ ihl ihr)
    | or => exact codeOnly_guardConst (adds_logicalValue _ ihl ihr) (adds_logicalJump _ ihl ihr)
    | add | sub | mul | div | mod | cmp => exact codeOnly_guardConst h (adds_jumpOnValue h)

end Pieces

/-! ## Statements -/

mutual

/-- The declarations of a statement, in order. -/
def declared : Node → List DeclId
  | .declare d => [d]
  | .block items => declaredAll items
  | .cond _ yes no => declared yes ++ declared no
  | .loop _ body => declared body
  | .skip | .assign .. | .eval _ | .leave _ | .again _ | .ret .. => []

/-- The declarations of statements, in order. -/
def declaredAll : List Node → List DeclId
  | [] => []
  | s :: ss => declared s ++ declaredAll ss

end

/-- The state with a variable for a declaration. -/
def State.newLocal (st : State) (d : Decl) (id : DeclId) : State :=
  let v : Var :=
    { name := d.name, cls := .loc, index := st.counters.vars, dims := shape d }
  { st with vars := st.vars.push v, counters := st.counters.nextVar
            locals := st.locals.push st.vars.size, scope := st.scope.insert id st.vars.size }

section Statements

variable {env : Env} {loops : List Loop} {st st' : State}

/-- A local is put at the end of the table, and its position is the result. -/
theorem newLocal_inv {d : Decl} {id : DeclId} {v : VarId} (h : newLocal d id st = .ok (v, st')) :
    v = st.vars.size ∧ st' = st.newLocal d id := by
  cases h
  exact ⟨rfl, rfl⟩

/-- A local adds no code and one variable. -/
theorem adds_newLocal (decls : Decls) (id : DeclId) :
    Adds decls [id] (newLocal (decls.at id) id) := fun st v st' h => by
  obtain ⟨-, rfl⟩ := newLocal_inv h
  constructor
  · exact ⟨[], 0, 0, by simp [State.newLocal], rfl, List.Perm.refl _, rfl,
      by simp [State.newLocal, drawn], Nat.le_refl _⟩
  · exact ⟨.one rfl rfl, Array.toList_push⟩

/-- An initial value that is there is stored, unless it is zero after a zero fill. -/
theorem initElement_inv {id : VarId} {zeroed : Bool} {k : Int} {e : Expr} {es : List Expr}
    (he : e ≠ .absent) (h : initElements env id zeroed k (e :: es) st = .ok ((), st')) :
    ∃ c st₁, (expr env e).const = .ok c ∧ initElements env id zeroed (k + 1) es st₁ = .ok ((), st') ∧
      ((c = some 0 ∧ zeroed = true) ∧ st₁ = st ∨
        ¬(c = some 0 ∧ zeroed = true) ∧ ∃ v st₀, (expr env e).value st = .ok (v, st₀) ∧
          st₁ = st₀.add (.store (.var id) (4 * k) v)) := by
  rw [initElements] at h
  · obtain ⟨c, s₀, hfold, hstore⟩ := bind_eq_ok h
    obtain ⟨hc, rfl⟩ := folded_inv hfold
    refine ⟨c, ?_⟩
    dsimp only at hstore
    -- A zero need not be stored if the array was cleared.
    split at hstore
    · next hzero => exact ⟨s₀, hc, hstore, Or.inl ⟨hzero, rfl⟩⟩
    · next hzero =>
      obtain ⟨v, s₁, hv, hstore⟩ := bind_eq_ok hstore
      obtain ⟨⟨⟩, s₂, hemit, hrest⟩ := bind_eq_ok hstore
      obtain rfl := emit_inv hemit
      exact ⟨_, hc, hrest, Or.inr ⟨hzero, v, s₁, hv, rfl⟩⟩
  · exact he

/-- The initial values of an array add their code and stores. -/
theorem adds_initElements (decls : Decls) (id : VarId) (zeroed : Bool) (k : Int) (es : List Expr) :
    Adds decls [] (initElements env id zeroed k es) := by
  -- On the values that are left.  A value that is left out moves on to the next index and
  -- writes nothing.
  induction es generalizing k with
  | nil => exact adds_pure _
  | cons e es ih =>
    by_cases he : e = .absent
    · subst he
      exact ih (k + 1)
    · intro st u st' h
      obtain ⟨c, st₁, -, hrest, ⟨-, rfl⟩ | ⟨-, v, st₀, hv, rfl⟩⟩ := initElement_inv he h
      · exact ih (k + 1) hrest
      · obtain ⟨hgrown, hdecl⟩ := (codeOnly_expr decls env e).value hv
        obtain ⟨hgrown', hdecl'⟩ := ih (k + 1) hrest
        have hadd : Declared decls [] st₀ (st₀.add (.store (.var id) (4 * k) v)) := .none rfl rfl rfl
        exact ⟨(hgrown.trans (.add st₀ rfl)).trans hgrown', (hdecl.trans hadd).trans hdecl'⟩

/-- How a declaration is compiled: a variable, then its initial values. -/
theorem declare_inv {d : DeclId} (h : declare env d st = .ok ((), st')) :
    let x := env.decls.at d
    let id : VarId := st.vars.size
    (x.init = none ∧ st' = st.newLocal x d) ∨
    (∃ e es v st₁, x.init = some (e :: es) ∧ x.isArray = false ∧
      (expr env e).value (st.newLocal x d) = .ok (v, st₁) ∧ st' = st₁.add (.move (.var id) v)) ∨
    (∃ init, x.init = some init ∧ x.isArray = true ∧
      let zeroed := decide ((init.length : Int) < x.elems) || init.any isAbsent
      initElements env id zeroed 0 init
        (if zeroed then (st.newLocal x d).add (.zeroFill (.var id)) else st.newLocal x d) =
          .ok ((), st')) := by
  obtain ⟨id, st₀, hlocal, h⟩ := bind_eq_ok h
  obtain ⟨rfl, rfl⟩ := newLocal_inv hlocal
  dsimp only at h ⊢
  cases hinit : (env.decls.at d).init with
  | none =>
    rw [hinit] at h
    obtain ⟨-, rfl⟩ := pure_inv h
    exact Or.inl ⟨rfl, rfl⟩
  | some init =>
    rw [hinit] at h
    dsimp only at h
    right
    -- A scalar takes its first value; an array is filled with zeros first where values are
    -- missing.
    cases harray : (env.decls.at d).isArray with
    | false =>
      simp only [harray, Bool.not_false, if_true] at h
      cases init with
      | nil => cases h
      | cons e es =>
        obtain ⟨v, st₁, hv, h⟩ := bind_eq_ok h
        obtain rfl := emit_inv h
        exact Or.inl ⟨e, es, v, st₁, rfl, rfl, hv, rfl⟩
    | true =>
      simp only [harray, Bool.not_true, Bool.false_eq_true, if_false] at h
      refine Or.inr ⟨init, rfl, rfl, ?_⟩
      split at h
      · next hzeroed =>
        rw [hzeroed, if_pos rfl]
        exact hzeroed ▸ h
      · next hzeroed =>
        rw [if_neg hzeroed]
        exact h

/-- A declaration adds its variable, and the code of its initial values. -/
theorem adds_declare (d : DeclId) : Adds env.decls [d] (declare env d) := fun st u st' h => by
  have hlocal : Grown [] st (st.newLocal (env.decls.at d) d) ∧
      Declared env.decls [d] st (st.newLocal (env.decls.at d) d) :=
    adds_newLocal env.decls d (a := st.vars.size) rfl
  -- No initial value, one for a scalar, or a list for an array.
  rcases declare_inv h with ⟨-, rfl⟩ | ⟨e, es, v, st₁, -, -, hv, rfl⟩ | ⟨init, -, -, hrest⟩
  · exact hlocal
  · obtain ⟨hgrown, hdecl⟩ := (codeOnly_expr env.decls env e).value hv
    exact ⟨(hlocal.1.trans hgrown).trans (.add st₁ rfl),
      (hlocal.2.trans hdecl).trans (.none rfl rfl rfl)⟩
  · obtain ⟨hgrown, hdecl⟩ := adds_initElements env.decls _ _ _ _ hrest
    split at hgrown
    -- The zero fill comes between the declaration and the stores.
    · next hzeroed =>
      rw [if_pos hzeroed] at hdecl
      have hfill : Declared env.decls [] (st.newLocal (env.decls.at d) d)
        ((st.newLocal (env.decls.at d) d).add (.zeroFill (.var st.vars.size))) := .none rfl rfl rfl
      exact ⟨(hlocal.1.trans (.add _ rfl)).trans hgrown, (hlocal.2.trans hfill).trans hdecl⟩
    · next hzeroed =>
      rw [if_neg hzeroed] at hdecl
      exact ⟨hlocal.1.trans hgrown, hlocal.2.trans hdecl⟩

/-- How an assignment is compiled: its value, then the address. -/
theorem assign_inv {target : DeclId} {index : List Expr} {tp pos : Pos} {e : Expr}
    (h : assign env target index tp e pos st = .ok ((), st')) :
    let x := env.decls.at target
    ∃ v st₁ id, (expr env e).value st = .ok (v, st₁) ∧ lookup env target tp st₁ = .ok (id, st₁) ∧
      ((x.isArray = false ∧ st' = st₁.add (.move (.var id) v)) ∨
        (x.isArray = true ∧ index.length = x.dims.length ∧ ∃ base off st₂,
          address env id tp x (exprs env index) st₁ = .ok ((base, off), st₂) ∧
            st' = st₂.add (.store base off v))) := by
  unfold assign at h
  dsimp only at h ⊢
  split at h
  · exact (refuse_bind_inv h).elim
  · obtain ⟨v, st₁, hv, h⟩ := bind_eq_ok h
    obtain ⟨id, st₂, hid, hwrite⟩ := bind_eq_ok h
    obtain ⟨rfl, -⟩ := lookup_inv hid
    refine ⟨v, st₂, id, hv, hid, ?_⟩
    -- A scalar is moved to, an element is stored to.
    cases harray : (env.decls.at target).isArray with
    | false =>
      simp only [harray, Bool.not_false, if_true] at hwrite
      obtain rfl := emit_inv hwrite
      exact Or.inl ⟨rfl, rfl⟩
    | true =>
      simp only [harray, Bool.not_true, Bool.false_eq_true, if_false] at hwrite
      split at hwrite
      · exact (refuse_inv hwrite).elim
      · next hlen =>
        obtain ⟨⟨base, off⟩, st₃, haddr, hstore⟩ := bind_eq_ok hwrite
        obtain rfl := emit_inv hstore
        exact Or.inr ⟨rfl, not_not.1 hlen, base, off, st₃, haddr, rfl⟩

/-- An assignment adds the code of its value and of its address, and one statement. -/
theorem adds_assign (decls : Decls) (target : DeclId) (index : List Expr) (tp : Pos) (e : Expr)
    (pos : Pos) : Adds decls [] (assign env target index tp e pos) := fun st u st' h => by
  obtain ⟨v, st₁, id, hv, -, ⟨-, rfl⟩ | ⟨-, -, base, off, st₂, haddr, rfl⟩⟩ := assign_inv h
  · obtain ⟨hgrown, hdecl⟩ := (codeOnly_expr decls env e).value hv
    exact ⟨hgrown.trans (.add st₁ rfl), hdecl.trans (.none rfl rfl rfl)⟩
  · obtain ⟨hgrown, hdecl⟩ := (codeOnly_expr decls env e).value hv
    obtain ⟨hgrown', hdecl'⟩ := adds_address id tp _
      (codeOnly_exprs fun e _ => codeOnly_expr decls env e) haddr
    exact ⟨(hgrown.trans hgrown').trans (.add st₂ rfl),
      (hdecl.trans hdecl').trans (.none rfl rfl rfl)⟩

/-- A return passes the check of its value: it has one exactly in a function that gives a
result. -/
theorem ret_inv {value : Option Expr} {pos : Pos} (h : ret env value pos st = .ok ((), st')) :
    (value = none ∧ env.func.void = true ∧ st' = st.add (.ret none)) ∨
      ∃ e v st₁, value = some e ∧ env.func.void = false ∧ (expr env e).value st = .ok (v, st₁) ∧
        st' = st₁.add (.ret (some v)) := by
  unfold ret at h
  -- A return has to fit the function: a result if and only if it gives one.
  cases value with
  | none =>
    cases hvoid : env.func.void with
    | false =>
      rw [hvoid] at h
      exact (refuse_inv h).elim
    | true =>
      rw [hvoid] at h
      obtain rfl := emit_inv h
      exact Or.inl ⟨rfl, rfl, rfl⟩
  | some e =>
    cases hvoid : env.func.void with
    | true =>
      rw [hvoid] at h
      exact (refuse_inv h).elim
    | false =>
      rw [hvoid] at h
      obtain ⟨v, st₁, hv, h⟩ := bind_eq_ok h
      obtain rfl := emit_inv h
      exact Or.inr ⟨e, v, st₁, rfl, rfl, hv, rfl⟩

/-- A return adds the code of its value and one statement. -/
theorem adds_ret (decls : Decls) (value : Option Expr) (pos : Pos) :
    Adds decls [] (ret env value pos) := fun st u st' h => by
  obtain ⟨-, -, rfl⟩ | ⟨e, v, st₁, -, -, hv, rfl⟩ := ret_inv h
  · exact ⟨.add st rfl, .none rfl rfl rfl⟩
  · obtain ⟨hgrown, hdecl⟩ := (codeOnly_expr decls env e).value hv
    exact ⟨hgrown.trans (.add st₁ rfl), hdecl.trans (.none rfl rfl rfl)⟩

/-- An expression for its effect is a call without a result, or a value that nobody uses. -/
theorem effect_inv {x : Expr} (h : effect env x st = .ok ((), st')) :
    (∃ name callee args pos v, x = .call name callee args pos ∧
      callValue env name callee (exprs env args) pos false st = .ok (v, st')) ∨
    (∀ name callee args pos, x ≠ .call name callee args pos) ∧
      ∃ v, (expr env x).value st = .ok (v, st') := by
  unfold effect at h
  split at h
  -- A call is compiled without asking for its value.
  · next name callee args pos =>
    obtain ⟨v, st₁, hv, h⟩ := bind_eq_ok h
    obtain ⟨-, rfl⟩ := pure_inv h
    exact Or.inl ⟨name, callee, args, pos, v, rfl, hv⟩
  · next hne =>
    obtain ⟨v, st₁, hv, h⟩ := bind_eq_ok h
    obtain ⟨-, rfl⟩ := pure_inv h
    exact Or.inr ⟨hne, v, hv⟩

/-- An expression for its effects adds code only. -/
theorem adds_effect (decls : Decls) (x : Expr) : Adds decls [] (effect env x) := fun st u st' h => by
  obtain ⟨name, callee, args, pos, v, -, hv⟩ | ⟨-, v, hv⟩ := effect_inv h
  · exact adds_callValue name callee (codeOnly_exprs fun e _ => codeOnly_expr decls env e) pos false hv
  · exact (codeOnly_expr decls env x).value hv

/-- How a condition is compiled: the label of the other branch is drawn first. -/
theorem cond_inv {c : Expr} {yes no : Node} (h : node env loops (.cond c yes no) st = .ok ((), st')) :
    ∃ st₁ st₂, (expr env c).jump st.counters.labels false st.drawLabel = .ok ((), st₁) ∧
      node env loops yes st₁ = .ok ((), st₂) ∧
      ((no = .skip ∧ st' = st₂.add (.label st.counters.labels)) ∨
        ∃ st₃, node env loops no ((st₂.drawLabel.add (.jump st₂.counters.labels)).add
            (.label st.counters.labels)) = .ok ((), st₃) ∧
          st' = st₃.add (.label st₂.counters.labels)) := by
  rw [node] at h
  obtain ⟨els, s₀, hels, h⟩ := bind_eq_ok h
  cases hels
  obtain ⟨⟨⟩, st₁, hjump, h⟩ := bind_eq_ok h
  obtain ⟨⟨⟩, st₂, hyes, h⟩ := bind_eq_ok h
  refine ⟨st₁, st₂, hjump, hyes, ?_⟩
  -- If the second branch is empty the code needs only one label.
  split at h
  · next hskip =>
    obtain rfl := emit_inv h
    cases no with
    | skip => exact Or.inl ⟨rfl, rfl⟩
    | _ => cases hskip
  · right
    obtain ⟨done, s₁, hdone, h⟩ := bind_eq_ok h
    cases hdone
    obtain ⟨⟨⟩, s₂, hemit, h⟩ := bind_eq_ok h
    obtain rfl := emit_inv hemit
    obtain ⟨⟨⟩, s₃, hemit, h⟩ := bind_eq_ok h
    obtain rfl := emit_inv hemit
    obtain ⟨⟨⟩, st₃, hno, h⟩ := bind_eq_ok h
    obtain rfl := emit_inv h
    exact ⟨st₃, hno, rfl⟩

/-- How a loop is compiled: both of its labels are drawn first. -/
theorem loop_inv {c : Expr} {body : Node} (h : node env loops (.loop c body) st = .ok ((), st')) :
    let head := st.counters.labels
    let done := st.drawLabel.counters.labels
    ∃ st₁ st₂, (expr env c).jump done false (st.drawLabel.drawLabel.add (.label head)) =
        .ok ((), st₁) ∧
      node env ({ head, done } :: loops) body st₁ = .ok ((), st₂) ∧
      st' = (st₂.add (.jump head)).add (.label done) := by
  rw [node] at h
  -- Two labels are drawn first, the head and the end, since the body may refer to both.
  obtain ⟨head, s₀, hhead, h⟩ := bind_eq_ok h
  cases hhead
  obtain ⟨done, s₁, hdone, h⟩ := bind_eq_ok h
  cases hdone
  obtain ⟨⟨⟩, s₂, hemit, h⟩ := bind_eq_ok h
  obtain rfl := emit_inv hemit
  obtain ⟨⟨⟩, st₁, hjump, h⟩ := bind_eq_ok h
  obtain ⟨⟨⟩, st₂, hbody, h⟩ := bind_eq_ok h
  obtain ⟨⟨⟩, s₃, hemit, h⟩ := bind_eq_ok h
  obtain rfl := emit_inv hemit
  obtain rfl := emit_inv h
  exact ⟨st₁, st₂, hjump, hbody, rfl⟩

/-- A conditional adds its test and both ways, each with what it declares. -/
theorem adds_cond {c : Expr} {yes no : Node} (hyes : Adds env.decls (declared yes) (node env loops yes))
    (hno : Adds env.decls (declared no) (node env loops no)) :
    Adds env.decls (declared (.cond c yes no)) (node env loops (.cond c yes no)) :=
    fun st u st' h => by
  obtain ⟨st₁, st₂, hjump, h₂, hrest⟩ := cond_inv h
  obtain ⟨hgrown₁, hdecl₁⟩ := (codeOnly_expr env.decls env c).jump _ _ hjump
  obtain ⟨hgrown₂, hdecl₂⟩ := hyes h₂
  have hgrown := ((Grown.drawLabel st).trans hgrown₁).trans hgrown₂
  have hdraw : Declared env.decls [] st st.drawLabel := .none rfl rfl rfl
  have hdecl := (hdraw.trans hdecl₁).trans hdecl₂
  rcases hrest with ⟨rfl, rfl⟩ | ⟨st₃, h₃, rfl⟩
  · exact ⟨hgrown.settle, hdecl.trans (.none rfl rfl rfl)⟩
  · obtain ⟨hgrown₃, hdecl₃⟩ := hno h₃
    -- The label of the test is written between the ways; the second label is pending from
    -- there on.
    have hmiddle := ((hgrown.trans (Grown.drawLabel st₂)).trans
      (Grown.add st₂.drawLabel (s := .jump st₂.counters.labels) rfl)).settle
    have hadd : Declared env.decls [] st₂ ((st₂.drawLabel.add (.jump st₂.counters.labels)).add
      (.label st.counters.labels)) := .none rfl rfl rfl
    have hlast : Declared env.decls [] st₃ (st₃.add (.label st₂.counters.labels)) :=
      .none rfl rfl rfl
    refine ⟨(hmiddle.trans hgrown₃).settle, ?_⟩
    rw [declared]
    simpa using ((hdecl.trans hadd).trans hdecl₃).trans hlast

/-- A loop adds its test and its body; of its two labels one is written first and one
last. -/
theorem adds_loop {c : Expr} {body : Node}
    (hbody : ∀ loops, Adds env.decls (declared body) (node env loops body)) :
    Adds env.decls (declared (.loop c body)) (node env loops (.loop c body)) := fun st u st' h => by
  obtain ⟨st₁, st₂, hjump, h₂, rfl⟩ := loop_inv h
  obtain ⟨hgrown₁, hdecl₁⟩ := (codeOnly_expr env.decls env c).jump _ _ hjump
  obtain ⟨hgrown₂, hdecl₂⟩ := hbody _ h₂
  -- Both labels are drawn before the condition.
  have hhead := ((Grown.drawLabel st).trans (Grown.drawLabel st.drawLabel)).settle
  have hdraw : Declared env.decls [] st
    (st.drawLabel.drawLabel.add (.label st.counters.labels)) := .none rfl rfl rfl
  refine ⟨(((hhead.trans hgrown₁).trans hgrown₂).trans (Grown.add st₂ rfl)).settle, ?_⟩
  have hlast : Declared env.decls [] st₂
    ((st₂.add (.jump st.counters.labels)).add (.label st.drawLabel.counters.labels)) :=
    .none rfl rfl rfl
  rw [declared]
  simpa using ((hdraw.trans hdecl₁).trans hdecl₂).trans hlast

/-- Statements one after the other add what each of them adds. -/
theorem adds_nodes {items : List Node}
    (h : ∀ s ∈ items, ∀ loops, Adds env.decls (declared s) (node env loops s)) (loops : List Loop) :
    Adds env.decls (declaredAll items) (nodes env loops items) := by
  induction items with
  | nil => exact adds_pure _
  | cons s ss ih =>
    rw [List.forall_mem_cons] at h
    rw [declaredAll, nodes]
    exact (h.1 loops).bind fun _ => ih h.2

/-- Statements add code and the variables that they declare. -/
theorem adds_node (env : Env) (s : Node) (loops : List Loop) :
    Adds env.decls (declared s) (node env loops s) := by
  -- On the statement, for any loops around it; only the body of a loop has one more.
  induction s using Node.induction generalizing loops with
  | skip => exact adds_pure _
  | block items ih =>
    rw [declared, node]
    exact adds_nodes ih loops
  | declare d => exact adds_declare d
  | assign target index tp e pos => exact adds_assign _ target index tp e pos
  | eval x => exact adds_effect _ x
  | cond c yes no ihyes ihno => exact adds_cond (ihyes loops) (ihno loops)
  | loop c body ih => exact adds_loop ih
  | leave pos =>
    cases loops with
    | nil => exact adds_refuse _ _
    | cons l ls => exact adds_emit rfl
  | again pos =>
    cases loops with
    | nil => exact adds_refuse _ _
    | cons l ls => exact adds_emit rfl
  | ret value pos => exact adds_ret _ value pos

end Statements

end Generate

end Tac.Tree
