import Mathlib
import Tac.Proofs.Segments

/-!
# The code of an expression by itself

The code of an expression writes only temporaries that are drawn for it, and jumps only to labels that
it defines; the jump on an expression goes to one more label, which is given.  So the code can be run by
itself, and what a function computed before it is still there behind it.

* **`Sealed`** — what a piece of generation adds between two states, as code by itself.
* **`sealing_expr`** — both ways to compile an expression do this.
* **`Segment`** — code by itself in which labels and temporaries are different; a run of it is a run of
  its parts (`Segment.split`).
-/

namespace Tac.Tree.Generate

open Run (Completes Keeps OwnJumps Writes)

/-! ## Between two states -/

/-- The statements that were added between two states. -/
def emitted (st st' : State) : List Stmt := st'.stmts.toList.drop st.stmts.size

/-- The temporaries that were drawn between two states. -/
def fresh (st st' : State) : List Int := st'.temps.toList.drop st.temps.size

section Between

variable {st st₁ st₂ : State} {code : List Stmt} {ts : List Int}

theorem emitted_eq (h : st₁.stmts.toList = st.stmts.toList ++ code) : emitted st st₁ = code := by
  rw [emitted, h, ← Array.length_toList, List.drop_left]

theorem fresh_eq (h : st₁.temps.toList = st.temps.toList ++ ts) : fresh st st₁ = ts := by
  rw [fresh, h, ← Array.length_toList, List.drop_left]

/-- Statements added in two pieces. -/
theorem emitted_trans (h : st.stmts.toList <+: st₁.stmts.toList)
    (h' : st₁.stmts.toList <+: st₂.stmts.toList) :
    emitted st st₂ = emitted st st₁ ++ emitted st₁ st₂ := by
  obtain ⟨c, hc⟩ := h
  obtain ⟨c', hc'⟩ := h'
  rw [emitted_eq hc.symm, emitted_eq hc'.symm]
  apply emitted_eq
  rw [← hc', ← hc, List.append_assoc]

/-- Temporaries drawn in two pieces. -/
theorem fresh_trans (h : st.temps.toList <+: st₁.temps.toList)
    (h' : st₁.temps.toList <+: st₂.temps.toList) :
    fresh st st₂ = fresh st st₁ ++ fresh st₁ st₂ := by
  obtain ⟨c, hc⟩ := h
  obtain ⟨c', hc'⟩ := h'
  rw [fresh_eq hc.symm, fresh_eq hc'.symm]
  apply fresh_eq
  rw [← hc', ← hc, List.append_assoc]

theorem emitted_add (st : State) (s : Stmt) : emitted st (st.add s) = [s] :=
  emitted_eq Array.toList_push

/-- A definition adds its statement. -/
theorem emitted_define (st : State) (s : Val → Stmt) :
    emitted st (st.define s) = [s (.temp st.counters.temps)] :=
  emitted_eq Array.toList_push

theorem fresh_define (st : State) (s : Val → Stmt) : fresh st (st.define s) = [st.counters.temps] :=
  fresh_eq Array.toList_push

end Between

/-- From one state to another, code was added that writes temporaries drawn for it and jumps to its own
labels or those of `T`. -/
structure Sealed (T : List Int) (st st' : State) : Prop where
  stmts : st.stmts.toList <+: st'.stmts.toList
  temps : st.temps.toList <+: st'.temps.toList
  writes : Writes (fresh st st') (emitted st st')
  targets : ∀ s ∈ emitted st st', ∀ l, s.target? = some l → l ∈ T ∨ l ∈ labelsOf (emitted st st')

namespace Sealed

variable {T : List Int} {st st₁ st₂ : State} {l : Int}

/-- Nothing is added but temporaries. -/
theorem of_stmts_eq (h : st₁.stmts = st.stmts) (h' : st.temps.toList <+: st₁.temps.toList) :
    Sealed T st st₁ := by
  have hnil : emitted st st₁ = [] := emitted_eq (by rw [h, List.append_nil])
  refine ⟨by rw [h], h', ?_, ?_⟩
  · rw [hnil]
    exact List.forall_mem_nil _
  · rw [hnil]
    exact List.forall_mem_nil _

theorem refl (st : State) : Sealed T st st := of_stmts_eq rfl (List.prefix_refl _)

theorem drawLabel (st : State) : Sealed T st st.drawLabel := of_stmts_eq rfl (List.prefix_refl _)

/-- Code behind code, each of which stands by itself. -/
theorem trans (h : Sealed T st st₁) (h' : Sealed T st₁ st₂) : Sealed T st st₂ where
  stmts := h.stmts.trans h'.stmts
  temps := h.temps.trans h'.temps
  -- What the second part writes was drawn in it, and stays drawn.
  writes := by
    rw [emitted_trans h.stmts h'.stmts, fresh_trans h.temps h'.temps]
    refine List.forall_mem_append.2 ⟨fun s hs d hd => ?_, fun s hs d hd => ?_⟩
    · obtain ⟨n, hn, rfl⟩ := h.writes s hs d hd
      exact ⟨n, List.mem_append_left _ hn, rfl⟩
    · obtain ⟨n, hn, rfl⟩ := h'.writes s hs d hd
      exact ⟨n, List.mem_append_right _ hn, rfl⟩
  targets := by
    rw [emitted_trans h.stmts h'.stmts, labelsOf_append]
    refine List.forall_mem_append.2 ⟨fun s hs l hl => ?_, fun s hs l hl => ?_⟩
    · exact (h.targets s hs l hl).imp_right (List.mem_append_left _)
    · exact (h'.targets s hs l hl).imp_right (List.mem_append_right _)

/-- One more statement, which writes one of the temporaries if it writes anything. -/
theorem snoc (h : Sealed T st st₁) {s : Stmt}
    (hdst : ∀ d, s.dst? = some d → ∃ n ∈ fresh st st₁, d = .temp n)
    (htarget : ∀ l, s.target? = some l → l ∈ T) : Sealed T st (st₁.add s) where
  stmts := h.stmts.trans ⟨[s], Array.toList_push.symm⟩
  temps := h.temps
  writes := by
    rw [emitted_trans h.stmts ⟨[s], Array.toList_push.symm⟩, emitted_add]
    exact List.forall_mem_append.2 ⟨h.writes, List.forall_mem_singleton.2 hdst⟩
  targets := by
    rw [emitted_trans h.stmts ⟨[s], Array.toList_push.symm⟩, emitted_add, labelsOf_append]
    refine List.forall_mem_append.2 ⟨fun s hs l hl => ?_, List.forall_mem_singleton.2 ?_⟩
    · exact (h.targets s hs l hl).imp_right (List.mem_append_left _)
    · exact fun l hl => Or.inl (htarget l hl)

/-- A definition writes the temporary that it draws. -/
theorem define (st : State) {s : Val → Stmt} (hdst : ∀ t, (s t).dst? = some t)
    (htarget : ∀ t, (s t).target? = none) : Sealed T st (st.define s) := by
  let drawn : State := { st with counters := st.counters.nextTemp
                                 temps := st.temps.push st.counters.temps }
  have htemps : drawn.temps.toList = st.temps.toList ++ [st.counters.temps] := Array.toList_push
  have hdrawn : Sealed T st drawn := of_stmts_eq rfl ⟨_, htemps.symm⟩
  refine hdrawn.snoc (s := s (.temp st.counters.temps)) (fun d hd => ?_) fun l hl => ?_
  · rw [hdst] at hd
    cases hd
    refine ⟨st.counters.temps, ?_, rfl⟩
    rw [fresh_eq htemps]
    exact List.mem_singleton_self _
  · rw [htarget] at hl
    cases hl

/-- A label that the code may jump to is defined behind it. -/
theorem settle (h : Sealed (l :: T) st st₁) : Sealed T st (st₁.add (.label l)) where
  stmts := h.stmts.trans ⟨[.label l], Array.toList_push.symm⟩
  temps := h.temps
  writes := by
    rw [emitted_trans h.stmts ⟨[.label l], Array.toList_push.symm⟩, emitted_add]
    exact List.forall_mem_append.2 ⟨h.writes, List.forall_mem_singleton.2 nofun⟩
  targets := by
    rw [emitted_trans h.stmts ⟨[.label l], Array.toList_push.symm⟩, emitted_add, labelsOf_append]
    refine List.forall_mem_append.2 ⟨fun s hs l' hl => ?_, List.forall_mem_singleton.2 nofun⟩
    -- Jumps to the pending label now have their target in the code.
    rcases h.targets s hs l' hl with hmem | hmem
    · rcases List.mem_cons.1 hmem with rfl | hmem
      · exact Or.inr (List.mem_append_right _ (List.mem_singleton_self _))
      · exact Or.inl hmem
    · exact Or.inr (List.mem_append_left _ hmem)

theorem ownJumps (h : Sealed [] st st₁) : OwnJumps (emitted st st₁) :=
  fun s hs l hl => (h.targets s hs l hl).resolve_left nofun

end Sealed

/-! ## Expressions -/

/-- Steps of generation add code that stands by itself, but for jumps to `T`. -/
def Seals {α : Type} (T : List Int) (g : Gen α) : Prop :=
  ∀ ⦃st a st'⦄, g st = .ok (a, st') → Sealed T st st'

/-- Both ways to compile an expression. -/
structure Sealing (c : Coded) : Prop where
  value : ∀ T, Seals T c.value
  jump : ∀ T label want, label ∈ T → Seals T (c.jump label want)

section Pieces

variable {α β : Type} {T : List Int} {env : Env} {l r : Coded}

/-- A step that only gives a value adds nothing. -/
theorem seals_pure (a : α) : Seals T (pure a : Gen α) := fun _ _ _ h => by
  obtain ⟨-, rfl⟩ := pure_inv h
  exact .refl _

/-- Steps one after the other. -/
theorem Seals.bind {g : Gen α} {f : α → Gen β} (hg : Seals T g) (hf : ∀ a, Seals T (f a)) :
    Seals T (g >>= f) := fun _ _ _ h => by
  obtain ⟨a, st₁, h₁, h₂⟩ := bind_eq_ok h
  exact (hg h₁).trans (hf a h₂)

/-- A statement without a destination, which jumps to a given label at most. -/
theorem seals_emit {s : Stmt} (hdst : s.dst? = none) (htarget : ∀ l, s.target? = some l → l ∈ T) :
    Seals T (emit s) := fun st _ _ h => by
  obtain rfl := emit_inv h
  refine (Sealed.refl st).snoc (fun d hd => ?_) htarget
  rw [hdst] at hd
  cases hd

/-- Drawing a temporary and writing the statement that defines it. -/
theorem seals_define {s : Val → Stmt} (hdst : ∀ t, (s t).dst? = some t)
    (htarget : ∀ t, (s t).target? = none) :
    Seals T (do let t ← newTemp; emit (s t); pure t) := fun _ _ _ h => by
  cases h
  exact .define _ hdst htarget

theorem seals_binaryTemp (x : Val) (op : BinOp) (y : Val) : Seals T (binaryTemp x op y) :=
  seals_define (s := fun t => .binary t x op y) (fun _ => rfl) fun _ => rfl

/-- Asking for the fold of an expression adds nothing. -/
theorem seals_folded (f : Folded) : Seals T (folded f) := fun _ _ _ h => by
  obtain ⟨-, rfl⟩ := folded_inv h
  exact .refl _

theorem seals_refuse (pos : Pos) (cause : GenCause) : Seals T (refuse env pos cause : Gen α) :=
  fun _ _ _ h => (refuse_inv h).elim

/-- Looking up a name adds nothing. -/
theorem seals_lookup (d : DeclId) (pos : Pos) : Seals T (lookup env d pos) := fun _ _ _ h => by
  obtain ⟨rfl, -⟩ := lookup_inv h
  exact .refl _

/-- The fold in front of an expression adds at most one jump, to the given label. -/
theorem sealing_guardConst {c : Folded} {value : Gen Val} {jump : Int → Bool → Gen Unit}
    (hvalue : ∀ T, Seals T value) (hjump : ∀ T label want, label ∈ T → Seals T (jump label want)) :
    Sealing (guardConst c value jump) where
  value T := by
    refine (seals_folded c).bind fun o => ?_
    -- A folded test emits a jump or nothing.
    cases o with
    | some n => exact seals_pure _
    | none => exact hvalue T
  jump T label want hlabel := by
    refine (seals_folded c).bind fun o => ?_
    cases o with
    | some n =>
      simp only
      split
      · refine seals_emit rfl ?_
        rintro _ ⟨⟩
        exact hlabel
      · exact seals_pure _
    | none => exact hjump T label want hlabel

/-- A jump on a value goes to the given label. -/
theorem seals_jumpOnValue {value : Gen Val} (h : ∀ T, Seals T value) (T : List Int) (label : Int)
    (want : Bool) (hlabel : label ∈ T) : Seals T (jumpOnValue value label want) := by
  refine (h T).bind fun v => seals_emit rfl ?_
  rintro _ ⟨⟩
  exact hlabel

/-- The indexes of an element write only temporaries of their own. -/
theorem seals_indexes (name : String) (pos : Pos) (d : Decl) {xs : List Coded}
    (hxs : ∀ x ∈ xs, Sealing x) (i : Nat) (off : Int) (dyn : Option Val) :
    Seals T (indexes env name pos d i off dyn xs) := by
  -- On the indexes, for any position, offset and sum so far.
  induction xs generalizing i off dyn with
  | nil => exact seals_pure _
  | cons x xs ih =>
    rw [List.forall_mem_cons] at hxs
    refine (seals_folded x.const).bind fun o => ?_
    cases o with
    | some c =>
      simp only
      split
      · exact seals_refuse _ _
      · exact ih hxs.2 _ _ _
    | none =>
      refine (hxs.1.value T).bind fun v => ?_
      refine (seals_binaryTemp _ _ _).bind fun u => ?_
      cases dyn with
      | some s => exact (seals_binaryTemp _ _ _).bind fun w => ih hxs.2 _ _ _
      | none => exact (seals_pure _).bind fun w => ih hxs.2 _ _ _

/-- The address of an element writes only temporaries of its own. -/
theorem seals_address (id : VarId) (pos : Pos) (d : Decl) {xs : List Coded}
    (hxs : ∀ x ∈ xs, Sealing x) : Seals T (address env id pos d xs) := by
  refine (seals_indexes _ _ _ hxs _ _ _).bind fun p => ?_
  obtain ⟨off, dyn⟩ := p
  cases dyn with
  | some v => exact (seals_binaryTemp _ _ _).bind fun b => seals_pure _
  | none => exact seals_pure _

/-- The value of a variable or an element writes only temporaries of its own. -/
theorem seals_lvalValue (d : DeclId) (pos : Pos) {xs : List Coded} (hxs : ∀ x ∈ xs, Sealing x) :
    Seals T (lvalValue env d pos xs) := by
  refine (seals_lookup d pos).bind fun id => ?_
  dsimp only
  split
  · exact seals_pure _
  · split
    · exact seals_refuse _ _
    · refine (seals_address id pos _ hxs).bind fun p => ?_
      split
      · split
        · exact seals_pure _
        · exact seals_binaryTemp _ _ _
      · exact seals_define (s := fun t => .load t p.1 p.2) (fun _ => rfl) fun _ => rfl

/-- The values of arguments write only temporaries of their own. -/
theorem seals_values {xs : List Coded} (hxs : ∀ x ∈ xs, Sealing x) : Seals T (values xs) := by
  induction xs with
  | nil => exact seals_pure _
  | cons x xs ih =>
    rw [List.forall_mem_cons] at hxs
    exact (hxs.1.value T).bind fun v => (ih hxs.2).bind fun vs => seals_pure _

/-- A unary operator writes only temporaries of its own. -/
theorem seals_unaryValue (op : UnOp) {x : Coded} (hx : Sealing x) : Seals T (unaryValue op x) := by
  refine (hx.value T).bind fun v => ?_
  cases op with
  | plus => exact seals_pure _
  | neg => exact seals_define (s := fun t => .unary t .neg v) (fun _ => rfl) fun _ => rfl
  | not => exact seals_define (s := fun t => .unary t .not v) (fun _ => rfl) fun _ => rfl

/-- An operator that is not logical writes only temporaries of its own. -/
theorem seals_arithValue (op : BinOp) (hl : Sealing l) (hr : Sealing r) :
    Seals T (arithValue env op l r) := by
  have hoperands : Seals T (do let a ← l.value; let b ← r.value; binaryTemp a op b) :=
    (hl.value T).bind fun a => (hr.value T).bind fun b => seals_binaryTemp a op b
  refine (seals_folded _).bind fun o => ?_
  split
  · exact (seals_refuse _ _).bind fun _ => hoperands
  · exact hoperands

/-- A call writes only temporaries of its own, the one of its result last. -/
theorem seals_callValue (name : String) (callee : Option Signature) {args : List Coded}
    (hargs : ∀ x ∈ args, Sealing x) (pos : Pos) (wanted : Bool) :
    Seals T (callValue env name callee args pos wanted) := fun st v st' h => by
  obtain ⟨target, args', vs, st₁, -, hargs', hvs, hst⟩ := callValue_inv h
  have hsealing : ∀ x ∈ args', Sealing x := by
    rcases hargs' with rfl | rfl
    · exact hargs
    · rw [List.forall_mem_singleton]
      exact sealing_guardConst (fun _ => seals_pure _) fun _ _ _ _ => seals_pure _
  have hvalues : Sealed T st st₁ := seals_values hsealing hvs
  rcases hst with ⟨-, -, rfl⟩ | ⟨-, rfl⟩
  · exact hvalues.trans (.define st₁ (fun _ => rfl) fun _ => rfl)
  · exact hvalues.snoc nofun nofun

/-- The temporary of the result is written at the start and once more before the label. -/
theorem seals_logicalValue (isOr : Bool) (hl : Sealing l) (hr : Sealing r) :
    Seals T (logicalValue isOr l r) := fun st v st' h => by
  obtain ⟨st₁, st₂, -, h₁, h₂, rfl⟩ := logicalValue_inv h
  let done := st.counters.labels
  -- The preset result writes the temporary that is the value of the whole.
  have hfirst : Sealed (done :: T) st (st.define fun t => .move t (.const (if isOr then 1 else 0))) :=
    .define st (fun _ => rfl) fun _ => rfl
  have hleft := hl.jump (done :: T) done isOr (List.mem_cons_self ..) h₁
  have hright := hr.jump (done :: T) done isOr (List.mem_cons_self ..) h₂
  have hjumps := ((hfirst.trans (.drawLabel _)).trans hleft).trans hright
  have htarget : ∀ n l, (Stmt.move (.temp st.counters.temps) (.const n)).target? = some l →
      l ∈ done :: T := nofun
  refine (hjumps.snoc (fun d hd => ?_) (htarget _)).settle
  cases hd
  refine ⟨st.counters.temps, ?_, rfl⟩
  rw [fresh_trans hfirst.temps (hleft.temps.trans hright.temps), fresh_define]
  exact List.mem_append_left _ (List.mem_singleton_self _)

/-- A jump on a logical operator goes to the given label or over the right side. -/
theorem seals_logicalJump (isOr : Bool) (hl : Sealing l) (hr : Sealing r) (label : Int) (want : Bool)
    (hlabel : label ∈ T) : Seals T (logicalJump isOr l r label want) := fun st v st' h => by
  rcases logicalJump_inv h with ⟨-, st₁, st₂, h₁, h₂, rfl⟩ | ⟨-, st₁, h₁, h₂⟩
  · let skip := st.counters.labels
    have hleft := hl.jump (skip :: T) skip (!want) (List.mem_cons_self ..) h₁
    have hright := hr.jump (skip :: T) label want (List.mem_cons_of_mem _ hlabel) h₂
    exact (((Sealed.drawLabel st).trans hleft).trans hright).settle
  · exact (hl.jump T label want hlabel h₁).trans (hr.jump T label want hlabel h₂)

/-- Lists of expressions, element by element. -/
theorem sealing_exprs {index : List Expr} (h : ∀ e ∈ index, Sealing (expr env e)) :
    ∀ x ∈ exprs env index, Sealing x := by
  rw [exprs_eq_map]
  exact List.forall_mem_map.2 h

/-- The code of an expression stands by itself. -/
theorem sealing_expr (env : Env) (e : Expr) : Sealing (expr env e) := by
  -- On the expression, for both ways to compile it together.
  induction e using Expr.induction with
  | absent | num => exact sealing_guardConst (fun _ => seals_pure _) fun _ _ _ _ => seals_pure _
  | lval d index pos ih =>
    have h : ∀ T, Seals T (lvalValue env d pos (exprs env index)) :=
      fun _ => seals_lvalValue d pos (sealing_exprs ih)
    exact sealing_guardConst h (seals_jumpOnValue h)
  | call name callee args pos ih =>
    have h : ∀ T, Seals T (callValue env name callee (exprs env args) pos true) :=
      fun _ => seals_callValue name callee (sealing_exprs ih) pos true
    exact sealing_guardConst h (seals_jumpOnValue h)
  | unary op x ih =>
    have h : ∀ T, Seals T (unaryValue op (expr env x)) := fun _ => seals_unaryValue op ih
    refine sealing_guardConst h ?_
    cases op with
    | plus | neg => exact seals_jumpOnValue h
    | not => exact fun T label want hlabel => ih.jump T label (!want) hlabel
  | binary op l r ihl ihr =>
    have h : ∀ T, Seals T (arithValue env op (expr env l) (expr env r)) :=
      fun _ => seals_arithValue op ihl ihr
    cases op with
    | and =>
      exact sealing_guardConst (fun _ => seals_logicalValue false ihl ihr)
        fun _ => seals_logicalJump false ihl ihr
    | or =>
      exact sealing_guardConst (fun _ => seals_logicalValue true ihl ihr)
        fun _ => seals_logicalJump true ihl ihr
    | add | sub | mul | div | mod | cmp => exact sealing_guardConst h (seals_jumpOnValue h)

end Pieces

/-! ## Segments -/

/-- Code by itself in which each label and each temporary is drawn once. -/
structure Segment (st st' : State) : Prop where
  isSealed : Sealed [] st st'
  labels : (labelsOf (emitted st st')).Nodup
  temps : (fresh st st').Nodup

namespace Segment

variable {α : Type} {X : Run.Setting α} {st st₁ st₂ : State} {s t : Run.State α}

/-- Numbers are different as long as there are no more than 64 bits can tell apart. -/
theorem of_grown (hg : Grown [] st st₁) (hs : Sealed [] st st₁)
    (hlen : (emitted st st₁).length ≤ 18446744073709551616) : Segment st st₁ := by
  obtain ⟨code, k, m, hstmts, -, hlabels, -, htemps, hle⟩ := hg
  obtain rfl := emitted_eq hstmts
  rw [List.append_nil] at hlabels
  -- There are no more labels than statements, so their numbers have not wrapped.
  have hk : k ≤ (emitted st st₁).length := by
    have hcount := hlabels.length_eq
    rw [drawn, List.length_map, List.length_range] at hcount
    rw [← hcount]
    exact List.length_filterMap_le ..
  refine ⟨hs, hlabels.nodup_iff.2 (nodup_drawn_from _ (by omega)), ?_⟩
  rw [fresh_eq htemps]
  exact nodup_drawn_from _ (by omega)

/-- The first part of a segment is a segment. -/
theorem left (h : Segment st st₂) (h₁ : Sealed [] st st₁) (h₂ : Sealed [] st₁ st₂) :
    Segment st st₁ := by
  have hlabels := h.labels
  have htemps := h.temps
  rw [emitted_trans h₁.stmts h₂.stmts, labelsOf_append] at hlabels
  rw [fresh_trans h₁.temps h₂.temps] at htemps
  exact ⟨h₁, hlabels.of_append_left, htemps.of_append_left⟩

/-- The second part of a segment is a segment. -/
theorem right (h : Segment st st₂) (h₁ : Sealed [] st st₁) (h₂ : Sealed [] st₁ st₂) :
    Segment st₁ st₂ := by
  have hlabels := h.labels
  have htemps := h.temps
  rw [emitted_trans h₁.stmts h₂.stmts, labelsOf_append] at hlabels
  rw [fresh_trans h₁.temps h₂.temps] at htemps
  exact ⟨h₂, hlabels.of_append_right, htemps.of_append_right⟩

/-- A temporary of the first part is not drawn again. -/
theorem notMem_fresh (h : Segment st st₂) (h₁ : Sealed [] st st₁) (h₂ : Sealed [] st₁ st₂) {n : Int}
    (hn : n ∈ fresh st st₁) : n ∉ fresh st₁ st₂ := by
  have htemps := h.temps
  rw [fresh_trans h₁.temps h₂.temps] at htemps
  exact List.disjoint_of_nodup_append htemps hn

/-- A run of a segment is a run of its parts. -/
theorem split (h : Segment st st₂) (h₁ : Sealed [] st st₁) (h₂ : Sealed [] st₁ st₂)
    (hrun : Completes X (emitted st st₂) s t) :
    ∃ u, Completes X (emitted st st₁) s u ∧ Completes X (emitted st₁ st₂) u t := by
  have hlabels := h.labels
  rw [emitted_trans h₁.stmts h₂.stmts] at hrun hlabels
  rw [labelsOf_append] at hlabels
  exact hrun.split h₁.ownJumps h₂.ownJumps (List.disjoint_of_nodup_append hlabels)

end Segment

end Tac.Tree.Generate
