import Mathlib
import Tac.Peephole
import Tac.Proofs.Execution

/-!
# Fusing keeps the behaviour

A fusion drops the definition of a temporary on the sole ground that the temporary is read once.
The one read is in the statement that is fused, so afterwards nobody reads the temporary: it does not
matter how often it is defined, nor whether control comes back to the place.  No label can stand
between the two statements, so nobody jumps between them.

* **`Fusion`** — one fusion: two neighbours become one, and the temporary between them is read
  nowhere else.
* **`Fusion.simulates`** — the function with the fused statement takes one step for two.
* **`fusions_sweep`** — a sweep is a chain of fusions.  Uses are counted once before the sweep, but
  fusing only removes reads, so the counts stay upper bounds.
* **`optimize_preserves`** — the whole function behaves as before.
-/

namespace Tac.Peephole

open Run

/-! ## States that agree but for one temporary -/

/-- The states differ in temporary `n` at most. -/
structure Agree {α : Type} (n : Int) (s t : State α) : Prop where
  temp : ∀ k, k ≠ n → s.temp k = t.temp k
  var : s.var = t.var
  world : s.world = t.world

/-- What is seen of temporaries does not depend on temporary `n`. -/
def Blind {α : Type} (X : Setting α) (n : Int) : Prop :=
  ∀ f g v, (∀ k, k ≠ n → f k = g k) → X.look f v = X.look g v

/-- Effects on states that differ in temporary `n` at most. -/
inductive SameEffect {α : Type} (n : Int) : Effect α → Effect α → Prop where
  | next {s t : State α} (h : Agree n s t) : SameEffect n (.next s) (.next t)
  | goto {s t : State α} (l : Int) (h : Agree n s t) : SameEffect n (.goto l s) (.goto l t)
  | ended (trace : List (Event α)) (o : Run.Outcome α) : SameEffect n (.ended trace o) (.ended trace o)

section Agreement

variable {α : Type} {X : Setting α} {n : Int} {s t : State α}

/-- Writing the temporary in one state leaves the states in agreement. -/
theorem Agree.setTemp (h : Agree n s t) (w : Word) : Agree n (s.setTemp n w) t :=
  ⟨fun k hk => (State.temp_setTemp_of_ne hk).trans (h.temp k hk), h.var, h.world⟩

theorem Agree.inWorld (h : Agree n s t) (w : World α) : Agree n (s.inWorld w) (t.inWorld w) :=
  ⟨h.temp, h.var, rfl⟩

/-- What is seen of both states is the same, when the temporary is not looked at. -/
theorem Agree.seen (h : Agree n s t) (hb : Blind X n) : s.seen X = t.seen X := by
  rw [State.seen, State.seen, h.var]
  exact hb _ _ _ h.temp

/-- Operands other than the temporary have the same value. -/
theorem Agree.eval (h : Agree n s t) {v : Val} (hv : v.temp? ≠ some n) :
    s.eval X v = t.eval X v := by
  cases v with
  | const c => rfl
  | temp k => exact congrArg some (h.temp k fun heq => hv (congrArg some heq))
  | var id => simp only [State.eval, h.var, h.world]

/-- Nobody reads the temporary, so values are the same. -/
theorem Agree.mapM (h : Agree n s t) {vs : List Val} (hvs : n ∉ vs.filterMap Val.temp?) :
    vs.mapM (s.eval X) = vs.mapM (t.eval X) := by
  induction vs with
  | nil => rfl
  | cons v vs ih =>
    have hv : v.temp? ≠ some n := fun heq => hvs (List.mem_filterMap.2 ⟨v, List.mem_cons_self, heq⟩)
    have hvs' : n ∉ vs.filterMap Val.temp? := fun hmem => by
      obtain ⟨u, hu, heq⟩ := List.mem_filterMap.1 hmem
      exact hvs (List.mem_filterMap.2 ⟨u, List.mem_cons_of_mem _ hu, heq⟩)
    rw [List.mapM_cons, List.mapM_cons, h.eval hv, ih hvs']

/-- Both states fail in the same way. -/
theorem SameEffect.fault (h : Agree n s t) : SameEffect n s.fault t.fault := by
  rw [State.fault, State.fault, h.world]
  exact .ended _ _

/-- The same assignment succeeds in both states or in neither. -/
theorem Agree.assign (h : Agree n s t) (w : Word) (d : Val) :
    (s.assign X w d = none ∧ t.assign X w d = none) ∨
      ∃ s' t', s.assign X w d = some s' ∧ t.assign X w d = some t' ∧ Agree n s' t' := by
  -- Writing a variable touches none of the temporaries.
  have hvar : ∀ id, Agree n { s with var := Function.update s.var id w }
      { t with var := Function.update t.var id w } := by
    intro id
    exact ⟨h.temp, by rw [h.var], h.world⟩
  cases d with
  | const c => exact Or.inl ⟨rfl, rfl⟩
  | temp k =>
    refine Or.inr ⟨_, _, rfl, rfl, fun j hj => ?_, h.var, h.world⟩
    -- The temporary that is written may be any but the fused one.
    by_cases hjk : j = k
    · rw [hjk, State.temp_setTemp_self, State.temp_setTemp_self]
    · rw [State.temp_setTemp_of_ne hjk, State.temp_setTemp_of_ne hjk, h.temp j hj]
  | var id =>
    cases hp : X.place? id with
    | none => simp [State.assign, hp]
    | some p =>
      cases p with
      | array => simp [State.assign, hp]
      | held => exact Or.inr ⟨_, _, by simp [State.assign, hp], by simp [State.assign, hp], hvar id⟩
      | memory =>
        simp only [State.assign, hp, h.world]
        cases t.world.store X.toHost (X.addr id) w with
        | none => exact Or.inl ⟨rfl, rfl⟩
        | some world => exact Or.inr ⟨_, _, rfl, rfl, h.temp, h.var, rfl⟩

/-- The same value goes to the same place in both states, or to none. -/
theorem SameEffect.deliver (h : Agree n s t) (w : Word) (d : Val) :
    SameEffect n (deliver X d (.value w s)) (deliver X d (.value w t)) := by
  unfold Run.deliver
  rcases h.assign (X := X) w d with ⟨hs, ht⟩ | ⟨s', t', hs, ht, hagree⟩
  · simp only [hs, ht]
    exact SameEffect.fault h
  · simp only [hs, ht]
    exact .next hagree

/-- Computed values on states that differ in temporary `n` at most. -/
inductive SameValue (n : Int) : Computed α → Computed α → Prop where
  | value {s t : State α} (w : Word) (h : Agree n s t) : SameValue n (.value w s) (.value w t)
  | ended (trace : List (Event α)) (o : Run.Outcome α) : SameValue n (.ended trace o) (.ended trace o)

/-- A value that is there in both states, or in neither. -/
theorem SameValue.of (h : Agree n s t) (x : Option Word) : SameValue n (.of s x) (.of t x) := by
  cases x with
  | some w => exact .value w h
  | none =>
    rw [Computed.of, Computed.of, h.world]
    exact .ended _ _

/-- A call that is not given the temporary is the same call in both states. -/
theorem SameValue.callOut (h : Agree n s t) (hb : Blind X n) (g : String) {args : List Val}
    (hargs : n ∉ args.filterMap Val.temp?) :
    SameValue n (callOut X s g args) (callOut X t g args) := by
  unfold Run.callOut
  rw [h.mapM hargs, h.seen hb, h.world]
  cases args.mapM (t.eval X) with
  | none => exact .ended _ _
  | some xs =>
    simp only
    cases (t.world.enter g xs (t.seen X)).back X.toHost with
    | none => exact .ended _ _
    | some r => exact .value _ (h.inWorld _)

/-- A statement that does not read the temporary computes the same value in both states. -/
theorem SameValue.compute (h : Agree n s t) (hb : Blind X n) {st : Stmt} (hst : n ∉ tempsRead st) :
    SameValue n (compute X s st) (compute X t st) := by
  -- No source is the fused temporary, so each has the same value on both sides.
  have heval : ∀ v ∈ st.sources, s.eval X v = t.eval X v := fun v hv =>
    h.eval fun heq => hst (List.mem_filterMap.2 ⟨v, hv, heq⟩)
  cases st with
  | binary d l op r =>
    simp only [Run.compute, heval l (by simp [Stmt.sources]), heval r (by simp [Stmt.sources])]
    exact .of h _
  | unary d op v =>
    simp only [Run.compute, heval v (by simp [Stmt.sources])]
    exact .of h _
  | move d v =>
    simp only [Run.compute, heval v (by simp [Stmt.sources])]
    exact .of h _
  | load d b off =>
    simp only [Run.compute, heval b (by simp [Stmt.sources]), h.world]
    exact .of h _
  | call r g args => exact SameValue.callOut h hb g hst
  | store | branch | jump | label | ret | zeroFill => exact .of h none

/-- Values that are the same have the same effect when they are delivered. -/
theorem SameEffect.of_value {c c' : Computed α} (h : SameValue n c c') (d : Val) :
    SameEffect n (Run.deliver X d c) (Run.deliver X d c') := by
  cases h with
  | value w h => exact SameEffect.deliver h w d
  | ended trace o => exact .ended trace o

/-- A statement that does not read the temporary does the same in both states. -/
theorem SameEffect.exec (h : Agree n s t) (hb : Blind X n) {st : Stmt} (hst : n ∉ tempsRead st) :
    SameEffect n (exec X s st) (exec X t st) := by
  have heval : ∀ v ∈ st.sources, s.eval X v = t.eval X v := fun v hv =>
    h.eval fun heq => hst (List.mem_filterMap.2 ⟨v, hv, heq⟩)
  -- On the statement; only what is read of the state matters, and the temporary is not read.
  cases st with
  | binary d | unary d | move d | load d => exact .of_value (SameValue.compute h hb hst) d
  | call r g args =>
    cases r with
    | some d => exact .of_value (SameValue.compute h hb hst) d
    | none =>
      have hsame : SameValue n (callOut X s g args) (callOut X t g args) :=
        SameValue.callOut h hb g hst
      simp only [Run.exec]
      cases hs : callOut X s g args <;> cases ht : callOut X t g args <;> rw [hs, ht] at hsame <;>
        cases hsame
      · exact .next ‹_›
      · exact .ended _ _
  | store b off v =>
    simp only [Run.exec, heval b (by simp [Stmt.sources]), heval v (by simp [Stmt.sources]),
      h.world]
    split
    · split
      · exact .next (h.inWorld _)
      · exact SameEffect.fault h
    · exact SameEffect.fault h
  | branch l rel r t =>
    simp only [Run.exec, heval l (by simp [Stmt.sources]), heval r (by simp [Stmt.sources])]
    split
    · split
      · exact .goto _ h
      · exact .next h
    · exact SameEffect.fault h
  | jump t => exact .goto t h
  | label l => exact .next h
  | ret v =>
    cases v with
    | none =>
      simp only [Run.exec, h.seen hb, h.world]
      exact .ended _ _
    | some v =>
      simp only [Run.exec, heval v (by simp [Stmt.sources]), h.seen hb, h.world]
      split
      · exact .ended _ _
      · exact SameEffect.fault h
  | zeroFill a =>
    cases a with
    | const c => exact SameEffect.fault h
    | temp k => exact SameEffect.fault h
    | var id =>
      simp only [Run.exec, h.world]
      split
      · split
        · split
          · exact .next (h.inWorld _)
          · exact SameEffect.fault h
        · exact SameEffect.fault h
      · exact SameEffect.fault h

end Agreement

/-! ## Two statements in one -/

/-- Statements `last` and `s` do through temporary `n` what `fused` does alone. -/
inductive Fuses (n : Int) : Stmt → Stmt → Stmt → Prop where
  | move {last fused : Stmt} {d : Val} (hc : isComputation last = true)
      (hdst : last.dst? = some (.temp n)) (hfused : last.withDst? d = some fused) :
      Fuses n last (.move d (.temp n)) fused
  | jump (a b : Val) (c : Rel) (l : Int) :
      Fuses n (.binary (.temp n) a (.cmp c) b) (.branch (.temp n) .ne (.const 0) l)
        (.branch a c b l)
  | jumpNot (a b : Val) (c : Rel) (l : Int) :
      Fuses n (.binary (.temp n) a (.cmp c) b) (.branch (.temp n) .eq (.const 0) l)
        (.branch a c.invert b l)

/-- What the pass fuses are statements that can be fused, through a temporary that is
counted once. -/
theorem fuses_of_fuse {uses : UseCounts} {last s fused : Stmt}
    (h : fuse? uses last s = some fused) : ∃ n, uses.getD n 0 = 1 ∧ Fuses n last s fused := by
  -- An operand is counted only if it is a temporary.
  have hread : ∀ {v : Val}, readOnce uses v = true → ∃ n, v = .temp n ∧ uses.getD n 0 = 1 := by
    intro v hv
    cases v with
    | temp n => exact ⟨n, rfl, by simpa [readOnce] using hv⟩
    | const c => cases hv
    | var id => cases hv
  unfold fuse? at h
  rcases Option.or_eq_some_iff.1 h with h | ⟨_, h⟩
  · unfold fuseMove? at h
    split at h
    · next d v =>
      split at h
      · next hcond =>
        simp only [Bool.and_eq_true, beq_iff_eq] at hcond
        obtain ⟨n, rfl, hn⟩ := hread hcond.1.1
        exact ⟨n, hn, .move hcond.1.2 hcond.2 h⟩
      · cases h
    · cases h
  · unfold fuseBranch? at h
    split at h
    · next l rel r target =>
      split at h
      · next hcond =>
        simp only [Bool.and_eq_true, beq_iff_eq] at hcond
        obtain ⟨n, rfl, hn⟩ := hread hcond.1
        obtain rfl := hcond.2
        split at h
        · split at h
          · next heq =>
            cases h
            subst heq
            exact ⟨n, hn, .jump _ _ _ _⟩
          · cases h
        · split at h
          · next heq =>
            cases h
            subst heq
            exact ⟨n, hn, .jumpNot _ _ _ _⟩
          · cases h
        · cases h
      · cases h
    · cases h

section Fused

variable {α : Type} {X : Setting α} {n : Int} {last s fused : Stmt}

/-- A computation is its value, delivered to its destination. -/
theorem exec_of_computation {st : Stmt} {d : Val} (hc : isComputation st = true)
    (hd : st.dst? = some d) (u : State α) : exec X u st = deliver X d (compute X u st) := by
  cases st with
  | binary | unary | move => cases hd; rfl
  | call r g args => cases hd; rfl
  | load | store | branch | jump | label | ret | zeroFill => cases hc

/-- With another destination a computation delivers the same value there. -/
theorem exec_withDst {st st' : Stmt} {d : Val} (hc : isComputation st = true)
    (h : st.withDst? d = some st') (u : State α) : exec X u st' = deliver X d (compute X u st) := by
  cases st with
  | binary | unary | move => cases h; rfl
  | call r g args =>
    cases r with
    | none => cases hc
    | some r => cases h; rfl
  | load | store | branch | jump | label | ret | zeroFill => cases hc

/-- The result of a comparison is not zero exactly when the relation holds. -/
theorem holds_ofBool (b : Bool) : Rel.ne.holds (Word.ofBool b) (word 0) = b ∧
    Rel.eq.holds (Word.ofBool b) (word 0) = !b := by
  cases b <;> decide

/-- The comparison and the jump on its result, one after the other. -/
theorem exec_compared {u v : State α} {a b : Val} {c rel : Rel} {l : Int} (hagree : Agree n u v)
    (hread : n ∉ tempsRead (.binary (.temp n) a (.cmp c) b)) (g : Rel)
    (hg : ∀ x y, rel.holds (Word.ofBool (c.holds x y)) (word 0) = g.holds x y) :
    (∃ trace o, exec X u (.binary (.temp n) a (.cmp c) b) = .ended trace o ∧
      exec X v (.branch a g b l) = .ended trace o) ∨
    ∃ u', exec X u (.binary (.temp n) a (.cmp c) b) = .next u' ∧
      SameEffect n (exec X u' (.branch (.temp n) rel (.const 0) l)) (exec X v (.branch a g b l)) ∧
      u'.world.trace <+: (exec X v (.branch a g b l)).trace := by
  have ha : u.eval X a = v.eval X a :=
    hagree.eval fun h => hread (by simp [tempsRead, Stmt.sources, h])
  have hb : u.eval X b = v.eval X b :=
    hagree.eval fun h => hread (by simp [tempsRead, Stmt.sources, h])
  -- If an operand has no value, the comparison fails alone and the fused branch fails too.
  have hfault : v.eval X a = none ∨ v.eval X b = none →
      exec X u (.binary (.temp n) a (.cmp c) b) = .ended v.world.trace .fault ∧
        exec X v (.branch a g b l) = .ended v.world.trace .fault := by
    intro hnone
    rw [exec_branch_fault hnone, exec_binary_fault (by rwa [ha, hb]), State.fault, hagree.world]
    exact ⟨rfl, rfl⟩
  cases hx : v.eval X a with
  | none => exact Or.inl ⟨_, _, hfault (Or.inl hx)⟩
  | some x =>
    cases hy : v.eval X b with
    | none => exact Or.inl ⟨_, _, hfault (Or.inr hy)⟩
    | some y =>
      right
      have hagree' := hagree.setTemp (Word.ofBool (c.holds x y))
      refine ⟨_, exec_binary (ha.trans hx) (hb.trans hy) rfl, ?_, ?_⟩
      · rw [exec_branch (State.eval_temp n) (State.eval_const 0), exec_branch hx hy]
        simp only [State.temp_setTemp_self, hg]
        split
        · exact .goto l hagree'
        · exact .next hagree'
      · rw [exec_branch hx hy]
        split
        · exact hagree'.world ▸ List.prefix_refl _
        · exact hagree'.world ▸ List.prefix_refl _

/-- Executing two statements that fuse, and the fused one. -/
theorem Fuses.exec (h : Fuses n last s fused) {u v : State α} (hagree : Agree n u v)
    (hblind : Blind X n) (hread : n ∉ tempsRead last) :
    (∃ trace o, exec X u last = .ended trace o ∧ exec X v fused = .ended trace o) ∨
      ∃ u', exec X u last = .next u' ∧ SameEffect n (exec X u' s) (exec X v fused) ∧
        u'.world.trace <+: (exec X v fused).trace := by
  cases h with
  | @move _ _ d hc hdst hfused =>
    rw [exec_of_computation hc hdst, exec_withDst hc hfused]
    -- The value is computed once in each state; the first function takes it through the
    -- temporary.
    have hsame := SameValue.compute (X := X) hagree hblind hread
    cases hu : compute X u last <;> cases hv : compute X v last <;> rw [hu, hv] at hsame <;>
      cases hsame
    · next w u' v' hagree' =>
      right
      refine ⟨u'.setTemp n w, rfl, ?_, ?_⟩
      · rw [exec_move (State.eval_temp n), State.temp_setTemp_self]
        exact SameEffect.deliver (hagree'.setTemp w) w d
      · show u'.world.trace <+: _
        rw [hagree'.world]
        exact trace_deliver d (.value w v')
    · exact Or.inl ⟨_, _, rfl, rfl⟩
  | jump a b c l =>
    exact exec_compared hagree hread c fun x y => (holds_ofBool _).1
  | jumpNot a b c l =>
    refine exec_compared hagree hread c.invert fun x y => ?_
    rw [(holds_ofBool _).2, Rel.holds_invert]

end Fused

/-! ## One fusion in a function -/

/-- The temporaries that statements read, each as often as it is read. -/
def reads (stmts : List Stmt) : List Int := stmts.flatMap tempsRead

/-- The statements `k` and `k + 1` of `A` are statement `k` of `B`, and nobody else reads the
temporary between them. -/
inductive Fusion (n : Int) (k : Nat) : List Stmt → List Stmt → Prop where
  | intro {before after : List Stmt} {last s fused : Stmt} (hk : before.length = k)
      (hfuses : Fuses n last s fused)
      (hread : n ∉ reads (before ++ last :: after)) :
      Fusion n k (before ++ last :: s :: after) (before ++ fused :: after)

/-- Where a statement is after the fusion of `k` and `k + 1`. -/
def shift (k i : Nat) : Nat := if i ≤ k then i else i - 1

/-- Where a statement was before the fusion of `k` and `k + 1`. -/
def unshift (k j : Nat) : Nat := if j ≤ k then j else j + 1

/-- Every statement behind the fusion was somewhere. -/
theorem shift_unshift (k j : Nat) : shift k (unshift k j) = j := by
  unfold shift unshift
  split_ifs <;> omega

/-- All statements but the second of the two are where they were said to be. -/
theorem unshift_shift {k i : Nat} (h : i ≠ k + 1) : unshift k (shift k i) = i := by
  unfold shift unshift
  split_ifs <;> omega

/-- Places keep their order. -/
theorem unshift_lt {k i j : Nat} (h : i < j) : unshift k i < unshift k j := by
  unfold unshift
  split_ifs <;> omega

/-- Behind any statement but the first of the two, the next one is next again. -/
theorem shift_succ {k i : Nat} (h : i ≠ k) : shift k (i + 1) = shift k i + 1 := by
  unfold shift
  split_ifs <;> omega

/-- Statements that fuse are no labels, and neither is the fused one. -/
theorem Fuses.not_label {n : Int} {last s fused : Stmt} (h : Fuses n last s fused) (l : Int) :
    last ≠ .label l ∧ s ≠ .label l ∧ fused ≠ .label l := by
  cases h with
  | move hc hdst hfused =>
    refine ⟨?_, Stmt.noConfusion, ?_⟩
    · rintro rfl
      cases hc
    · rintro rfl
      -- Only statements with a destination take part in a fusion of this kind.
      cases last with
      | call r g args => cases r <;> cases hfused
      | _ => cases hfused
  | jump a b c l => exact ⟨Stmt.noConfusion, Stmt.noConfusion, Stmt.noConfusion⟩
  | jumpNot a b c l => exact ⟨Stmt.noConfusion, Stmt.noConfusion, Stmt.noConfusion⟩

section OneFusion

variable {α : Type} {X : Setting α} {n : Int} {k : Nat} {A B : List Stmt}

/-- The two statements and the fused one, by their places. -/
theorem Fusion.getElem?_fused (h : Fusion n k A B) : ∃ last s fused, Fuses n last s fused ∧
    n ∉ tempsRead last ∧ A[k]? = some last ∧ A[k + 1]? = some s ∧ B[k]? = some fused := by
  obtain @⟨before, after, last, s, fused, rfl, hfuses, hread⟩ := h
  refine ⟨last, s, fused, hfuses, fun hmem => hread ?_, ?_, ?_, ?_⟩
  · exact List.mem_flatMap.2 ⟨last, List.mem_append_right _ List.mem_cons_self, hmem⟩
  · rw [List.getElem?_append_right (Nat.le_refl _), Nat.sub_self]
    rfl
  · rw [List.getElem?_append_right (Nat.le_add_right _ 1), Nat.add_sub_cancel_left]
    rfl
  · rw [List.getElem?_append_right (Nat.le_refl _), Nat.sub_self]
    rfl

/-- All other statements stay, and none of them reads the temporary. -/
theorem Fusion.getElem?_unshift (h : Fusion n k A B) {j : Nat} (hj : j ≠ k) :
    A[unshift k j]? = B[j]? ∧ ∀ st, B[j]? = some st → n ∉ tempsRead st := by
  obtain @⟨before, after, last, s, fused, rfl, hfuses, hread⟩ := h
  have hnot : ∀ st, st ∈ before ∨ st ∈ after → n ∉ tempsRead st := by
    intro st hst hmem
    refine hread (List.mem_flatMap.2 ⟨st, ?_, hmem⟩)
    exact List.mem_append.2 (hst.imp_right (List.mem_cons_of_mem _))
  -- In front of the fusion places are the same, behind it they differ by one.
  rcases Nat.lt_or_gt_of_ne hj with hlt | hgt
  · have hsame : unshift before.length j = j := if_pos (Nat.le_of_lt hlt)
    rw [hsame, List.getElem?_append_left hlt, List.getElem?_append_left hlt]
    exact ⟨rfl, fun st hst => hnot st (Or.inl (List.mem_of_getElem? hst))⟩
  · obtain ⟨d, rfl⟩ : ∃ d, j = before.length + 1 + d := ⟨j - (before.length + 1), by omega⟩
    have hnext : unshift before.length (before.length + 1 + d) = before.length + (d + 2) := by
      unfold unshift
      split <;> omega
    have hB : (before ++ fused :: after)[before.length + 1 + d]? = after[d]? := by
      rw [Nat.add_assoc, List.getElem?_append_right (Nat.le_add_right _ _),
        Nat.add_sub_cancel_left, Nat.add_comm 1 d]
      rfl
    rw [hnext, hB, List.getElem?_append_right (Nat.le_add_right _ _), Nat.add_sub_cancel_left]
    exact ⟨rfl, fun st hst => hnot st (Or.inr (List.mem_of_getElem? hst))⟩

/-- A label is behind the fusion exactly where it was before. -/
theorem Fusion.label_iff (h : Fusion n k A B) (j : Nat) (l : Int) :
    A[unshift k j]? = some (.label l) ↔ B[j]? = some (.label l) := by
  by_cases hj : j = k
  · subst hj
    obtain ⟨last, s, fused, hfuses, -, hlast, -, hfused⟩ := h.getElem?_fused
    rw [show unshift j j = j from if_pos (Nat.le_refl j), hlast, hfused]
    simp [(hfuses.not_label l).1, (hfuses.not_label l).2.2]
  · rw [(h.getElem?_unshift hj).1]

/-- The statement that vanishes is no label. -/
theorem Fusion.ne_of_label (h : Fusion n k A B) {i : Nat} {l : Int} (hi : A[i]? = some (.label l)) :
    i ≠ k + 1 := by
  rintro rfl
  obtain ⟨last, s, fused, hfuses, -, -, hs, -⟩ := h.getElem?_fused
  rw [hs] at hi
  exact (hfuses.not_label l).2.1 (Option.some.inj hi)

/-- Labels are at the statements they were at. -/
theorem Fusion.getElem?_labelTable (h : Fusion n k A B) (l : Int) :
    (Flow.labelTable B)[l]? = (Flow.labelTable A)[l]?.map (shift k) := by
  apply Option.ext
  intro j
  rw [Option.map_eq_some_iff, Flow.getElem?_labelTable]
  -- A label that is defined twice counts where it is defined last, so order has to be kept
  -- too.
  constructor
  · rintro ⟨hj, hlast⟩
    refine ⟨unshift k j, (Flow.getElem?_labelTable A l _).2 ⟨(h.label_iff j l).2 hj, ?_⟩,
      shift_unshift k j⟩
    intro i hi hlabel
    have hback : unshift k (shift k i) = i := unshift_shift (h.ne_of_label hlabel)
    have hlt : j < shift k i := by
      by_contra hge
      rcases Nat.lt_or_eq_of_le (Nat.le_of_not_lt hge) with hlt | heq
      · have hlt' : unshift k (shift k i) < unshift k j := unshift_lt hlt
        omega
      · rw [← heq, hback] at hi
        exact Nat.lt_irrefl _ hi
    exact hlast _ hlt ((h.label_iff _ l).1 (by rwa [hback]))
  · rintro ⟨i, hi, rfl⟩
    obtain ⟨hi, hlast⟩ := (Flow.getElem?_labelTable A l i).1 hi
    have hback : unshift k (shift k i) = i := unshift_shift (h.ne_of_label hi)
    refine ⟨(h.label_iff _ l).1 (by rwa [hback]), fun j hj hlabel => ?_⟩
    exact hlast _ (hback ▸ unshift_lt hj) ((h.label_iff j l).2 hlabel)

/-- Where runs of the two functions correspond: nobody is between the two statements that fuse. -/
def Corresponds (n : Int) (k : Nat) (i : Nat) (s : State α) (j : Nat) (t : State α) : Prop :=
  i ≠ k + 1 ∧ j = shift k i ∧ Agree n s t

/-- Effects that agree lead to corresponding places or end both runs. -/
theorem Fusion.follow (h : Fusion n k A B) {e e' : Effect α} (he : SameEffect n e e') {i j : Nat}
    (hi : i ≠ k) (hj : shift k (i + 1) = j + 1) :
    (∃ tr o, Run.follow A i e = .ended tr o ∧ Run.follow B j e' = .ended tr o ∧ e'.trace = tr) ∨
      ∃ i' s' j' t', Run.follow A i e = .running i' s' ∧ Run.follow B j e' = .running j' t' ∧
        Corresponds n k i' s' j' t' ∧ e'.trace = t'.world.trace := by
  cases he with
  | next hagree =>
    exact Or.inr ⟨_, _, _, _, rfl, rfl, ⟨by omega, hj.symm, hagree⟩, rfl⟩
  | goto l hagree =>
    simp only [Run.follow, h.getElem?_labelTable l, hagree.world]
    cases hl : (Flow.labelTable A)[l]? with
    | none => exact Or.inl ⟨_, _, rfl, rfl, rfl⟩
    | some i' =>
      -- A jump lands at a label, and the statement that was fused is none.
      have hlabel := ((Flow.getElem?_labelTable A l i').1 hl).1
      exact Or.inr ⟨_, _, _, _, rfl, rfl, ⟨h.ne_of_label hlabel, rfl, hagree⟩, rfl⟩
  | ended trace o => exact Or.inl ⟨_, _, rfl, rfl, rfl⟩

/-- A step at a statement follows the effect of the statement. -/
theorem step_of_getElem? {st : Stmt} {i : Nat} (h : A[i]? = some st) (s : State α) :
    step X A i s = Run.follow A i (exec X s st) := by
  simp only [step, h]

/-- One step does the work of the two statements. -/
theorem Fusion.matched_fused (h : Fusion n k A B) (hblind : Blind X n) {s t : State α}
    (hagree : Agree n s t) : Matched X A B (Corresponds n k) k s k t := by
  obtain ⟨last, st, fused, hfuses, hread, hlast, hst, hfused⟩ := h.getElem?_fused
  have hB : step X B k t = Run.follow B k (exec X t fused) := step_of_getElem? hfused t
  have hA : step X A k s = Run.follow A k (exec X s last) := step_of_getElem? hlast s
  -- The first statement may end the run; then the fused one ends it in the same way.
  rcases hfuses.exec hagree hblind hread with ⟨tr, o, hl, hf⟩ | ⟨u, hl, hsame, hseen⟩
  · rw [hl] at hA
    rw [hf] at hB
    exact .last hA hB
  · rw [hl] at hA
    have hA' : step X A (k + 1) u = Run.follow A (k + 1) (exec X u st) := step_of_getElem? hst u
    have hshift : shift k (k + 1 + 1) = k + 1 := by
      unfold shift
      split <;> omega
    rcases h.follow hsame (Nat.succ_ne_self k) hshift with
      ⟨tr, o, h₁, h₂, htrace⟩ | ⟨i', s', j', t', h₁, h₂, hcorr, htrace⟩
    · exact .lastTwo hA (hA'.trans h₁) (hB.trans h₂) (htrace ▸ hseen)
    · exact .two hA (hA'.trans h₁) (hB.trans h₂) (htrace ▸ hseen) hcorr

/-- Away from the two statements, steps are the same. -/
theorem Fusion.matched_other (h : Fusion n k A B) (hblind : Blind X n) {i : Nat} {s t : State α}
    (hi : i ≠ k) (hi' : i ≠ k + 1) (hagree : Agree n s t) :
    Matched X A B (Corresponds n k) i s (shift k i) t := by
  have hne : shift k i ≠ k := by
    unfold shift
    split <;> omega
  -- Elsewhere both lists have the same statement, which does not read the fused temporary.
  obtain ⟨hstmt, hread⟩ := h.getElem?_unshift hne
  rw [unshift_shift hi'] at hstmt
  cases hst : B[shift k i]? with
  | none =>
    rw [hst] at hstmt
    have hA : step X A i s = .ended t.world.trace .fault := by
      simp only [step, hstmt, hagree.world]
    have hB : step X B (shift k i) t = .ended t.world.trace .fault := by
      simp only [step, hst]
    exact .last hA hB
  | some st =>
    rw [hst] at hstmt
    have hsame := SameEffect.exec hagree hblind (hread st hst)
    rcases h.follow hsame hi (shift_succ hi) with
      ⟨tr, o, h₁, h₂, -⟩ | ⟨i', s', j', t', h₁, h₂, hcorr, -⟩
    · exact .last ((step_of_getElem? hstmt s).trans h₁) ((step_of_getElem? hst t).trans h₂)
    · exact .one ((step_of_getElem? hstmt s).trans h₁) ((step_of_getElem? hst t).trans h₂) hcorr

/-- A fusion is a simulation, for settings in which the temporary is not looked at. -/
theorem Fusion.simulates (h : Fusion n k A B) (hblind : Blind X n) :
    Simulates X A B (Corresponds n k) where
  trace_eq := fun ⟨_, _, hagree⟩ => congrArg World.trace hagree.world
  matched := by
    rintro i s j t ⟨hi, rfl, hagree⟩
    by_cases hk : i = k
    · subst hk
      rw [show shift i i = i from if_pos (Nat.le_refl i)]
      exact h.matched_fused hblind hagree
    · exact h.matched_other hblind hk hi hagree

end OneFusion

/-! ## A sweep is a chain of fusions -/

theorem reads_append (xs ys : List Stmt) : reads (xs ++ ys) = reads xs ++ reads ys :=
  List.flatMap_append

theorem reads_cons (s : Stmt) (ss : List Stmt) : reads (s :: ss) = tempsRead s ++ reads ss := rfl

/-- The fused statement reads what the first one read; the second read the temporary. -/
theorem Fuses.tempsRead_eq {n : Int} {last s fused : Stmt} (h : Fuses n last s fused) :
    tempsRead fused = tempsRead last ∧ n ∈ tempsRead s := by
  cases h with
  | @move _ _ d hc hdst hfused =>
    refine ⟨?_, List.mem_singleton_self n⟩
    cases last with
    | binary | unary | move => cases hfused; rfl
    | call r g args =>
      cases r with
      | none => cases hc
      | some r => cases hfused; rfl
    | load | store | branch | jump | label | ret | zeroFill => cases hc
  | jump a b c l => exact ⟨rfl, List.mem_singleton_self n⟩
  | jumpNot a b c l => exact ⟨rfl, List.mem_singleton_self n⟩

/-- The pass counts how often a temporary is read. -/
theorem getD_countUses (stmts : List Stmt) (n : Int) :
    (countUses stmts).getD n 0 = (reads stmts).count n := by
  -- On the list of reads, for any counts so far.
  have hfold : ∀ (ts : List Int) (m : UseCounts),
      (ts.foldl (fun m t => m.insert t (m.getD t 0 + 1)) m).getD n 0 = m.getD n 0 + ts.count n := by
    intro ts
    induction ts with
    | nil => exact fun m => rfl
    | cons t ts ih =>
      intro m
      rw [List.foldl_cons, ih, Std.TreeMap.getD_insert, List.count_cons]
      by_cases h : t = n
      · subst h
        simp
        omega
      · simp [Std.LawfulEqCmp.compare_eq_iff_eq, h]
  rw [countUses, hfold]
  simp [reads]

/-- One fusion, wherever it is and whatever the temporary. -/
def FusesTo (A B : List Stmt) : Prop := ∃ n k, Fusion n k A B

/-- Counts are upper bounds of what is read. -/
def Bounds (uses : UseCounts) (stmts : List Stmt) : Prop :=
  ∀ n, (reads stmts).count n ≤ uses.getD n 0

/-- A fusion of the pass is one that keeps the behaviour, and the counts stay upper
bounds. -/
theorem fusion_of_fuse {uses : UseCounts} {before after : List Stmt} {last s fused : Stmt}
    (h : fuse? uses last s = some fused) (hbounds : Bounds uses (before ++ last :: s :: after)) :
    FusesTo (before ++ last :: s :: after) (before ++ fused :: after) ∧
      Bounds uses (before ++ fused :: after) := by
  obtain ⟨n, hn, hfuses⟩ := fuses_of_fuse h
  obtain ⟨hsame, hmem⟩ := hfuses.tempsRead_eq
  -- The second statement reads the temporary, so nobody else does: the count is one.
  have hcount : ∀ m, (reads (before ++ last :: after)).count m + (tempsRead s).count m ≤
      uses.getD m 0 := by
    intro m
    have := hbounds m
    simp only [reads_append, reads_cons, List.count_append] at this ⊢
    omega
  constructor
  · refine ⟨n, before.length, .intro rfl hfuses ?_⟩
    have hone : 0 < (tempsRead s).count n := List.count_pos_iff.2 hmem
    have hle := hcount n
    exact List.count_eq_zero.1 (by omega)
  · intro m
    rw [reads_append, reads_cons, hsame, ← reads_cons, ← reads_append]
    exact Nat.le_trans (Nat.le_add_right _ _) (hcount m)

/-- The counts that the sweep was given stay upper bounds while it goes on. -/
theorem fusions_sweepFrom {uses : UseCounts} (ss : List Stmt) (before : List Stmt) (last : Stmt)
    (hbounds : Bounds uses (before ++ last :: ss)) :
    Relation.ReflTransGen FusesTo (before ++ last :: ss)
      (before ++ (sweepFrom uses last ss).1) := by
  -- On the statements that are left; those before the last one are done with.
  induction ss generalizing before last with
  | nil => exact .refl
  | cons s ss ih =>
    unfold sweepFrom
    split
    · next fused hfuse =>
      obtain ⟨hfusion, hbounds'⟩ := fusion_of_fuse hfuse hbounds
      exact .head hfusion (ih before fused hbounds')
    · have hmove : ∀ xs : List Stmt, before ++ last :: xs = (before ++ [last]) ++ xs := fun xs => by
        simp
      rw [hmove] at hbounds
      show Relation.ReflTransGen FusesTo _ (before ++ last :: (sweepFrom uses s ss).1)
      rw [hmove (s :: ss), hmove (sweepFrom uses s ss).1]
      exact ih (before ++ [last]) s hbounds

/-- A sweep is a chain of fusions, with counts that are exact at its start. -/
theorem fusions_sweep (stmts : List Stmt) :
    Relation.ReflTransGen FusesTo stmts (sweep stmts).1 := by
  cases stmts with
  | nil => exact .refl
  | cons s ss =>
    exact fusions_sweepFrom ss [] s fun n => Nat.le_of_eq (getD_countUses (s :: ss) n).symm

/-- All sweeps together are a chain of fusions, with new counts for each of them. -/
theorem fusions_fuseAll (stmts : List Stmt) :
    Relation.ReflTransGen FusesTo stmts (fuseAll stmts).1 :=
  fuseAll_induction stmts .refl fun ss h => h.trans (fusions_sweep ss)

/-- What single fusions keep is kept by all of them together. -/
theorem fuseAll_keeps {P : List Stmt → Prop}
    (hP : ∀ {n : Int} {before after : List Stmt} {last s fused : Stmt}, Fuses n last s fused →
      P (before ++ last :: s :: after) → P (before ++ fused :: after))
    {stmts : List Stmt} (h : P stmts) : P (fuseAll stmts).1 := by
  have hfusions := fusions_fuseAll stmts
  generalize (fuseAll stmts).1 = kept at hfusions ⊢
  induction hfusions with
  | refl => exact h
  | tail _ hlast ih =>
    obtain ⟨n, k, ⟨-, hfuses, -⟩⟩ := hlast
    exact hP hfuses ih

/-- A sweep that fuses nothing leaves the statements as they are. -/
theorem sweepFrom_eq_self {uses : UseCounts} {ss : List Stmt} {last : Stmt}
    (h : (sweepFrom uses last ss).2 = 0) : (sweepFrom uses last ss).1 = last :: ss := by
  induction ss generalizing last with
  | nil => rfl
  | cons s ss ih =>
    unfold sweepFrom at h ⊢
    split at h
    · cases h
    · exact congrArg (last :: ·) (ih h)

/-- The same for a whole sweep. -/
theorem sweep_eq_self {stmts : List Stmt} (h : (sweep stmts).2 = 0) : (sweep stmts).1 = stmts := by
  cases stmts with
  | nil => rfl
  | cons s ss => exact sweepFrom_eq_self h

/-- What is left cannot be fused further. -/
theorem sweep_fuseAll (stmts : List Stmt) : (sweep (fuseAll stmts).1).2 = 0 := by
  fun_induction fuseAll stmts with
  | case1 ss h => rwa [sweep_eq_self h]
  | case2 ss h kept m hr ih => rwa [hr] at ih

/-! ## The whole function -/

/-- What is looked at: the variables, and the temporaries that some of the statements read. -/
def lookAt (stmts : List Stmt) (temp : Int → Word) (var : VarId → Word) :
    (VarId → Word) × (Int → Option Word) :=
  (var, fun n => if n ∈ reads stmts then some (temp n) else none)

/-- Behind a fusion nobody reads its temporary. -/
theorem Fusion.not_mem_reads {n : Int} {k : Nat} {A B : List Stmt} (h : Fusion n k A B) :
    n ∉ reads B := by
  obtain @⟨before, after, last, s, fused, rfl, hfuses, hread⟩ := h
  rwa [reads_append, reads_cons, hfuses.tempsRead_eq.1, ← reads_cons, ← reads_append]

/-- Fusions only remove reads. -/
theorem reads_subset {A B : List Stmt} (h : Relation.ReflTransGen FusesTo A B) :
    reads B ⊆ reads A := by
  induction h with
  | refl => exact List.Subset.refl _
  | tail _ hlast ih =>
    obtain ⟨n, k, hfusion⟩ := hlast
    obtain @⟨before, after, last, s, fused, rfl, hfuses, -⟩ := hfusion
    refine List.Subset.trans (fun m hm => ?_) ih
    rw [reads_append, reads_cons, hfuses.tempsRead_eq.1] at hm
    simp only [reads_append, reads_cons, List.mem_append] at hm ⊢
    tauto

/-- A temporary that no statement reads is not looked at. -/
theorem blind_lookAt {X : Setting ((VarId → Word) × (Int → Option Word))} {B : List Stmt}
    (hlook : X.look = lookAt B) {n : Int} (hn : n ∉ reads B) : Blind X n := by
  intro f g v hfg
  rw [hlook, lookAt, lookAt]
  refine congrArg (Prod.mk v) (funext fun m => ?_)
  split
  · next hm => rw [hfg m fun heq => hn (heq ▸ hm)]
  · rfl

/-- Only a temporary that nobody reads in the end is lost on the way. -/
theorem sameBehaviour_of_fusions {α : Type} {X : Setting α} {A B : List Stmt}
    (h : Relation.ReflTransGen FusesTo A B) (hblind : ∀ n, n ∉ reads B → Blind X n) (s : State α) :
    SameBehaviour X A B s := by
  -- the last fusions first, so that what is lost is compared with the reads of the final statements
  induction h using Relation.ReflTransGen.head_induction_on with
  | refl => exact .refl B s
  | @head A C hfirst hrest ih =>
    obtain ⟨n, k, hfusion⟩ := hfirst
    have hunread : n ∉ reads B := fun hmem => hfusion.not_mem_reads (reads_subset hrest hmem)
    have hsim := hfusion.simulates (hblind n hunread)
    have hstart : Corresponds n k 0 s 0 s :=
      ⟨Nat.zero_ne_add_one k, (if_pos (Nat.zero_le k)).symm, fun _ _ => rfl, rfl, rfl⟩
    exact (hsim.sameBehaviour hstart).trans ih

/-- Fusing a function's statements keeps its behaviour, whatever its callees do: it ends in the same
way with the same result, memory and variables after the same stores and calls, goes on for ever
exactly when it did, and shows the same on the way.  Only temporaries that no statement left reads
are not looked at.  What is left cannot be fused further. -/
theorem optimize_preserves (f : Func) (H : Host ((VarId → Word) × (Int → Option Word)))
    (vars : VarTable) (addr : VarId → Word)
    (s : State ((VarId → Word) × (Int → Option Word))) :
    let g := (optimize f).1
    let X : Setting ((VarId → Word) × (Int → Option Word)) :=
      { H with vars, addr, look := lookAt g.stmts }
    (∀ trace o, Ends X g.stmts 0 s trace o ↔ Ends X f.stmts 0 s trace o) ∧
    (∀ trace, Shows X g.stmts 0 s trace ↔ Shows X f.stmts 0 s trace) ∧
    (Diverges X g.stmts 0 s ↔ Diverges X f.stmts 0 s) ∧ (sweep g.stmts).2 = 0 := by
  intro g X
  have hsame : SameBehaviour X f.stmts g.stmts s :=
    sameBehaviour_of_fusions (fusions_fuseAll f.stmts) (fun n hn => blind_lookAt rfl hn) s
  exact ⟨fun trace o => (hsame.ends trace o).symm, fun trace => (hsame.shows trace).symm,
    hsame.diverges.symm, sweep_fuseAll f.stmts⟩

end Tac.Peephole
