import Mathlib
import Tac.Compiler
import Tac.Proofs.Compiled
import Tac.Proofs.Frames
import Tac.Proofs.Peephole
import Tac.Proofs.Pruning
import Tac.Proofs.Realized
import Tac.Proofs.Units

/-!
# From trees to machines

The passes one after the other: a function is generated from its tree, its statements are fused, those
that control does not reach are pruned, the rest is placed in registers and in the frame, lowered and
run.  Fusing and pruning keep what a function shows of itself, placing finds a sound placement, and the
lowered code realizes runs; so the machine returns what the evaluation of the tree gives.

* **`Renumbers.simulates`** — pruning leaves the steps from the entry as they are.
* **`sameBehaviour_prepare`, `sameBehaviour_allocate`** — fusing and pruning.
* **`Allocated.sound`** — what allocation gives is a sound placement.
* **`finishes_of_evaluation`** — the whole way.
-/

namespace Tac

open Run

/-! ## Pruned runs -/

/-- Where an effect without a value to deliver goes, the statement says so. -/
theorem Run.target_of_exec {α : Type} {X : Setting α} {s t : State α} {st : Stmt} {l : Int}
    (h : exec X s st = .goto l t) : st.target? = some l ∧ t = s := by
  cases hd : st.dst? with
  | none =>
    have hquiet := quiet_exec (X := X) (s := s) hd
    rw [h] at hquiet
    cases hquiet with
    | goto hl => exact ⟨hl, rfl⟩
  | some d =>
    rw [exec_of_dst hd] at h
    -- a delivered value goes on to the next statement
    unfold deliver at h
    split at h
    · cases h
    · split at h <;> cases h

namespace Renumbers

/-- A run of the old function and one of the new are at the same statement, or both behind their last
one. -/
def Aligned {α : Type} (f f' : Func) (fl : Flow) (old : List Nat) (i : Nat) (s : State α) (k : Nat)
    (t : State α) : Prop :=
  s = t ∧ ((old[k]? = some i ∧ fl.Reaches i) ∨ (f.stmts[i]? = none ∧ f'.stmts[k]? = none))

variable {α : Type} {f f' : Func} {fl : Flow} {old : List Nat} (r : Renumbers f f' fl old)
  (d : Flow.Describes f fl) {i k : Nat}

include r

/-- Falling through keeps runs aligned. -/
theorem aligned_next (hk : old[k]? = some i) (hi : fl.Reaches i)
    (hnext : ∀ j ∈ Flow.following f.stmts.length i, j ∈ fl.nextOf i) (s : State α) :
    Aligned f f' fl old (i + 1) s (k + 1) s := by
  refine ⟨rfl, ?_⟩
  rcases r.following hk fun j hj => r.reached j (.step hi (hnext j hj)) with
    ⟨hk', hi'⟩ | ⟨-, hi', hold⟩
  -- Nothing follows the last statement, in either function.
  · have hend : ∀ {n m : Nat}, (Flow.following n m).head? = none → n ≤ m + 1 := by
      intro n m h
      unfold Flow.following at h
      split at h
      · cases h
      · omega
    exact Or.inr ⟨List.getElem?_eq_none (hend hi'), List.getElem?_eq_none (hend hk')⟩
  · exact Or.inl ⟨hold, .step hi (hnext _ ((Flow.mem_following_iff_head? _ _ _).2 hi'))⟩

include d

omit r in
/-- A statement that does not jump away falls through. -/
theorem falls_of_exec {X : Setting α} {s s' : State α} {st : Stmt} (hst : f.stmts[i]? = some st)
    (he : exec X s st = .next s') : ∀ j ∈ Flow.following f.stmts.length i, j ∈ fl.nextOf i := by
  intro j hj
  have hok := d.successors_eq i st hst
  -- Only a return and a jump never go on behind themselves.
  cases st with
  | jump l => cases he
  | ret v =>
    cases v with
    | none => cases he
    | some v =>
      simp only [exec] at he
      split at he <;> cases he
  | branch x rel y l =>
    obtain ⟨k, -, hn⟩ := d.label_of_branch hst
    rw [hn]
    exact List.mem_cons_of_mem _ hj
  | binary | unary | move | store | load | label | call | zeroFill =>
    rw [← Except.ok.inj hok]
    exact hj

/-- Each step of the one function is a step of the other. -/
theorem simulates (X : Setting α) : Simulates X f.stmts f'.stmts (Aligned f f' fl old) := by
  refine ⟨fun h => by rw [h.1], ?_⟩
  rintro i s k _ ⟨rfl, h⟩
  have hfault : ∀ {A : List Stmt} {n : Nat}, A[n]? = none →
      step X A n s = .ended s.world.trace .fault := fun h => by simp only [step, h]
  have hgo : ∀ {A : List Stmt} {n : Nat} {st : Stmt}, A[n]? = some st →
      step X A n s = follow A n (exec X s st) := fun h => by simp only [step, h]
  rcases h with ⟨hk, hi⟩ | ⟨hnone, hnone'⟩
  · have hsame := r.stmt_eq k i hk
    cases hst : f.stmts[i]? with
    | none => exact .last (hfault hst) (hfault (hsame.trans hst))
    | some st =>
      have hst' := hsame.trans hst
      have hA := hgo hst
      have hB := hgo hst'
      cases he : exec X s st with
      | next s' =>
        rw [he] at hA hB
        exact .one hA hB (r.aligned_next hk hi (falls_of_exec d hst he) s')
      | goto l t =>
        obtain ⟨htarget, rfl⟩ := target_of_exec he
        -- the label is found in both functions, at the same statement
        obtain ⟨j, hj, hn⟩ : ∃ j, (Flow.labelTable f.stmts)[l]? = some j ∧ j ∈ fl.nextOf i := by
          cases st with
          | jump t =>
            cases htarget
            obtain ⟨j, hj, hn⟩ := d.label_of_jump hst
            exact ⟨j, d.labels_eq ▸ hj, by simp [hn]⟩
          | branch x rel y t =>
            cases htarget
            obtain ⟨j, hj, hn⟩ := d.label_of_branch hst
            exact ⟨j, d.labels_eq ▸ hj, by simp [hn]⟩
          | binary | unary | move | store | load | label | call | zeroFill | ret => cases htarget
        obtain ⟨k', hk', hold⟩ := r.label hj (r.reached j (.step hi hn))
        simp only [he, follow, hj] at hA
        simp only [he, follow, hk'] at hB
        exact .one hA hB ⟨rfl, Or.inl ⟨hold, .step hi hn⟩⟩
      | ended trace o =>
        rw [he] at hA hB
        exact .last hA hB
  · exact .last (hfault hnone) (hfault hnone')

/-- From the entry on both functions behave the same. -/
theorem sameBehaviour (X : Setting α) (s : State α) : SameBehaviour X f.stmts f'.stmts s := by
  refine (r.simulates d X).sameBehaviour ⟨rfl, ?_⟩
  by_cases h : f.stmts = []
  · have hold : old = [] := List.eq_nil_iff_forall_not_mem.2 fun i hi => by
      have := r.lt i hi
      simp [h] at this
    have h' : f'.stmts = [] := List.length_eq_zero_iff.1 (by rw [← r.length_eq, hold, List.length_nil])
    exact Or.inr ⟨by rw [h]; rfl, by rw [h']; rfl⟩
  · exact Or.inl (r.entry d h)

end Renumbers

/-! ## Passes -/

section Passes

variable {α : Type} (X : Setting α) (s : State α)

/-- The rounds of analysis and pruning keep the behaviour of a function. -/
theorem sameBehaviour_allocate {vars : VarTable} {regs : List Reg} {f : Func} {q : Placement}
    (h : (f.allocate vars regs).outcome = .ok q) : SameBehaviour X f.stmts q.func.stmts s := by
  obtain ⟨rounds, a, c, hsettle, hlast, -, -, -, rfl⟩ := Func.allocate_parts h
  -- One round prunes; the placement belongs to the last round.
  have hround : ∀ a : Analysis, a.func.analyze vars = .ok a → SameBehaviour X f.stmts a.func.stmts s →
      SameBehaviour X f.stmts (a.prune vars).func.stmts s := by
    intro a ha hsame
    obtain ⟨-, d, -, hreach, -⟩ := Func.analyze_spec ha
    rw [Analysis.prune, hreach]
    exact hsame.trans ((d.renumbers vars).sameBehaviour d X s)
  obtain ⟨b, hlast', -, -, hsame⟩ := Func.settle_induction
    (P := fun g => SameBehaviour X f.stmts g.stmts s) hround (.refl _ s) hsettle
  obtain rfl : a = b := Option.some.inj (hlast.symm.trans hlast')
  exact hsame

/-- Where nobody looks at temporaries, optimisation keeps the behaviour of every function. -/
theorem sameBehaviour_prepare (hblind : ∀ n, Peephole.Blind X n) {p : Program} (o : Options) {i : Nat}
    {g : Func} (hg : p.funcs[i]? = some g) :
    ∃ g', (p.prepare o).funcs[i]? = some g' ∧ SameBehaviour X g.stmts g'.stmts s := by
  refine ⟨if o.peephole then (Peephole.optimize g).1 else g, ?_, ?_⟩
  · rw [Program.prepare_funcs, List.getElem?_map, hg]
    rfl
  · split
    · exact Peephole.sameBehaviour_of_fusions (Peephole.fusions_fuseAll g.stmts)
        (fun n _ => hblind n) s
    · exact .refl _ s

end Passes

/-- What allocation gives is a sound placement, where its words fit 64 bits and its registers are open
to allocation. -/
theorem Placement.Allocated.sound {vars : VarTable} {regs : List Reg} {f : Func} {q : Placement}
    {a : Analysis} {c : Coloring} (h : q.Allocated vars regs f a c) (hregs : ∀ r ∈ regs, r.Valid)
    (hopen : ∀ (u : VReg) (r : Reg), q.locs[u]? = some (.reg r) → r ∈ Reg.allocatable)
    (hpos : vars.Positive q.func.locals)
    (hfit : Coloring.arrayWords vars q.func.locals + q.spilled.length < 9223372036854775808) :
    q.Sound vars a.flow := by
  -- What the layout of the slots promises about values and arrays.
  have harranged := h.arranged hregs hpos hfit
  have hconnect := Flow.connect_of_analyze h.analyzed
  obtain ⟨-, -, -, -, -, hnum⟩ := Func.analyze_spec h.analyzed
  have hlive : a.live = Liveness.analyze vars q.func a.flow := congrArg Analysis.live
    (Except.ok.inj (h.analyzed.symm.trans (Func.analyze_of_connect hconnect hnum)))
  refine ⟨hconnect, by rw [h.live_eq, hlive], by rw [h.meet_eq, hlive], ?_, hopen,
    fun u s n hl => (harranged.value u s n hl).2, harranged.array, fun u id s n l hl ha => ?_⟩
  · rw [h.locs_eq, h.live_eq]
    exact h.verified
  · obtain ⟨rfl, -⟩ := harranged.value u s n hl
    have hapart := harranged.apart u id _ l hl ha
    exact Set.disjoint_left.1 hapart (by simp [Loc.words])

namespace Activation

variable {A : Activation} {regs : List Reg} {f : Func} {a : Analysis} {c : Coloring}

/-- The setting of an activation suits a placement that allocation gave, where the local arrays among
the operands are those of the function and different operands have different virtual registers. -/
theorem suits_of_allocated {α : Type} {reply : List (Event α) → Option (Word × (Word → Word))}
    {look : (Int → Word) → (VarId → Word) → α} (h : A.cx.placed.Allocated A.cx.vars regs f a c)
    (hregs : ∀ r ∈ regs, r.Valid) (hpos : A.cx.vars.Positive A.cx.placed.func.locals)
    (hfit : Coloring.arrayWords A.cx.vars A.cx.placed.func.locals + A.cx.placed.spilled.length <
      9223372036854775808) (hg : A.GlobalsPlaced)
    (hapart : ∀ v w u, Semantics.Mentions A.cx.placed.func.stmts v →
      Semantics.Mentions A.cx.placed.func.stmts w → A.cx.vars.vreg? v = some u →
        A.cx.vars.vreg? w = some u → v = w)
    (hlocals : ∀ id ∈ A.cx.placed.func.locals, ∃ x, A.cx.vars.get? id = some x ∧ x.cls = .loc)
    (hown : ∀ id x, Semantics.Mentions A.cx.placed.func.stmts (.var id) →
      A.cx.vars.get? id = some x → x.cls = .loc → x.isArray = true → id ∈ A.cx.placed.func.locals) :
    A.layout.Suits (A.setting reply look) A.cx.placed.func.stmts := by
  have hspans := (h.arranged hregs hpos hfit).spans
  obtain ⟨-, -, -, -, -, hnum⟩ := Func.analyze_spec h.analyzed
  have harrays : A.cx.placed.arrays =
      (Coloring.layoutArrays A.cx.vars 0 {} A.cx.placed.func.locals).1 := by
    rw [h.arrays_eq, ← h.run_eq]
    exact (Coloring.run_phases (h.run_eq ▸ h.no_error)).1
  -- The spans of the layout are local arrays, and each array of the function has one.
  refine suits_setting (List.all_eq_true.1 hnum) hapart hg (fun id l hl => ?_)
    fun id x hv hx hcls harr => ?_
  · have hmem := hl
    rw [harrays] at hmem
    rcases Coloring.mem_of_layoutArrays _ _ _ _ hmem with hnone | ⟨hid, v, hv, harr⟩
    · simp at hnone
    · obtain ⟨x, hx, hcls⟩ := hlocals id hid
      obtain rfl := Option.some.inj (hv.symm.trans hx)
      obtain ⟨s, hs⟩ := hspans id hid v hv harr
      obtain rfl := Option.some.inj (hl.symm.trans hs)
      exact ⟨v, hv, hcls, harr, rfl⟩
  · obtain ⟨s, hs⟩ := hspans id (hown id x hv hx hcls harr) x hx harr
    exact ⟨_, hs⟩

end Activation

/-! ## The whole way -/

namespace Tree.Generate

/-- The machine returns what the evaluation of a tree gives.  The function was generated, optimised or
not, placed by allocation, lowered and loaded; the machine is at its code with the values and the memory
from which the tree is evaluated, and answers calls as the host does.  Then an evaluation that returns
is realized by a return, with the value in its register and the memory behind all addresses. -/
theorem finishes_of_evaluation {u : CompUnit} {p : Program} (h : u.generate false = .ok p)
    (hinits : Meaning.InitsFit u.decls) {i : Nat} {f : FuncDef} (hf : u.funcs[i]? = some f)
    (hbody : Meaning.NodesFit f.body) (hdecls : (u.globals ++ f.params ++ declaredAll f.body).Nodup)
    (hlen : ∀ g ∈ p.funcs, g.stmts.length ≤ 18446744073709551616) {host : Host Unit}
    {addr : VarId → Word} {o : Options} {g : Func} (hg : (p.prepare o).funcs[i]? = some g)
    {A : Activation} (hplaced : (g.allocate p.vars o.regs).outcome = .ok A.cx.placed) {fl : Flow}
    {c : Counters} {pre : List Instr} (hsetup : A.Setup fl c pre (setting p host addr))
    {lim : Limits} {Knows : List (Event Unit) → Machine → Prop}
    (hcarries : A.Carries lim (setting p host addr) Knows) (hlim : lim.steps = 0) :
    ∃ (g₀ : Func) (S : Scene), p.funcs[i]? = some g₀ ∧ S.Stages u f p g₀ host addr ∧
      ∀ store s m pc, S.Matches store s → Meaning.Faultless S.C f store →
        A.At c pre (setting p host addr) Knows 0 s m pc →
        ∀ trace v mem, Meaning.Ends S.C f store trace (.returned v mem ()) →
          ∃ m', Machine.Finishes A.im lim A.func m pc m' ∧
            (∀ x, v = some x → m'.val (Reg.a 0) = x) ∧ m'.sp = A.sp + A.func.frame ∧
            ∀ a k, A.layout.index? a = some k → m'.mem.get k = mem a := by
  have hdistinct := distinct_of_nodup hdecls
  obtain ⟨before, st, hgen, hS⟩ := exists_scene h hinits hf hdistinct hlen host addr
  have hstages : (sceneOf u f p before st host addr).Stages u f p
      (compiled false u.decls f (places before.program.vars f.params.length) st) host addr :=
    hgen.stages hdistinct
  refine ⟨_, _, hgen.func, hstages, fun store s m pc hm hfault hat trace v mem hends => ?_⟩
  -- generated, then fused, then pruned
  have hrun := ((hgen.tracks hdistinct hS hbody hm).behaves hfault).ends _ _ |>.2 hends
  rw [hstages.code, hstages.setting] at hrun
  obtain ⟨g', hg', hfused⟩ := sameBehaviour_prepare (setting p host addr) s (fun n _ _ _ _ => rfl) o
    hgen.func
  obtain rfl := Option.some.inj (hg'.symm.trans hg)
  have hpruned := sameBehaviour_allocate (setting p host addr) s hplaced
  exact Activation.finishes_of_ends hsetup hcarries hlim hat
    ((hfused.trans hpruned).ends _ _ |>.1 hrun)

end Tree.Generate

end Tac
