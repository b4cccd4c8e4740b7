import Mathlib
import Tac.Compiler
import Tac.Machine.Run
import Tac.Proofs.Calls
import Tac.Proofs.Clobber
import Tac.Proofs.Effects

/-!
# Calls keep what they do not destroy

The sets of destroyed registers are computed from statements, but it is instructions that write
registers.  Every instruction that lowering makes for a function writes a scratch register or a
register of the function's set, and every call that it makes is of a function whose set is a part of
the function's set.  So however deep calls go, the registers outside the set of the outermost function
keep their values.

* **`Within`** — code that writes given registers and calls given functions; `within_made` bounds the
  code of statements.
* **`Confined`** — all functions of an image stay within their sets; `confined_of_ok` says that the
  code of a program is so.
* **`Inside`** — the active calls of a run stay within one set; `Inside.step` is one step.
* **`run_preserves`** — what a call keeps.
-/

namespace Tac

/-! ## Code within bounds -/

/-- The instruction writes only registers `w` and calls only functions `c`. -/
def Instr.Within (w : Reg → Prop) (c : String → Prop) (x : Instr) : Prop :=
  (∀ q, x.out? = some q → w q) ∧ ∀ g, x = .call g → c g

/-- All instructions of the code are within bounds. -/
def Within (w : Reg → Prop) (c : String → Prop) (code : List Instr) : Prop :=
  ∀ x ∈ code, x.Within w c

section Within

variable {w : Reg → Prop} {c : String → Prop}

@[simp] theorem within_append (xs ys : List Instr) :
    Within w c (xs ++ ys) ↔ Within w c xs ∧ Within w c ys := List.forall_mem_append

theorem Within.mono {w' : Reg → Prop} {c' : String → Prop} {code : List Instr} (h : Within w c code)
    (hw : ∀ q, w q → w' q) (hc : ∀ g, c g → c' g) : Within w' c' code :=
  fun x hx => ⟨fun q hq => hw q ((h x hx).1 q hq), fun g hg => hc g ((h x hx).2 g hg)⟩

/-- An instruction that writes one register. -/
theorem Instr.within_out {x : Instr} {d : Reg} (hx : x.out? = some d) (hd : w d) : x.Within w c := by
  refine ⟨fun q hq => ?_, fun g hg => ?_⟩
  · rw [hx] at hq
    rwa [← Option.some.inj hq]
  · rw [hg] at hx
    cases hx

/-- An instruction that writes none. -/
theorem Instr.within_none {x : Instr} (hx : x.out? = none) (hcall : ∀ g, x ≠ .call g) :
    x.Within w c :=
  ⟨fun _ hq => (nomatch hx.symm.trans hq), fun g hg => absurd hg (hcall g)⟩

end Within

namespace Lowering

/-! ## What statements write

The bounds hold the scratch registers and all registers of locations. -/

section Bounds

variable {w : Reg → Prop} {c : String → Prop} (hscratch : ∀ r : Reg, r.Scratch → w r)

include hscratch

/-- An instruction off the frame writes no more than scratch registers. -/
theorem within_offFrame {x : Instr} (h : x.OffFrame) : x.Within w c := by
  cases h with
  | imm hr | loadGlobal hr | addrGlobal hr | add hr | addImm hr =>
    exact Instr.within_out rfl (hscratch _ hr)
  | store => exact Instr.within_none rfl (by simp)

/-- The code at the start of `main` works in the scratch registers. -/
theorem within_entry (p : Program) (gs : List (VarId × Var)) : Within w c (entry p gs).code :=
  fun _ hx => within_offFrame hscratch (offFrame_of_mem_entry hx)

variable {cx : Context} {i : Nat} {st : Stmt}
  (hlocs : ∀ (u : VReg) (r : Reg), cx.placed.locs[u]? = some (Loc.reg r) → w r)

/-- Moving operands keeps within the scratch registers and those of the variables. -/
theorem within_transfer {x : Instr} (h : Transfer cx x) : x.Within w c := by
  cases h with
  | offFrame h => exact within_offFrame hscratch h
  | loadStack hr | addrStack hr => exact Instr.within_out rfl (hscratch _ hr)
  | storeStack => exact Instr.within_none rfl (by simp)

include hlocs

/-- The register of a destination may be written. -/
theorem within_target {v : Val} {d : Reg} (h : target cx v = .ok d) : w d := by
  have h0 : w Reg.scratch0 := hscratch _ (Or.inl rfl)
  unfold target at h
  split at h
  · split at h
    · cases h
    · cases h
      exact h0
    · next r hr =>
      cases h
      exact hlocs _ _ hr
  · repeat' split at h
    all_goals first | cases h; exact h0 | cases h

variable (hcall : ∀ r g args, st = .call r g args →
      c g ∧ ∀ j, j < args.length → j < Reg.argCount → w (Reg.a j))
  (hret : ∀ v, st = .ret (some v) → w (Reg.a 0))

include hcall hret

/-- The registers a statement computes into may be written. -/
theorem within_computes {d : Reg} (h : Computes cx st d) : w d := by
  cases h with
  | dst hv hd => exact within_target hscratch hlocs hd
  | result v => exact hret v rfl
  | arg hk hcount => exact (hcall _ _ _ rfl).2 _ hk (by omega)

/-- Straight code keeps within what the function may write and calls nothing. -/
theorem within_straight {x : Instr} (h : Straight cx i st x) : x.Within w c := by
  have hdest := fun d => within_computes hscratch hlocs hcall hret (d := d)
  cases h with
  | transfer h => exact within_transfer hscratch h
  | imm hd | move hd | unary hd | binary hd | addImm hd | shift hd | divPow2 hd | load hd | savedArg hd =>
    exact Instr.within_out rfl (hdest _ hd)
  | save | zeroWord | ret => exact Instr.within_none rfl (by simp)
  | restore hset hq =>
    -- what is restored is the register of a live value
    obtain ⟨-, u, -, hu⟩ := Clobber.mem_saved.1 (List.mem_of_getElem? hq)
    exact Instr.within_out rfl (hlocs u _ hu)

/-- The code of a statement is within bounds that hold its argument registers, its callee and the
register of its result. -/
theorem within_made {x : Instr} (h : Made cx i st x) : x.Within w c := by
  cases h with
  | straight h => exact within_straight hscratch hlocs hcall hret h
  | branch | jump | label | loopLabel | loopEnd => exact Instr.within_none rfl (by simp)
  | call r f args => exact ⟨fun q hq => (nomatch hq), fun g hg => by cases hg; exact (hcall r f args rfl).1⟩

end Bounds

/-! ## What functions write -/

/-- Whether an instruction stays within a set and is no call. -/
def leafWithin (s : RegSet) (x : Instr) : Bool :=
  match x with
  | .call _ => false
  | x => x.out?.all s.contains

/-- A leaf function that was checked keeps within its set. -/
theorem within_of_leaf {s : RegSet} {code : List Instr} (h : code.all (leafWithin s) = true)
    (c : String → Prop) : Within (fun q => s.contains q = true) c code := by
  intro x hx
  have hleaf := List.all_eq_true.1 h x hx
  refine ⟨fun q hq => ?_, fun g hg => ?_⟩
  -- Hand-written code that calls nobody is checked instruction by instruction.
  · have hout : x.out?.all s.contains = true := by
      cases x with
      | call => cases hleaf
      | _ => exact hleaf
    rw [hq] at hout
    exact hout
  · rw [hg] at hleaf
    cases hleaf

/-- Hand-written code writes the registers of its set and calls nobody. -/
theorem within_builtin {b : Builtin} {name : String} (hb : Builtin.find? name = some b)
    (ls : List Int) (c : String → Prop) :
    Within (fun q => b.clobber.contains q = true) c (b.code ls) := by
  have hmem : b ∈ Builtin.catalog := List.mem_of_find?_eq_some hb
  rcases List.mem_cons.1 hmem with rfl | hmem
  · exact within_of_leaf rfl c
  · obtain rfl := List.mem_singleton.1 hmem
    exact within_of_leaf rfl c

end Lowering

/-! ## Programs -/

open Lowering Clobber

/-- What a program promises: names are distinct, calls of its own functions pass as many arguments as
there are parameters, functions that return a value are not void, hand-written bodies stand for the
function of their name and its parameters, and values live in registers open to allocation. -/
structure Regular (ps : List Placement) : Prop where
  names : (ps.map fun p => p.func.name).Nodup
  arity : ∀ p ∈ ps, ∀ r g args, Stmt.call r g args ∈ p.func.stmts →
    ∀ q ∈ ps, q.func.name = g → args.length = q.func.params.length
  result : ∀ p ∈ ps, ∀ v, Stmt.ret (some v) ∈ p.func.stmts → p.func.void = false
  marks : ∀ p ∈ ps, ∀ b, p.func.builtin = some b → b = p.func.name ∧
    ∃ B, Builtin.find? b = some B ∧ p.func.params.length = B.reference.params.length
  regs : ∀ p ∈ ps, ∀ (u : VReg) (r : Reg), p.locs[u]? = some (.reg r) → r ∈ Reg.allocatable

/-- The registers that a function may write: those of its set and the scratch registers. -/
def Writable (sets : ClobberSets) (g : String) (q : Reg) : Prop :=
  (setOf sets g).contains q = true ∨ q.Scratch

/-- The functions that a function may call: those that destroy no more than it does. -/
def Callable (sets : ClobberSets) (g h : String) : Prop :=
  RegSet.Subset (setOf sets h) (setOf sets g)

section Program

variable {ps : List Placement} {sets : ClobberSets} (hreg : Regular ps)
  (hsets : Propagated (Builtin.clobbers (ps.map Placement.func)) ps sets)

include hreg in
/-- A function finds its own known set in the table. -/
theorem getElem?_clobbers_of_mem {p : Placement} (hp : p ∈ ps) :
    (Builtin.clobbers (ps.map Placement.func))[p.func.name]? = known? p.func := by
  apply getElem?_clobbers
  · rw [List.map_map]
    exact hreg.names
  · exact List.mem_map_of_mem hp

include hreg hsets

/-- A hand-written function destroys what its declaration says. -/
theorem setOf_of_builtin {p : Placement} (hp : p ∈ ps) {b : String} {B : Builtin}
    (hb : p.func.builtin = some b) (hB : Builtin.find? b = some B) :
    setOf sets p.func.name = B.clobber := by
  apply hsets.known p hp
  rw [getElem?_clobbers_of_mem hreg hp, known?, hb, Option.bind_some, hB]
  rfl

/-- The set of a function has the registers it writes itself. -/
theorem direct_subset {p : Placement} (hp : p ∈ ps) (hb : p.func.builtin = none) :
    RegSet.Subset (direct p) (setOf sets p.func.name) := by
  apply hsets.direct p hp
  rw [Std.TreeMap.contains_eq_isSome_getElem?, getElem?_clobbers_of_mem hreg hp, known?, hb]
  rfl

/-- A function may call those it calls: what they destroy is in its own set. -/
theorem callable_of_mem {p : Placement} (hp : p ∈ ps) (hb : p.func.builtin = none)
    {r : Option Val} {g : String} {args : List Val} (hst : Stmt.call r g args ∈ p.func.stmts) :
    Callable sets p.func.name g := by
  have hcontains :
      (Builtin.clobbers (ps.map Placement.func)).contains p.func.name = false := by
    rw [Std.TreeMap.contains_eq_isSome_getElem?, getElem?_clobbers_of_mem hreg hp, known?, hb]
    rfl
  obtain ⟨i, hi⟩ := List.mem_iff_getElem?.1 hst
  refine hsets.closed p hp hcontains (i, g) ?_
  exact List.mem_filterMap.2 ⟨(_, i), List.mem_zipIdx_iff_getElem?.2 hi, rfl⟩

/-- A function destroys the registers that pass its arguments. -/
theorem args_destroyed {p : Placement} (hp : p ∈ ps) {r : Option Val} {g : String}
    {args : List Val} (hst : Stmt.call r g args ∈ p.func.stmts) {j : Nat} (hj : j < args.length)
    (hcount : j < Reg.argCount) : (setOf sets g).contains (Reg.a j) = true := by
  by_cases hdef : ∃ q ∈ ps, q.func.name = g
  · obtain ⟨q, hq, rfl⟩ := hdef
    rw [hreg.arity p hp r _ args hst q hq rfl] at hj
    -- A function of the program destroys its parameters' registers; a hand-written one
    -- declares so.
    cases hb : q.func.builtin with
    | none =>
      apply direct_subset hreg hsets hq hb
      have hall : ∀ j < Reg.argCount, Reg.args[j]? = some (Reg.a j) := by decide
      have hmem : Reg.a j ∈ Reg.args.take q.func.params.length := by
        apply List.mem_of_getElem?
        rw [List.getElem?_take_of_lt hj]
        exact hall j hcount
      simp only [direct, RegSet.contains_union, RegSet.contains_ofList, Bool.or_eq_true,
        Bool.and_eq_true, decide_eq_true_eq]
      exact Or.inl (Or.inr ⟨hmem, (Reg.valid_a hcount).masked⟩)
    | some b =>
      obtain ⟨_, B, hB, hparams⟩ := hreg.marks q hq b hb
      rw [setOf_of_builtin hreg hsets hq hb hB]
      rw [hparams] at hj
      have hall : ∀ B ∈ Builtin.catalog, ∀ j < B.reference.params.length,
          B.clobber.contains (Reg.a j) = true := by decide
      exact hall B (List.mem_of_find?_eq_some hB) j hj
  -- A function of the runtime destroys everything.
  · obtain ⟨i, hi⟩ := List.mem_iff_getElem?.1 hst
    have hnot : ∀ q ∈ ps, q.func.name ≠ g := fun q hq heq => hdef ⟨q, hq, heq⟩
    have hcall : (i, g) ∈ calls p.func :=
      List.mem_filterMap.2 ⟨(_, i), List.mem_zipIdx_iff_getElem?.2 hi, rfl⟩
    rw [hsets.runtime g (hsets.defined p hp (i, g) hcall hnot) hnot]
    have hall : ∀ j < Reg.argCount, RegSet.all.contains (Reg.a j) = true := by decide
    exact hall j hcount

/-- The code of a function writes what the function destroys, and calls what destroys no more. -/
theorem within_func {vars : VarTable} {p : Placement} (hp : p ∈ ps) {c c' : Counters}
    {f : CodeFunc} (h : funcOrBuiltin { vars, sets, placed := p } c = .ok (f, c')) :
    f.name = p.func.name ∧
      Within (Writable sets p.func.name) (Callable sets p.func.name) f.body := by
  rcases funcOrBuiltin_cases h with ⟨b, B, hb, hB, hlower⟩ | ⟨hb, hfunc⟩
  · obtain ⟨hname, -, -, -⟩ := hreg.marks p hp b hb
    have hBname : B.name = b := by simpa using List.find?_some hB
    cases hlower
    refine ⟨hBname.trans hname, ?_⟩
    refine (within_builtin hB _ (Callable sets p.func.name)).mono (fun q hq => Or.inl ?_)
      fun _ h => h
    rw [setOf_of_builtin hreg hsets hp hb hB]
    exact hq
  -- What a function writes itself is part of its set, whatever instruction it comes from.
  · have hdirect := direct_subset hreg hsets hp hb
    refine ⟨(func_parts hfunc).2.1, fun x hx => ?_⟩
    obtain ⟨k, st, hst, hmade⟩ := exists_made_of_mem (func_parts hfunc).1 hx
    refine within_made (fun r hr => Or.inr hr) ?_ ?_ ?_ hmade
    · intro u r hr
      left
      apply hdirect
      have hmasked := (Reg.valid_of_mem_allocatable (hreg.regs p hp u r hr)).masked
      simp only [direct, RegSet.contains_union, RegSet.contains_ofList, Bool.or_eq_true,
        Bool.and_eq_true, decide_eq_true_eq, List.mem_filterMap]
      refine Or.inl (Or.inl ⟨⟨(u, .reg r), ?_, rfl⟩, hmasked⟩)
      exact Std.TreeMap.mem_toList_iff_getElem?_eq_some.2 hr
    -- Argument registers are written before the call, and the callee destroys them.
    · intro r g args heq
      have hmem : Stmt.call r g args ∈ p.func.stmts := heq ▸ List.mem_of_getElem? hst
      have hcallable := callable_of_mem hreg hsets hp hb hmem
      exact ⟨hcallable, fun j hj hcount =>
        Or.inl (hcallable _ (args_destroyed hreg hsets hp hmem hj hcount))⟩
    · intro v heq
      have hmem : Stmt.ret (some v) ∈ p.func.stmts := heq ▸ List.mem_of_getElem? hst
      left
      apply hdirect
      simp only [direct, hreg.result p hp v hmem, RegSet.contains_union, Bool.or_eq_true]
      exact Or.inr (by decide)

/-- All functions that are lowered keep within their sets. -/
theorem within_funcs {vars : VarTable} : ∀ {qs : List Placement} {c : Counters}
    {fs : List CodeFunc}, qs ⊆ ps → funcs vars sets c qs = .ok fs →
      fs.map CodeFunc.name = qs.map (fun q => q.func.name) ∧
        ∀ f ∈ fs, Within (Writable sets f.name) (Callable sets f.name) f.body := by
  intro qs
  -- On the functions, with any counter to start from; the sets are those of the whole program.
  induction qs with
  | nil =>
    intro c fs _ h
    cases h
    exact ⟨rfl, fun f hf => nomatch hf⟩
  | cons q qs ih =>
    intro c fs hsub h
    obtain ⟨hq, hqs⟩ := List.cons_subset.1 hsub
    obtain ⟨f, c', fs', hf, hfs', rfl⟩ := funcs_cons h
    obtain ⟨hname, hwithin⟩ := within_func hreg hsets hq hf
    obtain ⟨hnames, hrest⟩ := ih hqs hfs'
    rw [← hname] at hwithin
    exact ⟨by rw [List.map_cons, List.map_cons, hname, hnames],
      List.forall_mem_cons.2 ⟨hwithin, hrest⟩⟩

end Program

/-- If the names differ, a name selects one function. -/
theorem filter_name_eq {fs : List CodeFunc} (hnodup : (fs.map CodeFunc.name).Nodup) {f : CodeFunc}
    (hf : f ∈ fs) : fs.filter (fun g => g.name == f.name) = [f] := by
  have hmem : f ∈ fs.filter fun g => g.name == f.name := List.mem_filter.2 ⟨hf, by simp⟩
  -- all names of the part are the same, and there are no two
  have hsame : (fs.filter fun g => g.name == f.name).map CodeFunc.name =
      List.replicate (fs.filter fun g => g.name == f.name).length f.name := by
    rw [List.eq_replicate_iff, List.length_map]
    refine ⟨rfl, fun n hn => ?_⟩
    obtain ⟨g, hg, rfl⟩ := List.mem_map.1 hn
    simpa using (List.mem_filter.1 hg).2
  have hnodup' : ((fs.filter fun g => g.name == f.name).map CodeFunc.name).Nodup :=
    hnodup.sublist ((List.filter_sublist).map _)
  rw [hsame, List.nodup_replicate] at hnodup'
  cases hl : fs.filter fun g => g.name == f.name with
  | nil =>
    rw [hl] at hmem
    cases hmem
  | cons g gs =>
    rw [hl] at hmem hnodup'
    obtain rfl : gs = [] := List.eq_nil_of_length_eq_zero (by simpa using hnodup')
    rw [List.mem_singleton.1 hmem]

/-- With one `main`, each function of the code is its own body, or the entry code and its body. -/
theorem mem_install {e : Entry} {fs : List CodeFunc} (hnodup : (fs.map CodeFunc.name).Nodup)
    {f : CodeFunc} (hf : f ∈ e.install (fs.map fun f => (f, f.name == "main"))) :
    ∃ f₀ ∈ fs, f.name = f₀.name ∧ (f.body = f₀.body ∨ f.body = e.code ++ f₀.body) := by
  -- There is one main function, so the code before its body is the entry code alone.
  have hmains : ((fs.map fun f => (f, f.name == "main")).filter Prod.snd).map (fun f => f.1.body) =
      (fs.filter fun f => f.name == "main").map CodeFunc.body := by
    rw [List.filter_map, List.map_map]
    rfl
  unfold Entry.install at hf
  simp only [hmains] at hf
  rw [List.map_map] at hf
  obtain ⟨f₀, hf₀, rfl⟩ := List.mem_map.1 hf
  refine ⟨f₀, hf₀, ?_⟩
  simp only [Function.comp_apply]
  split
  · next hmain =>
    refine ⟨rfl, Or.inr ?_⟩
    have hname : f₀.name = "main" := by simpa using hmain
    rw [← hname, filter_name_eq hnodup hf₀]
    exact Entry.join_tail_singleton e f₀.body
  · exact ⟨rfl, Or.inl rfl⟩

/-- Every function of an image stays within its set, and what it does not define may destroy
everything. -/
structure Confined (im : Image) (sets : ClobberSets) : Prop where
  within : ∀ g f, im.funcs[g]? = some f →
    Within (Writable sets g) (Callable sets g) f.body.toList
  runtime : ∀ g ∈ runtimeNames, im.funcs[g]? = none → setOf sets g = RegSet.all

/-- The image finds a function by its name, the last one of that name. -/
theorem getElem?_funcs_ofCode (code : Code) (g : String) : (Image.ofCode code).funcs[g]? =
    (code.funcs.reverse.find? fun f => f.name == g).map Image.loadFunc := by
  rw [Image.ofCode, getElem?_foldl_insert CodeFunc.name]
  simp

/-- The entry code changes no name. -/
theorem names_install (e : Entry) (fs : List (CodeFunc × Bool)) :
    (e.install fs).map CodeFunc.name = fs.map fun f => f.1.name := by
  unfold Entry.install
  rw [List.map_map]
  congr 1
  funext ⟨f, main⟩
  simp only [Function.comp_apply]
  split <;> rfl

/-- Functions whose code keeps their names are marked by the names of their code. -/
theorem zip_mains {fs : List CodeFunc} {ps : List Placement}
    (hnames : fs.map CodeFunc.name = ps.map fun q => q.func.name) :
    fs.zip (ps.map fun q => q.func.name == "main") = fs.map fun f => (f, f.name == "main") := by
  have hmains : ps.map (fun q => q.func.name == "main") = fs.map fun f => f.name == "main" := by
    have := congrArg (List.map (· == "main")) hnames
    simpa [List.map_map, Function.comp_def] using this.symm
  rw [hmains]
  have := List.zip_map' (f := id) (g := fun f : CodeFunc => f.name == "main") (l := fs)
  rwa [List.map_id] at this

/-- The code of a program is confined to the sets of its functions. -/
theorem confined_of_ok {p : Program} {ps : List Placement} {r : Result} {code : Code}
    (hreg : Regular ps) (hclobber : Program.clobber ps = .ok r)
    (hcode : program p r.sets ps = .ok code) : Confined (Image.ofCode code) r.sets := by
  have hsets := propagated_of_ok hreg.names hclobber
  obtain ⟨gs, fs, -, hfs, -, hfuncs⟩ := program_parts hcode
  obtain ⟨hnames, hwithin⟩ := within_funcs hreg hsets (List.Subset.refl ps) hfs
  rw [zip_mains hnames] at hfuncs
  constructor
  · intro g f hf
    rw [getElem?_funcs_ofCode, hfuncs] at hf
    obtain ⟨cf, hfind, rfl⟩ := Option.map_eq_some_iff.1 hf
    have hname : cf.name = g := by simpa using List.find?_some hfind
    obtain ⟨f₀, hf₀, hname₀, hbody⟩ := mem_install (hnames ▸ hreg.names)
      (List.mem_reverse.1 (List.mem_of_find?_eq_some hfind))
    have hown := hwithin f₀ hf₀
    rw [← hname₀, hname] at hown
    show Within _ _ cf.body
    rcases hbody with hbody | hbody
    · rw [hbody]
      exact hown
    · rw [hbody, within_append]
      exact ⟨within_entry (fun r hr => Or.inr hr) p gs, hown⟩
  · intro g hg hnone
    apply hsets.runtime g hg
    intro q hq heq
    -- a function of the name would have been found
    have hmem : g ∈ code.funcs.map CodeFunc.name := by
      rw [hfuncs, names_install, List.map_map, show (fun f : CodeFunc × Bool => f.1.name) ∘
        (fun f : CodeFunc => (f, f.name == "main")) = CodeFunc.name from rfl, hnames]
      exact List.mem_map.2 ⟨q, hq, heq⟩
    obtain ⟨cf, hcf, hcfname⟩ := List.mem_map.1 hmem
    rw [getElem?_funcs_ofCode, Option.map_eq_none_iff, List.find?_eq_none] at hnone
    exact hnone cf (List.mem_reverse.2 hcf) (by simp [hcfname])

/-! ## Runs -/

namespace Machine

variable {im : Image} {lim : Limits} {sets : ClobberSets} {s : RegSet} {m m' : Machine}

/-- The registers outside a set have the same values, `x0` and the scratch registers apart. -/
def Preserves (s : RegSet) (m m' : Machine) : Prop :=
  ∀ q : Reg, q.Valid → q ≠ Reg.x0 → ¬ q.Scratch → s.contains q = false → m'.val q = m.val q

theorem Preserves.refl (s : RegSet) (m : Machine) : Preserves s m m := fun _ _ _ _ _ => rfl

theorem Preserves.trans {m₁ m₂ : Machine} (h₁ : Preserves s m m₁) (h₂ : Preserves s m₁ m₂) :
    Preserves s m m₂ :=
  fun q hq hx hscr hs => (h₂ q hq hx hscr hs).trans (h₁ q hq hx hscr hs)

/-- The register that is always zero is no matter. -/
theorem Preserves.resetZero (h : Preserves s m m') : Preserves s m m'.resetZero := by
  intro q hq hx hscr hs
  rw [val_resetZero m' hq, if_neg hx]
  exact h q hq hx hscr hs

/-- All code of the frame stays within a set. -/
def Inside (sets : ClobberSets) (s : RegSet) (f : LoadedFunc) : Prop :=
  Within (fun q => s.contains q = true ∨ q.Scratch) (fun g => RegSet.Subset (setOf sets g) s)
    f.body.toList

/-- A function whose set is smaller keeps inside the larger one. -/
theorem inside_of_confined (h : Confined im sets) {g : String} {f : LoadedFunc}
    (hf : im.funcs[g]? = some f) (hsub : RegSet.Subset (setOf sets g) s) : Inside sets s f :=
  (h.within g f hf).mono (fun q hq => hq.imp (hsub q) id) fun _ hc => hc.trans hsub

/-- Only functions of the environment are run by it. -/
theorem runtime_name {g : String} (h : m.runtime g = (m', none)) : g ∈ runtimeNames := by
  by_contra hg
  simp only [runtimeNames, List.mem_cons, List.not_mem_nil, or_false, not_or] at hg
  obtain ⟨h1, h2, h3, h4, h5, h6, h7, h8⟩ := hg
  simp [runtime, h1, h2, h3, h4, h5, h6, h7, h8] at h

/-- A call of the environment may destroy all registers, so nothing is promised about it. -/
theorem preserves_of_all (hall : RegSet.Subset RegSet.all s) (m m' : Machine) :
    Preserves s m m' := by
  intro q hq hx _ hs
  have hcontains : ∀ n : Fin Reg.count, n.val ≠ 0 → RegSet.all.contains ⟨n.val⟩ = true := by decide
  obtain ⟨h0, h1⟩ := hq
  have hq : (⟨((q.num.toNat : Nat) : Int)⟩ : Reg) = q := Reg.ext_num (Int.toNat_of_nonneg h0)
  have hne : q.num.toNat ≠ 0 := by
    intro hzero
    exact hx (Reg.ext_num (show q.num = 0 by omega))
  have := hall q (hq ▸ hcontains ⟨q.num.toNat, by omega⟩ hne)
  rw [hs] at this
  cases this

/-- Entering a function preserves what it does not destroy, and leads into code that keeps
within its set. A runtime function destroys everything, so nothing has to be preserved
there. -/
theorem preserves_enter (hconf : Confined im sets) (lim : Limits) (m : Machine) {g : String}
    (hsub : RegSet.Subset (setOf sets g) s) :
    (∀ m', m.enter im lim g = .returned m' → Preserves s m m') ∧
      ∀ m' f, m.enter im lim g = .entered m' f → Preserves s m m' ∧ Inside sets s f := by
  unfold enter
  split
  · next hnone =>
    split
    · next m₁ hrun =>
      refine ⟨fun m' _ => ?_, fun m' f h => nomatch h⟩
      apply preserves_of_all
      rw [← hconf.runtime g (runtime_name hrun) hnone]
      exact hsub
    · exact ⟨fun m' h => (nomatch h), fun m' f h => (nomatch h)⟩
  -- A function of the program: too deep, no room on the stack, or entered with its own
  -- registers untouched.
  · next f hf =>
    split
    · exact ⟨fun m' h => (nomatch h), fun m' f h => (nomatch h)⟩
    · simp only
      split
      · exact ⟨fun m' h => (nomatch h), fun m' f h => (nomatch h)⟩
      · refine ⟨fun m' h => (nomatch h), fun m' f' h => ?_⟩
        cases h
        exact ⟨Preserves.refl s m, inside_of_confined hconf hf hsub⟩

/-- An instruction of code inside a set writes no register outside it. -/
theorem preserves_exec {f : LoadedFunc} {x : Instr} {go : Control} (hf : Inside sets s f)
    (hx : x ∈ f.body.toList) (h : exec im f m x = .ok m' go) : Preserves s m m' := by
  intro q hq _ hscr hs
  apply exec_keeps h hq
  intro hout
  rcases (hf x hx).1 q hout with hin | hin
  · rw [hs] at hin
    cases hin
  · exact hscr hin

/-- What one step from `m` may come to: a state or an end without error, both with the registers outside
the set as they were, and frames that are inside it. -/
def StaysInside (sets : ClobberSets) (s : RegSet) (m : Machine) : Step → Prop
  | .continue m' top rest => Preserves s m m' ∧ ∀ f ∈ top :: rest, Inside sets s f.func
  | .stop m' .done => Preserves s m m'
  | .stop _ _ => True

/-- One instruction preserves what the functions on the stack do not destroy, and so does
whatever it enters. -/
theorem staysInside_stepInstr (hconf : Confined im sets) {top : Frame} {rest : List Frame} {x : Instr}
    (hin : ∀ f ∈ top :: rest, Inside sets s f.func) (hx : x ∈ top.func.body.toList) :
    StaysInside sets s m (stepInstr im lim m top rest x) := by
  obtain ⟨htop, hrest⟩ := List.forall_mem_cons.1 hin
  unfold stepInstr
  split
  · trivial
  · trivial
  · next m₁ hexec =>
    exact ⟨(preserves_exec htop hx hexec).resetZero, List.forall_mem_cons.2 ⟨htop, hrest⟩⟩
  · next m₁ pc hexec =>
    exact ⟨(preserves_exec htop hx hexec).resetZero, List.forall_mem_cons.2 ⟨htop, hrest⟩⟩
  · next m₁ g hexec =>
    -- A callee is entered with a set that is part of the caller's.
    have hsub := (htop x hx).2 g (call_of_exec hexec)
    have hfirst := preserves_exec htop hx hexec
    obtain ⟨hreturned, hentered⟩ := preserves_enter hconf lim m₁ hsub
    split
    · trivial
    · next m₂ henter =>
      exact ⟨(hfirst.trans (hreturned m₂ henter)).resetZero,
        List.forall_mem_cons.2 ⟨htop, hrest⟩⟩
    · next m₂ f henter =>
      obtain ⟨hpres, hf⟩ := hentered m₂ f henter
      exact ⟨hfirst.trans hpres, List.forall_mem_cons.2 ⟨hf, hin⟩⟩
  · next m₁ hexec =>
    have hleave : Preserves s m (m₁.resetZero.leave top.func) :=
      (preserves_exec htop hx hexec).resetZero
    simp only
    split
    · exact hleave
    · next caller rest' =>
      obtain ⟨hcaller, hrest'⟩ := List.forall_mem_cons.1 hrest
      exact ⟨hleave.resetZero, List.forall_mem_cons.2 ⟨hcaller, hrest'⟩⟩

/-- One step of the machine does as its instruction does. -/
theorem staysInside_step (hconf : Confined im sets) (lim : Limits) (m : Machine) {top : Frame} {rest : List Frame}
    (hin : ∀ f ∈ top :: rest, Inside sets s f.func) :
    StaysInside sets s m (step im lim m top rest) := by
  unfold step
  split
  · trivial
  · next x hx =>
    simp only
    split
    · trivial
    · exact staysInside_stepInstr (m := m.tick) hconf hin
        (Array.mem_toList_iff.2 (Array.mem_of_getElem? hx))

/-- A run to the end keeps what one step keeps. -/
theorem runSteps_preserves (hconf : Confined im sets) (fuel : Nat) {m : Machine} {top : Frame}
    {rest : List Frame} (hin : ∀ f ∈ top :: rest, Inside sets s f.func)
    (h : runSteps im lim fuel m top rest = (m', .done)) : Preserves s m m' := by
  -- On the steps; `Inside` is the invariant of the functions on the stack.
  induction fuel generalizing m top rest with
  | zero => cases h
  | succ fuel ih =>
    have hstep := staysInside_step hconf lim m hin
    unfold runSteps at h
    split at h
    · next m₁ top₁ rest₁ heq =>
      rw [heq] at hstep
      exact hstep.1.trans (ih hstep.2 h)
    · next m₁ o heq =>
      cases h
      rw [heq] at hstep
      exact hstep

/-- **A call keeps what it does not destroy**: when a function is run to its end, all registers
outside its set have their old values, whatever it calls; only `x0` and the scratch registers are
apart. -/
theorem run_preserves {p : Program} {ps : List Placement} {r : Result} {code : Code}
    (hreg : Regular ps) (hclobber : Program.clobber ps = .ok r)
    (hcode : program p r.sets ps = .ok code) {g : String} {s : RegSet} (hs : r.sets[g]? = some s)
    {lim : Limits} {m m' : Machine} (hrun : m.run (Image.ofCode code) lim g = (m', .done)) {q : Reg}
    (hq : q.Valid) (hx : q ≠ Reg.x0) (h0 : q ≠ Reg.t 0) (h1 : q ≠ Reg.t 1)
    (hnot : s.contains q = false) : m'.val q = m.val q := by
  have hconf := confined_of_ok hreg hclobber hcode
  have hsub : RegSet.Subset (setOf r.sets g) s := by
    rw [setOf_eq hs]
    exact RegSet.Subset.refl s
  -- The scratch registers belong to no set; they are written anywhere.
  have hscr : ¬ q.Scratch := fun h => h.elim h0 h1
  -- The set of the function that is called bounds what all its callees destroy.
  suffices Preserves s m m' from this q hq hx hscr hnot
  obtain ⟨hreturned, hentered⟩ := preserves_enter hconf lim m hsub
  unfold run at hrun
  split at hrun
  · next m₁ henter =>
    cases hrun
    exact hreturned _ henter
  · cases hrun
  · next m₁ f henter =>
    obtain ⟨hpres, hf⟩ := hentered m₁ f henter
    refine hpres.trans (runSteps_preserves hconf _ ?_ hrun)
    simpa using hf

/-! ## A square -/

/-- A function with a hand-written body, and one that calls it with its parameter twice. -/
def squarePlaced : List Placement :=
  [{ func := { name := "multiply", void := false, params := [0, 1], builtin := some "multiply" }
     live := #[], meet := #[], locs := {}, arrays := {}, spillSize := 0 },
   { func :=
      { name := "square", void := false, params := [2]
        stmts := [.call (some (.temp 0)) "multiply" [.var 2, .var 2], .ret (some (.temp 0))] }
     live := #[BitSet.ofList [2]], meet := #[BitSet.ofList [0]]
     locs := .ofList [(0, Loc.reg (Reg.t 5)), (2, Loc.reg (Reg.a 0))]
     arrays := {}, spillSize := 0 }]

def squareProgram : Program where
  vars := #[⟨"a", .arg, 0, none⟩, ⟨"b", .arg, 1, none⟩, ⟨"x", .arg, 0, none⟩]

/-- The argument is three; a further register holds a value to be kept. -/
def squareMachine : Machine where
  regs := Vector.ofFn fun k => if k.val = 8 then 3 else if k.val = 16 then 7 else 0
  mem := { size := 300000 }
  sp := 1000000

/-- The example is regular. -/
theorem regular_square : Regular squarePlaced where
  names := by decide
  arity := by
    intro p hp r g args hst
    simp only [squarePlaced, List.mem_cons, List.not_mem_nil, or_false] at hp
    rcases hp with rfl | rfl
    · cases hst
    · simp only [List.mem_cons, Stmt.call.injEq, reduceCtorEq, List.not_mem_nil, or_false] at hst
      obtain ⟨_, rfl, rfl⟩ := hst
      decide
  result := by
    intro p hp v _
    have hall : ∀ p ∈ squarePlaced, p.func.void = false := by decide
    exact hall p hp
  marks := by
    intro p hp b hb
    simp only [squarePlaced, List.mem_cons, List.not_mem_nil, or_false] at hp
    rcases hp with rfl | rfl
    · cases hb
      exact ⟨rfl, Builtin.multiply, rfl, rfl⟩
    · cases hb
  -- The locations of both functions are decided at once.
  regs := by
    intro p hp u r hr
    have hall : ∀ p ∈ squarePlaced, ∀ l ∈ p.locs.toList,
        l.2.reg?.all (· ∈ Reg.allocatable) = true := by decide +kernel
    exact of_decide_eq_true
      (hall p hp (u, .reg r) (Std.TreeMap.mem_toList_iff_getElem?_eq_some.2 hr))

/-- Whether a run ended without an error. -/
def isDone : Outcome → Bool
  | .done => true
  | _ => false

/-- The kept value survives the call and the call inside it. -/
theorem run_preserves_square : ∃ r code m', Program.clobber squarePlaced = .ok r ∧
    program squareProgram r.sets squarePlaced = .ok code ∧
    squareMachine.run (Image.ofCode code) {} "square" = (m', .done) ∧ m'.val (Reg.a 0) = 9 ∧
    m'.val (Reg.s 0) = squareMachine.val (Reg.s 0) := by
  -- Compiling and running the example is one computation; what it says is taken apart below.
  have htest : ((Program.clobber squarePlaced).toOption.any fun r =>
      (program squareProgram r.sets squarePlaced).toOption.any fun code =>
        isDone (squareMachine.run (Image.ofCode code) {} "square").2 &&
          (squareMachine.run (Image.ofCode code) {} "square").1.val (Reg.a 0) == 9 &&
          r.sets["square"]?.any fun s => !s.contains (Reg.s 0)) = true := by
    decide +kernel
  obtain ⟨r, hr, htest⟩ := exists_ok_of_any htest
  obtain ⟨code, hcode, htest⟩ := exists_ok_of_any htest
  simp only [Bool.and_eq_true, beq_iff_eq] at htest
  obtain ⟨⟨hdone, hnine⟩, hset⟩ := htest
  have hrun : squareMachine.run (Image.ofCode code) {} "square" =
      ((squareMachine.run (Image.ofCode code) {} "square").1, .done) := by
    refine Prod.ext rfl ?_
    cases ho : (squareMachine.run (Image.ofCode code) {} "square").2 with
    | done => rfl
    | trap t => rw [ho] at hdone; cases hdone
    | fault => rw [ho] at hdone; cases hdone
  cases hs : r.sets["square"]? with
  | none =>
    rw [hs] at hset
    cases hset
  | some s =>
    have hnot : s.contains (Reg.s 0) = false := by simpa [hs] using hset
    exact ⟨r, code, _, hr, hcode, hrun, hnine,
      run_preserves regular_square hr hcode hs hrun (by decide) (by decide) (by decide) (by decide)
        hnot⟩

end Machine

end Tac
