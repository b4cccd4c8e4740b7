import Mathlib
import Tac.Lowering
import Tac.Proofs.Operands

/-!
# What lowering emits

Many properties of lowered code are properties of its instructions one by one: which registers they
write, which words of the frame they name, whether they can be written down.  This module opens the
emitters and says once which instructions there are; a property of all lowered code is then a case
analysis of these instructions.

* **`binary_parts`, `branch_parts`, `call_parts`, `zeroFill_parts`** — the parts of the code of
  statements; `func_parts`, `funcOrBuiltin_cases` and `program_parts` are those of functions and programs.
* **`Instr.OffFrame`, `Transfer`, `Straight`, `Made`** — instructions of initial values, of operands, of
  straight code and of all statements, each including those before.
* **`made_of_stmt`, `exists_made_of_mem`, `offFrame_of_mem_entry`** — there are no others.
-/

namespace Tac

/-- A computation in two parts succeeds if both parts do. -/
theorem bind_eq_ok {ε α β : Type} {x : Except ε α} {g : α → Except ε β} {b : β} :
    x >>= g = .ok b ↔ ∃ a, x = .ok a ∧ g a = .ok b := by
  cases x with
  | error e => simp [bind, Except.bind]
  | ok a => simp [bind, Except.bind]

/-- An instruction that computes in scratch registers and names no word of the frame. -/
inductive Instr.OffFrame : Instr → Prop where
  | imm {r : Reg} (hr : r.Scratch) (n : Int) : OffFrame (.imm r n)
  | loadGlobal {r : Reg} (hr : r.Scratch) (g : Int) : OffFrame (.loadGlobal r g)
  | addrGlobal {r : Reg} (hr : r.Scratch) (g : Int) : OffFrame (.addrGlobal r g)
  | add {r : Reg} (hr : r.Scratch) (x y : Reg) : OffFrame (.binary r .add x y)
  | addImm {r : Reg} (hr : r.Scratch) (x : Reg) {n : Int} (hn : immOverflows n = false) :
      OffFrame (.addImm r x n)
  | store (b x : Reg) {o : Int} (ho : immOverflows o = false) : OffFrame (.store b o x)

namespace Lowering

variable {cx : Context} {i : Nat} {st : Stmt} {code : List Instr}

/-! ## Instructions -/

/-- An instruction that brings an operand to a scratch register, or a result to its place in memory. -/
inductive Transfer (cx : Context) : Instr → Prop where
  | offFrame {x : Instr} (h : x.OffFrame) : Transfer cx x
  | loadStack {r : Reg} (hr : r.Scratch) {u : VReg} {slot n : Int}
      (hu : cx.placed.locs[u]? = some (.stack slot n)) : Transfer cx (.loadStack r slot)
  | storeStack (r : Reg) {u : VReg} {slot n : Int} (hu : cx.placed.locs[u]? = some (.stack slot n)) :
      Transfer cx (.storeStack r slot)
  | addrStack {r : Reg} (hr : r.Scratch) {id : VarId} {l : Loc} (hl : cx.placed.arrays[id]? = some l) :
      Transfer cx (.addrStack r l.slot)

/-- A register that a statement computes a value for: its destination, the result of the function or
an argument. -/
inductive Computes (cx : Context) : Stmt → Reg → Prop where
  | dst {st : Stmt} {v : Val} {d : Reg} (hv : st.dst? = some v) (hd : target cx v = .ok d) :
      Computes cx st d
  | result (v : Val) : Computes cx (.ret (some v)) (Reg.a 0)
  | arg {r : Option Val} {f : String} {args : List Val} {k : Nat} (hk : k < args.length)
      (hcount : args.length ≤ Reg.argCount) : Computes cx (.call r f args) (Reg.a k)

/-- The instructions of statement `i` that neither define nor use a label or a name. -/
inductive Straight (cx : Context) (i : Nat) : Stmt → Instr → Prop where
  | transfer {st : Stmt} {x : Instr} (h : Transfer cx x) : Straight cx i st x
  | imm {st : Stmt} {d : Reg} (hd : Computes cx st d) (n : Int) : Straight cx i st (.imm d n)
  | move {st : Stmt} {d : Reg} (hd : Computes cx st d) (x : Reg) : Straight cx i st (.move d x)
  | unary {st : Stmt} {d : Reg} (hd : Computes cx st d) (op : UnOp) (x : Reg) :
      Straight cx i st (.unary d op x)
  | binary {dst l r : Val} {op : BinOp} {d : Reg} (hd : Computes cx (.binary dst l op r) d)
      (x y : Reg) : Straight cx i (.binary dst l op r) (.binary d op x y)
  | addImm {st : Stmt} {d : Reg} (hd : Computes cx st d) (x : Reg) {n : Int}
      (hn : immOverflows n = false) : Straight cx i st (.addImm d x n)
  | shift {st : Stmt} {d : Reg} (hd : Computes cx st d) (x : Reg) {n : Int} (hn : 0 ≤ n) :
      Straight cx i st (.shift d x .left n)
  | divPow2 {st : Stmt} {d : Reg} (hd : Computes cx st d) (x : Reg) {n : Int} (hn : 0 ≤ n) :
      Straight cx i st (.divPow2 d x n)
  | load {st : Stmt} {d : Reg} (hd : Computes cx st d) (b : Reg) {o : Int}
      (ho : immOverflows o = false) : Straight cx i st (.load d b o)
  | save {r : Option Val} {f : String} {args : List Val} {destroy : RegSet} {k : Nat} {q : Reg}
      (hset : cx.sets[f]? = some destroy) (hq : (Clobber.saved cx.placed i destroy)[k]? = some q) :
      Straight cx i (.call r f args) (.storeStack q (saveSlot cx k))
  | restore {r : Option Val} {f : String} {args : List Val} {destroy : RegSet} {k : Nat} {q : Reg}
      (hset : cx.sets[f]? = some destroy) (hq : (Clobber.saved cx.placed i destroy)[k]? = some q) :
      Straight cx i (.call r f args) (.loadStack q (saveSlot cx k))
  | savedArg {r : Option Val} {f : String} {args : List Val} {destroy : RegSet} {k : Nat} {d : Reg}
      (hd : Computes cx (.call r f args) d) (hset : cx.sets[f]? = some destroy)
      (hk : k < (Clobber.saved cx.placed i destroy).length) :
      Straight cx i (.call r f args) (.loadStack d (saveSlot cx k))
  | zeroWord {v : Val} {id : VarId} {l : Loc} {k : Nat} (hl : cx.placed.arrays[id]? = some l)
      (hk : k < l.span.toNat) : Straight cx i (.zeroFill v) (.storeStack Reg.x0 (wrap64 (l.slot + k)))
  | ret (v : Option Val) : Straight cx i (.ret v) .ret

/-- The instructions of statement `i`. -/
inductive Made (cx : Context) (i : Nat) : Stmt → Instr → Prop where
  | straight {st : Stmt} {x : Instr} (h : Straight cx i st x) : Made cx i st x
  | branch (l : Val) (rel : Rel) (r : Val) (t : Int) (x y : Reg) :
      Made cx i (.branch l rel r t) (.branch x y rel t)
  | jump (l : Int) : Made cx i (.jump l) (.jump l)
  | label (l : Int) : Made cx i (.label l) (.label l)
  | call (r : Option Val) (f : String) (args : List Val) : Made cx i (.call r f args) (.call f)
  | loopLabel (v : Val) (l : Int) : Made cx i (.zeroFill v) (.label l)
  | loopEnd (v : Val) (l : Int) :
      Made cx i (.zeroFill v) (.branch Reg.scratch0 Reg.scratch1 .lt l)

/-! ## Operands -/

theorem scratch0_scratch : Reg.scratch0.Scratch := Or.inl rfl

theorem scratch1_scratch : Reg.scratch1.Scratch := Or.inr rfl

/-- Fetching an operand only moves it to a scratch register. -/
theorem transfer_fetch {scratch r : Reg} {v : Val} (hs : scratch.Scratch)
    (h : fetch cx scratch v = .ok (code, r)) : ∀ x ∈ code, Transfer cx x := by
  unfold fetch at h
  -- By the kind of the operand, and where it is found.
  split at h
  · split at h <;> cases h
    · exact List.forall_mem_nil _
    · exact List.forall_mem_singleton.2 (.offFrame (.imm hs _))
  · split at h
    · split at h
      · cases h
      · next hu =>
        cases h
        exact List.forall_mem_singleton.2 (.loadStack hs hu)
      · cases h
        exact List.forall_mem_nil _
    · split at h
      · split at h
        · cases h
        · split at h
          · cases h
            exact List.forall_mem_singleton.2 (.offFrame (.addrGlobal hs _))
          · cases h
            exact List.forall_mem_singleton.2 (.offFrame (.loadGlobal hs _))
          · split at h
            · cases h
            · next hl =>
              cases h
              exact List.forall_mem_singleton.2 (.addrStack hs hl)
      · cases h

/-- Putting a result in its place only moves it. -/
theorem transfer_finish (v : Val) (r : Reg) : ∀ x ∈ finish cx v r, Transfer cx x := by
  unfold finish
  split
  · split
    · next hu => exact List.forall_mem_singleton.2 (.storeStack r hu)
    · exact List.forall_mem_nil _
  · split
    · split
      · exact List.forall_mem_cons.2 ⟨.offFrame (.addrGlobal scratch1_scratch _),
          List.forall_mem_singleton.2 (.offFrame (.store _ _ (by decide)))⟩
      · exact List.forall_mem_nil _
    · exact List.forall_mem_nil _

/-- The offset that an address leaves is small: a large one goes into the base. -/
theorem transfer_address {v : Val} {off o : Int} {r : Reg}
    (h : address cx v off = .ok (code, r, o)) :
    (∀ x ∈ code, Transfer cx x) ∧ immOverflows o = false := by
  unfold address at h
  obtain ⟨⟨c₁, x⟩, h₁, h⟩ := bind_eq_ok.1 h
  have hfetch := transfer_fetch scratch0_scratch h₁
  simp only at h
  -- A large offset is added to the base first.
  split at h
  · cases h
    refine ⟨List.forall_mem_append.2 ⟨hfetch, List.forall_mem_cons.2 ⟨?_, ?_⟩⟩, by decide⟩
    · exact .offFrame (.imm scratch1_scratch _)
    · exact List.forall_mem_singleton.2 (.offFrame (.add scratch0_scratch _ _))
  · next hsmall =>
    cases h
    exact ⟨hfetch, Bool.not_eq_true _ ▸ hsmall⟩

theorem straight_of_transfer (h : ∀ x ∈ code, Transfer cx x) : ∀ x ∈ code, Straight cx i st x :=
  fun x hx => .transfer (h x hx)

/-- Putting a result in its place is something every statement may do. -/
theorem straight_finish (v : Val) (r : Reg) : ∀ x ∈ finish cx v r, Straight cx i st x :=
  straight_of_transfer (transfer_finish v r)

/-! ## Statements without calls -/

/-- The exponent of a power of two is not negative. -/
theorem exponent_nonneg {c n : Int} (h : (do let k ← log2? c; pure (k : Int)) = some n) : 0 ≤ n := by
  obtain ⟨k, -, hk⟩ := Option.bind_eq_some_iff.1 h
  cases hk
  exact Int.natCast_nonneg k

/-- A short form of an operation with a constant writes the target, and its constant fits
where it stands. -/
theorem straight_byConstant? {d x : Reg} {op : BinOp} {c : Int} {instr : Instr}
    (hd : Computes cx st d) (h : byConstant? d x op c = some instr) : Straight cx i st instr := by
  unfold byConstant? at h
  split at h
  case h_1 | h_2 =>
    -- subtraction adds the negated constant, and that is what is checked
    split at h
    · cases h
    · next hsmall =>
      cases h
      exact .addImm hd x (Bool.not_eq_true _ ▸ hsmall)
  case h_3 =>
    obtain ⟨n, hn, rfl⟩ := Option.map_eq_some_iff.1 h
    exact .shift hd x (exponent_nonneg hn)
  case h_4 =>
    obtain ⟨n, hn, rfl⟩ := Option.map_eq_some_iff.1 h
    split
    · exact .move hd x
    · exact .divPow2 hd x (exponent_nonneg hn)
  case h_5 => cases h

/-- A binary statement fetches its first operand, and its second one unless there is a short form. -/
theorem binary_parts {d l r : Val} {op : BinOp} (h : binary cx d l op r = .ok code) :
    ∃ l' r' q c₁ a, orient op l r = (l', r') ∧ target cx d = .ok q ∧
      fetch cx Reg.scratch0 l' = .ok (c₁, a) ∧
      ((∃ n instr, r' = .const n ∧ byConstant? q a op n = some instr ∧
          code = c₁ ++ [instr] ++ finish cx d q) ∨
        ∃ c₂ b, fetch cx Reg.scratch1 r' = .ok (c₂, b) ∧
          code = c₁ ++ c₂ ++ [.binary q op a b] ++ finish cx d q) := by
  unfold binary at h
  obtain ⟨q, hq, h⟩ := bind_eq_ok.1 h
  cases horient : orient op l r with
  | mk l' r' =>
    rw [horient] at h
    obtain ⟨⟨c₁, a⟩, h₁, h⟩ := bind_eq_ok.1 h
    refine ⟨l', r', q, c₁, a, rfl, hq, h₁, ?_⟩
    simp only at h
    split at h
    · next instr hinstr =>
      cases h
      left
      -- a short form stands only where the second operand is a constant
      split at hinstr
      · cases hinstr
      · obtain ⟨n, hn, hby⟩ := Option.bind_eq_some_iff.1 hinstr
        cases r' with
        | const k =>
          cases hn
          exact ⟨n, instr, rfl, hby, rfl⟩
        | temp k => cases hn
        | var id => cases hn
    · obtain ⟨⟨c₂, b⟩, h₂, h⟩ := bind_eq_ok.1 h
      cases h
      exact Or.inr ⟨c₂, b, h₂, rfl⟩

/-- An operation is lowered to straight code. -/
theorem straight_binary {d l r : Val} {op : BinOp} (h : binary cx d l op r = .ok code) :
    ∀ x ∈ code, Straight cx i (.binary d l op r) x := by
  obtain ⟨l', r', q, c₁, a, -, hq, h₁, hform⟩ := binary_parts h
  have hd : Computes cx (.binary d l op r) q := .dst rfl hq
  have hfetch : ∀ x ∈ c₁, Straight cx i (.binary d l op r) x :=
    straight_of_transfer (transfer_fetch scratch0_scratch h₁)
  rcases hform with ⟨n, instr, -, hby, rfl⟩ | ⟨c₂, b, h₂, rfl⟩
  · simp only [List.forall_mem_append, List.forall_mem_singleton]
    exact ⟨⟨hfetch, straight_byConstant? hd hby⟩, straight_finish d q⟩
  · simp only [List.forall_mem_append, List.forall_mem_singleton]
    exact ⟨⟨⟨hfetch, straight_of_transfer (transfer_fetch scratch1_scratch h₂)⟩, .binary hd a b⟩,
      straight_finish d q⟩

/-- A unary operation is lowered to straight code. -/
theorem straight_unary {d v : Val} {op : UnOp} (h : unary cx d op v = .ok code) :
    ∀ x ∈ code, Straight cx i (.unary d op v) x := by
  unfold unary at h
  obtain ⟨⟨c₁, a⟩, h₁, h⟩ := bind_eq_ok.1 h
  obtain ⟨q, hq, h⟩ := bind_eq_ok.1 h
  cases h
  have hd : Computes cx (.unary d op v) q := .dst rfl hq
  simp only [List.forall_mem_append, List.forall_mem_singleton]
  refine ⟨⟨straight_of_transfer (transfer_fetch scratch1_scratch h₁), ?_⟩, straight_finish d q⟩
  cases op with
  | plus => exact .move hd a
  | neg | not => exact .unary hd _ a

/-- Moving an operand into a register is straight code. -/
theorem straight_moveInto {d : Reg} {v : Val} (hd : Computes cx st d)
    (h : moveInto cx d v = .ok code) : ∀ x ∈ code, Straight cx i st x := by
  unfold moveInto at h
  split at h
  · cases h
    exact List.forall_mem_singleton.2 (.imm hd _)
  · obtain ⟨⟨c₁, a⟩, h₁, h⟩ := bind_eq_ok.1 h
    cases h
    exact List.forall_mem_append.2 ⟨straight_of_transfer (transfer_fetch scratch1_scratch h₁),
      List.forall_mem_singleton.2 (.move hd a)⟩

/-- A move is lowered to straight code. -/
theorem straight_move {d v : Val} (h : move cx d v = .ok code) :
    ∀ x ∈ code, Straight cx i (.move d v) x := by
  unfold move at h
  obtain ⟨q, hq, h⟩ := bind_eq_ok.1 h
  obtain ⟨c, hc, h⟩ := bind_eq_ok.1 h
  cases h
  exact List.forall_mem_append.2 ⟨straight_moveInto (.dst rfl hq) hc, straight_finish d q⟩

/-- A store is lowered to straight code. -/
theorem straight_store {b v : Val} {off : Int} (h : store cx b off v = .ok code) :
    ∀ x ∈ code, Straight cx i (.store b off v) x := by
  unfold store at h
  obtain ⟨⟨c₁, r, o⟩, h₁, h⟩ := bind_eq_ok.1 h
  obtain ⟨⟨c₂, a⟩, h₂, h⟩ := bind_eq_ok.1 h
  cases h
  obtain ⟨haddress, ho⟩ := transfer_address h₁
  refine straight_of_transfer ?_
  simp only [List.forall_mem_append, List.forall_mem_singleton]
  exact ⟨⟨haddress, transfer_fetch scratch1_scratch h₂⟩, .offFrame (.store r a ho)⟩

/-- A load is lowered to straight code. -/
theorem straight_load {d b : Val} {off : Int} (h : load cx d b off = .ok code) :
    ∀ x ∈ code, Straight cx i (.load d b off) x := by
  unfold load at h
  obtain ⟨⟨c₁, r, o⟩, h₁, h⟩ := bind_eq_ok.1 h
  obtain ⟨q, hq, h⟩ := bind_eq_ok.1 h
  cases h
  obtain ⟨haddress, ho⟩ := transfer_address h₁
  simp only [List.forall_mem_append, List.forall_mem_singleton]
  exact ⟨⟨straight_of_transfer haddress, .load (.dst rfl hq) r ho⟩, straight_finish d q⟩

/-- A conditional jump fetches its operands first. -/
theorem branch_parts {l r : Val} {rel : Rel} {t : Int} (h : branch cx l rel r t = .ok code) :
    ∃ pre x y, (∀ z ∈ pre, Transfer cx z) ∧ code = pre ++ [Instr.branch x y rel t] := by
  unfold branch at h
  obtain ⟨⟨c₁, x⟩, h₁, h⟩ := bind_eq_ok.1 h
  obtain ⟨⟨c₂, y⟩, h₂, h⟩ := bind_eq_ok.1 h
  cases h
  exact ⟨c₁ ++ c₂, x, y, List.forall_mem_append.2
    ⟨transfer_fetch scratch0_scratch h₁, transfer_fetch scratch1_scratch h₂⟩, rfl⟩

/-- A return is lowered to straight code, which ends in the return itself. -/
theorem straight_ret {v : Option Val} (h : ret cx v = .ok code) :
    ∀ x ∈ code, Straight cx i (.ret v) x := by
  unfold ret at h
  split at h
  · cases h
    exact List.forall_mem_singleton.2 (.ret none)
  · next w =>
    obtain ⟨c, hc, h⟩ := bind_eq_ok.1 h
    cases h
    exact List.forall_mem_append.2
      ⟨straight_moveInto (.result w) hc, List.forall_mem_singleton.2 (.ret (some w))⟩

/-! ## Calls -/

section Call

variable {r : Option Val} {f : String} {args : List Val} {destroy : RegSet}

/-- Passing one argument is straight code. -/
theorem straight_passArg {k : Nat} {d : Reg} {v : Val} (hset : cx.sets[f]? = some destroy)
    (hd : Computes cx (.call r f args) d)
    (h : passArg cx (Clobber.saved cx.placed i destroy) k d v = .ok code) :
    ∀ x ∈ code, Straight cx i (.call r f args) x := by
  unfold passArg at h
  -- An operand that is saved already is read from its slot; otherwise its register still has
  -- it.
  split at h
  · cases h
    exact List.forall_mem_singleton.2 (.imm hd _)
  · split at h
    · exact straight_moveInto hd h
    · split at h
      · cases h
      · split at h
        · split at h
          · next j hj =>
            cases h
            exact List.forall_mem_singleton.2
              (.savedArg hd hset (List.idxOf?_eq_some_iff.1 hj).1)
          · cases h
        · exact straight_moveInto hd h
      · exact straight_moveInto hd h

/-- The arguments from number `k` on. -/
theorem straight_passArgs {vs : List Val} {k : Nat} (hset : cx.sets[f]? = some destroy)
    (hcount : args.length ≤ Reg.argCount) (hk : k + vs.length = args.length)
    (h : passArgs cx (Clobber.saved cx.placed i destroy) k vs = .ok code) :
    ∀ x ∈ code, Straight cx i (.call r f args) x := by
  -- On the arguments that are left, of which the first has number `k`.
  induction vs generalizing k code with
  | nil =>
    cases h
    exact List.forall_mem_nil _
  | cons v vs ih =>
    rw [List.length_cons] at hk
    unfold passArgs at h
    obtain ⟨c₁, h₁, h⟩ := bind_eq_ok.1 h
    obtain ⟨c₂, h₂, h⟩ := bind_eq_ok.1 h
    cases h
    exact List.forall_mem_append.2
      ⟨straight_passArg hset (.arg (by omega) hcount) h₁, ih (by omega) h₂⟩

/-- The saves before a call are straight code. -/
theorem straight_saveCode (hset : cx.sets[f]? = some destroy) :
    ∀ x ∈ saveCode cx (Clobber.saved cx.placed i destroy), Straight cx i (.call r f args) x := by
  intro x hx
  obtain ⟨⟨q, k⟩, hq, rfl⟩ := List.mem_map.1 hx
  exact .save hset (List.mem_zipIdx_iff_getElem?.1 hq)

/-- The restores behind a call are straight code. -/
theorem straight_restoreCode (hset : cx.sets[f]? = some destroy) (result : Option Reg) :
    ∀ x ∈ restoreCode cx (Clobber.saved cx.placed i destroy) result,
      Straight cx i (.call r f args) x := by
  intro x hx
  obtain ⟨⟨q, k⟩, hq, rfl⟩ := List.mem_map.1 hx
  exact .restore hset (List.mem_zipIdx_iff_getElem?.1 (List.mem_of_mem_filter hq))

end Call

/-- The result that a call is to deliver: the one that is read. -/
def wanted (cx : Context) (i : Nat) (ret : Option Val) : Option Val :=
  ret.filter fun v => !unread cx i v

/-- The parts of the code of a call. -/
theorem call_parts {ret : Option Val} {callee : String} {args : List Val}
    (h : call cx i ret callee args = .ok code) : ∃ destroy pass result,
      cx.sets[callee]? = some destroy ∧ args.length ≤ Reg.argCount ∧
      passArgs cx (Clobber.saved cx.placed i destroy) 0 args = .ok pass ∧
      (∀ v, wanted cx i ret = some v → takeResult cx v = .ok result) ∧
      (wanted cx i ret = none → result = []) ∧
      code = saveCode cx (Clobber.saved cx.placed i destroy) ++ pass ++ [Instr.call callee] ++ result ++
        restoreCode cx (Clobber.saved cx.placed i destroy)
          ((wanted cx i ret).bind (resultReg? cx)) := by
  unfold call at h
  split at h
  · cases h
  · next destroy hd =>
    split at h
    · cases h
    · next hcount =>
      obtain ⟨pass, hpass, h⟩ := bind_eq_ok.1 h
      rw [← wanted] at h
      -- Nothing is taken when nobody wants the result.
      cases hw : wanted cx i ret with
      | none =>
        rw [hw] at h
        cases h
        exact ⟨destroy, pass, [], hd, by omega, hpass, fun v hv => (nomatch hv), fun _ => rfl, rfl⟩
      | some v =>
        rw [hw] at h
        obtain ⟨result, hresult, h⟩ := bind_eq_ok.1 h
        cases h
        exact ⟨destroy, pass, result, hd, by omega, hpass,
          fun v' hv => by cases hv; exact hresult, fun hn => (nomatch hn), rfl⟩

/-- A call has straight code before it, which passes the arguments, and after it. -/
theorem call_sides {ret : Option Val} {callee : String} {args : List Val}
    (h : call cx i ret callee args = .ok code) :
    ∃ pre post, (∀ x ∈ pre, Straight cx i (.call ret callee args) x) ∧
      (∀ x ∈ post, Straight cx i (.call ret callee args) x) ∧ code = pre ++ Instr.call callee :: post := by
  obtain ⟨destroy, pass, result, hset, hcount, hpass, hsome, hnone, rfl⟩ := call_parts h
  -- Taking the result is a move and maybe a store.
  have hresult : ∀ x ∈ result, Straight cx i (.call ret callee args) x := by
    cases hw : wanted cx i ret with
    | none =>
      rw [hnone hw]
      exact List.forall_mem_nil _
    | some v =>
      have hr := hsome v hw
      unfold takeResult at hr
      obtain ⟨d, hd, hr⟩ := bind_eq_ok.1 hr
      cases hr
      obtain ⟨hret, -⟩ := Option.filter_eq_some_iff.1 hw
      have hcomputes : Computes cx (.call ret callee args) d := .dst hret hd
      exact List.forall_mem_cons.2 ⟨.move hcomputes _, straight_finish v d⟩
  have hpass : ∀ x ∈ pass, Straight cx i (.call ret callee args) x :=
    straight_passArgs hset hcount (Nat.zero_add _) hpass
  have hrestore : ∀ x ∈ restoreCode cx (Clobber.saved cx.placed i destroy)
      ((wanted cx i ret).bind (resultReg? cx)), Straight cx i (.call ret callee args) x :=
    straight_restoreCode hset _
  refine ⟨_, _, List.forall_mem_append.2 ⟨straight_saveCode hset, hpass⟩,
    List.forall_mem_append.2 ⟨hresult, hrestore⟩, ?_⟩
  rw [List.append_assoc, List.append_assoc]
  rfl

/-! ## Zero fills -/

/-- The part of a zeroing loop before its label: the first address and the one to stop at. -/
def loopHead (slot span : Int) : List Instr :=
  [.addrStack Reg.scratch0 slot] ++
    (if immOverflows (wrap64 (4 * span)) then
      [.imm Reg.scratch1 (wrap64 (4 * span)), .binary Reg.scratch1 .add Reg.scratch0 Reg.scratch1]
    else [.addImm Reg.scratch1 Reg.scratch0 (wrap64 (4 * span))])

/-- One turn of a zeroing loop. -/
def loopTurn (loop : Int) : List Instr :=
  [.store Reg.scratch0 0 Reg.x0, .addImm Reg.scratch0 Reg.scratch0 4,
    .branch Reg.scratch0 Reg.scratch1 .lt loop]

theorem zeroLoop_eq (loop slot span : Int) :
    zeroLoop loop slot span = loopHead slot span ++ (.label loop :: loopTurn loop) := rfl

/-- The two forms of a zero fill. -/
theorem zeroFill_parts {loop : Int} {v : Val} (h : zeroFill cx loop v = .ok code) :
    ∃ id l, v = .var id ∧ cx.placed.arrays[id]? = some l ∧
      (drawsLabel cx (.zeroFill v) = false ∧
          code = (List.range l.span.toNat).map (fun (k : Nat) =>
            .storeStack Reg.x0 (wrap64 (l.slot + k))) ∨
        drawsLabel cx (.zeroFill v) = true ∧ code = zeroLoop loop l.slot l.span) := by
  unfold zeroFill at h
  split at h
  · next id =>
    split at h
    -- Short arrays are zeroed word by word, long ones in a loop.
    · split at h <;> cases h
    · next l hl =>
      refine ⟨id, l, rfl, hl, ?_⟩
      split at h <;> cases h
      · next hun => exact Or.inl ⟨by simp [drawsLabel, hl, hun], rfl⟩
      · next hun => exact Or.inr ⟨by simpa [drawsLabel, hl] using hun, rfl⟩
  · cases h

/-- The size of a large array is added from a register, and all other constants of a loop are fixed. -/
theorem transfer_loopHead {id : VarId} {l : Loc} (hl : cx.placed.arrays[id]? = some l) :
    ∀ x ∈ loopHead l.slot l.span, Transfer cx x := by
  unfold loopHead
  refine List.forall_mem_cons.2 ⟨.addrStack scratch0_scratch hl, ?_⟩
  split
  · exact List.forall_mem_cons.2 ⟨.offFrame (.imm scratch1_scratch _),
      List.forall_mem_singleton.2 (.offFrame (.add scratch1_scratch _ _))⟩
  · next hsmall =>
    exact List.forall_mem_singleton.2
      (.offFrame (.addImm scratch1_scratch _ (Bool.not_eq_true _ ▸ hsmall)))

/-- What the clearing loop is made of. -/
theorem made_zeroLoop {v : Val} {id : VarId} {l : Loc} (hl : cx.placed.arrays[id]? = some l)
    (loop : Int) : ∀ x ∈ zeroLoop loop l.slot l.span, Made cx i (.zeroFill v) x := by
  rw [zeroLoop_eq, loopTurn]
  simp only [List.forall_mem_append, List.forall_mem_cons]
  refine ⟨fun x hx => .straight (.transfer (transfer_loopHead hl x hx)), .loopLabel v loop, ?_, ?_,
    .loopEnd v loop, List.forall_mem_nil _⟩
  · exact .straight (.transfer (.offFrame (.store _ _ (by decide))))
  · exact .straight (.transfer (.offFrame (.addImm scratch0_scratch _ (by decide))))

/-- What the clearing of an array is made of, be it unrolled or a loop. -/
theorem made_zeroFill {loop : Int} {v : Val} (h : zeroFill cx loop v = .ok code) :
    ∀ x ∈ code, Made cx i (.zeroFill v) x := by
  obtain ⟨id, l, -, hl, ⟨-, rfl⟩ | ⟨-, rfl⟩⟩ := zeroFill_parts h
  · intro x hx
    obtain ⟨k, hk, rfl⟩ := List.mem_map.1 hx
    exact .straight (.zeroWord hl (List.mem_range.1 hk))
  · exact made_zeroLoop hl loop

/-! ## All statements -/

/-- What the code of any statement is made of. The facts about lowered programs are read
off this list. -/
theorem made_of_stmt {fresh : Int} (h : stmt cx fresh i st = .ok code) :
    ∀ x ∈ code, Made cx i st x := by
  unfold stmt at h
  split at h
  · cases h
    exact List.forall_mem_nil _
  -- One case for each kind of statement; only branches, jumps, labels and calls leave the
  -- straight line.
  · cases st with
    | binary d l op r => exact fun x hx => .straight (straight_binary h x hx)
    | unary d op v => exact fun x hx => .straight (straight_unary h x hx)
    | move d v => exact fun x hx => .straight (straight_move h x hx)
    | store b off v => exact fun x hx => .straight (straight_store h x hx)
    | load d b off => exact fun x hx => .straight (straight_load h x hx)
    | ret v => exact fun x hx => .straight (straight_ret h x hx)
    | branch l rel r t =>
      obtain ⟨pre, x, y, hpre, rfl⟩ := branch_parts h
      exact List.forall_mem_append.2 ⟨fun z hz => .straight (.transfer (hpre z hz)),
        List.forall_mem_singleton.2 (.branch l rel r t x y)⟩
    | jump l =>
      cases h
      exact List.forall_mem_singleton.2 (.jump l)
    | label l =>
      cases h
      exact List.forall_mem_singleton.2 (.label l)
    | call r f args =>
      obtain ⟨pre, post, hpre, hpost, rfl⟩ := call_sides h
      exact List.forall_mem_append.2 ⟨fun x hx => .straight (hpre x hx),
        List.forall_mem_cons.2 ⟨.call r f args, fun x hx => .straight (hpost x hx)⟩⟩
    | zeroFill a => exact made_zeroFill h

/-! ## Functions and programs -/

/-- The code of a list of statements is that of the first and then that of the others,
with the label counter where the first left it. -/
theorem stmts_cons {c c' : Counters} {s : Stmt} {ss : List Stmt}
    (h : stmts cx c i (s :: ss) = .ok (code, c')) : ∃ own rest,
      stmt cx c.labels i s = .ok own ∧ stmts cx (advance cx c s) (i + 1) ss = .ok (rest, c') ∧
        code = own ++ rest := by
  unfold stmts at h
  split at h
  · cases h
  · next own hown =>
    split at h
    · cases h
    · next hrest =>
      cases h
      exact ⟨own, _, hown, hrest, rfl⟩

/-- **The code of statements** consists of the instructions that are listed for them. -/
theorem exists_made_of_mem {c c' : Counters} {ss : List Stmt} (h : stmts cx c i ss = .ok (code, c'))
    {x : Instr} (hx : x ∈ code) : ∃ k s, ss[k]? = some s ∧ Made cx (i + k) s x := by
  induction ss generalizing c i code with
  | nil =>
    cases h
    cases hx
  | cons s ss ih =>
    obtain ⟨own, rest, hown, hrest, rfl⟩ := stmts_cons h
    -- From the first statement, or from one of the rest.
    rcases List.mem_append.1 hx with hx | hx
    · exact ⟨0, s, rfl, made_of_stmt hown x hx⟩
    · obtain ⟨k, t, ht, hmade⟩ := ih hrest hx
      rw [Nat.add_right_comm] at hmade
      exact ⟨k + 1, t, ht, hmade⟩

/-- What the code of a function is made of. -/
theorem func_parts {c c' : Counters} {f : CodeFunc} (h : func cx c = .ok (f, c')) :
    stmts cx c 0 cx.placed.func.stmts = .ok (f.body, c') ∧ f.name = cx.placed.func.name ∧
      f.stack = wrap64 (cx.placed.spillSize + Clobber.callerSave cx.sets cx.placed) := by
  unfold func at h
  split at h
  · cases h
  · next hbody =>
    cases h
    exact ⟨hbody, rfl, rfl⟩

/-- A function has hand-written code or that of its statements. -/
theorem funcOrBuiltin_cases {c c' : Counters} {f : CodeFunc} (h : funcOrBuiltin cx c = .ok (f, c')) :
    (∃ name b, cx.placed.func.builtin = some name ∧ Builtin.find? name = some b ∧
      b.lower c = (f, c')) ∨
    (cx.placed.func.builtin = none ∧ func cx c = .ok (f, c')) := by
  unfold funcOrBuiltin at h
  split at h
  · next name hname =>
    split at h
    · next b hb =>
      cases h
      exact Or.inl ⟨name, b, hname, hb, rfl⟩
    · cases h
  · next hnone =>
    split at h
    · cases h
    · next hfunc =>
      cases h
      exact Or.inr ⟨hnone, hfunc⟩

/-- A function that is not marked as built in is lowered from its own body. -/
theorem func_of_own {c c' : Counters} {f : CodeFunc} (h : funcOrBuiltin cx c = .ok (f, c'))
    (hown : cx.placed.func.builtin = none) : func cx c = .ok (f, c') := by
  rcases funcOrBuiltin_cases h with ⟨name, b, hname, -⟩ | ⟨-, hfunc⟩
  · rw [hown] at hname
    cases hname
  · exact hfunc

/-- The functions are lowered one after the other. -/
theorem funcs_cons {vars : VarTable} {sets : ClobberSets} {c : Counters} {p : Placement}
    {ps : List Placement} {fs : List CodeFunc} (h : funcs vars sets c (p :: ps) = .ok fs) :
    ∃ f c' rest, funcOrBuiltin { vars, sets, placed := p } c = .ok (f, c') ∧
      funcs vars sets c' ps = .ok rest ∧ fs = f :: rest := by
  unfold funcs at h
  split at h
  · cases h
  · next f c' hf =>
    split at h
    · cases h
    · next rest hrest =>
      cases h
      exact ⟨f, c', rest, hf, hrest, rfl⟩

/-- What the code of a program is made of. -/
theorem program_parts {p : Program} {sets : ClobberSets} {ps : List Placement} {code : Code}
    (h : program p sets ps = .ok code) : ∃ gs fs, globals? p = some gs ∧
      funcs p.vars sets p.counters ps = .ok fs ∧
      code.globals = gs.map (fun g => globalVar p g.1 g.2) ∧
      code.funcs = (entry p gs).install (fs.zip (ps.map fun q => q.func.name == "main")) := by
  unfold program at h
  split at h
  · cases h
  · next gs hgs =>
    obtain ⟨fs, hfs, h⟩ := bind_eq_ok.1 h
    simp only at h
    split at h
    · cases h
    · cases h
      exact ⟨gs, fs, hgs, hfs, rfl, rfl⟩

/-! ## Initial values -/

/-- The base register moves where the distance to the next initial value is large. -/
theorem offFrame_of_mem_initPieces (is : List Init) (base : Int) :
    ∀ piece ∈ initPieces base is, ∀ x ∈ piece, x.OffFrame := by
  -- A constant is loaded and stored; only the pointer decides between the two cases.
  have hvalue : ∀ n delta : Int, immOverflows delta = false → ∀ x ∈ [Instr.imm Reg.scratch0 n,
      .store Reg.scratch1 delta Reg.scratch0], x.OffFrame := fun n delta hdelta =>
    List.forall_mem_cons.2 ⟨.imm scratch0_scratch n, List.forall_mem_singleton.2 (.store _ _ hdelta)⟩
  induction is generalizing base with
  | nil => exact List.forall_mem_nil _
  | cons i is ih =>
    simp only [initPieces]
    split
    · refine List.forall_mem_cons.2 ⟨List.forall_mem_cons.2 ⟨.imm scratch0_scratch _, ?_⟩, ?_⟩
      · exact List.forall_mem_singleton.2 (.add scratch1_scratch _ _)
      · exact List.forall_mem_cons.2 ⟨hvalue _ _ (by decide), ih _⟩
    · next hsmall => exact List.forall_mem_cons.2 ⟨hvalue _ _ (Bool.not_eq_true _ ▸ hsmall), ih _⟩

/-- **The code of initial values** computes in scratch registers. -/
theorem offFrame_of_mem_entry {p : Program} {gs : List (VarId × Var)} {x : Instr}
    (hx : x ∈ (entry p gs).code) : x.OffFrame := by
  obtain ⟨piece, hpiece, hx⟩ := List.mem_flatten.1 hx
  obtain ⟨⟨id, v⟩, -, hpiece⟩ := List.mem_flatMap.1 hpiece
  simp only [arrayPieces] at hpiece
  split at hpiece
  · cases hpiece
  · rcases List.mem_cons.1 hpiece with rfl | hpiece
    · rw [List.mem_singleton.1 hx]
      exact .addrGlobal scratch1_scratch _
    · exact offFrame_of_mem_initPieces _ _ piece hpiece x hx

end Lowering

end Tac
