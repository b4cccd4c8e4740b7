import Tac.Proofs.Compiled
import Tac.Proofs.Preserved
import Tac.Proofs.Unwinding

/-!
# Initial values of globals

Scalars have their initial values before the program starts.  Initial values of arrays are stored by
the code at the start of `main`, array by array and by ascending offset, relative to a register that
moves only when the next offset is out of reach.

* **`Image.starts`** — the words at which globals start, one after another.
* **`Memory.Filled`** — some words of memory were written and all others kept.
* **`line_initPieces`** — the moving base: wherever the base register stands, the pieces store each
  value at its offset from the start of the array.
* **`entry_initializes`** — the start of `main` on a fresh machine.
-/

namespace Tac

/-! ## Places of globals -/

namespace Image

section Starts

variable {α β : Type} (size : α → Nat)

/-- Things of given sizes, one after another from `next` on, each with its start. -/
def starts (next : Nat) : List α → List (α × Nat)
  | [] => []
  | x :: xs => (x, next) :: starts (next + size x) xs

/-- The things placed are those of the list, in order. -/
theorem map_fst_starts (next : Nat) (xs : List α) : (starts size next xs).map Prod.fst = xs := by
  induction xs generalizing next with
  | nil => rfl
  | cons x xs ih => rw [starts, List.map_cons, ih]

/-- Things that come from others by a map start where their origins do. -/
theorem starts_map (f : β → α) (next : Nat) (xs : List β) :
    starts size next (xs.map f) = (starts (fun x => size (f x)) next xs).map (Prod.map f id) := by
  induction xs generalizing next with
  | nil => rfl
  | cons x xs ih =>
    rw [List.map_cons, starts, starts, List.map_cons, ih]
    rfl

variable {size}

/-- Everything that is placed lies between where the first starts and where the last ends. -/
theorem starts_bounds {next : Nat} {xs : List α} {z : α × Nat} (hz : z ∈ starts size next xs) :
    next ≤ z.2 ∧ z.2 + size z.1 ≤ next + (xs.map size).sum := by
  -- On the list, with any start.
  induction xs generalizing next with
  | nil => cases hz
  | cons x xs ih =>
    rw [List.map_cons, List.sum_cons]
    rcases List.mem_cons.1 hz with rfl | hz
    · exact ⟨le_rfl, by simp only; omega⟩
    · have := ih hz
      omega

/-- What comes later starts behind. -/
theorem pairwise_starts (next : Nat) (xs : List α) :
    (starts size next xs).Pairwise fun y z => y.2 + size y.1 ≤ z.2 := by
  induction xs generalizing next with
  | nil => exact .nil
  | cons x xs ih => exact .cons (fun z hz => (starts_bounds hz).1) (ih _)

/-- Different things share no place. -/
theorem disjoint_starts {next : Nat} {xs : List α} {y z : α × Nat} (hy : y ∈ starts size next xs)
    (hz : z ∈ starts size next xs) {i j : Nat} (hi : i < size y.1) (hj : j < size z.1)
    (h : y.2 + i = z.2 + j) : y = z := by
  let apart (y z : α × Nat) : Prop := y.2 + size y.1 ≤ z.2 ∨ z.2 + size z.1 ≤ y.2
  have : Std.Symm apart := ⟨fun _ _ h => h.symm⟩
  have hpair : (starts size next xs).Pairwise apart := (pairwise_starts next xs).imp Or.inl
  by_contra hne
  have hsep : apart y z := hpair.forall hy hz hne
  simp only [apart] at hsep
  omega

end Starts

/-- The layout ends behind the words of all the globals. -/
theorem layout_snd (next : Nat) (addrs : Std.TreeMap Int Word) (gs : List GlobalVar) :
    (layout next addrs gs).2 = next + (gs.map globalWords).sum := by
  induction gs generalizing next addrs with
  | nil => rfl
  | cons g gs ih =>
    rw [layout, ih, List.map_cons, List.sum_cons, Nat.add_assoc]

/-- The layout gives no address to a number that no global has. -/
theorem getElem?_layout_of_not_mem {next : Nat} {addrs : Std.TreeMap Int Word} {gs : List GlobalVar}
    {i : Int} (hi : i ∉ gs.map GlobalVar.index) : (layout next addrs gs).1[i]? = addrs[i]? := by
  induction gs generalizing next addrs with
  | nil => rfl
  | cons g gs ih =>
    rw [List.map_cons, List.mem_cons, not_or] at hi
    rw [layout, ih hi.2, Std.TreeMap.getElem?_insert,
      if_neg (by simpa using fun h => hi.1 h.symm)]

/-- A global has the address of its first word. -/
theorem getElem?_layout {next : Nat} {addrs : Std.TreeMap Int Word} {gs : List GlobalVar}
    (hnodup : (gs.map GlobalVar.index).Nodup) {z : GlobalVar × Nat}
    (hz : z ∈ starts globalWords next gs) :
    (layout next addrs gs).1[z.1.index]? = some (word (4 * z.2)) := by
  -- On the globals; the number of the first one does not come again, so its address is not
  -- written over.
  induction gs generalizing next addrs with
  | nil => cases hz
  | cons g gs ih =>
    rw [List.map_cons, List.nodup_cons] at hnodup
    rw [layout]
    rcases List.mem_cons.1 hz with rfl | hz
    · rw [getElem?_layout_of_not_mem hnodup.1, Std.TreeMap.getElem?_insert_self]
    · exact ih hnodup.2 hz

end Image

/-! ## Written words -/

namespace Memory

/-- A memory of zeros. -/
def blank (size : Nat) : Memory := { size }

/-- The words `ws`, each a position with a value, were written and all others kept. -/
structure Filled (ws : List (Nat × Word)) (μ μ' : Memory) : Prop where
  size : μ'.size = μ.size
  written : ∀ w ∈ ws, μ'.get w.1 = w.2
  kept : ∀ k, (∀ w ∈ ws, w.1 ≠ k) → μ'.get k = μ.get k

variable {μ μ₁ μ' : Memory} {ws ws' : List (Nat × Word)}

theorem Filled.nil (μ : Memory) : Filled [] μ μ := ⟨rfl, nofun, fun _ _ => rfl⟩

/-- Writing one word fills that word. -/
theorem filled_set (μ : Memory) (k : Nat) (x : Word) : Filled [(k, x)] μ (μ.set k x) := by
  refine ⟨rfl, fun w hw => ?_, fun j hj => ?_⟩
  · rw [List.mem_singleton.1 hw, get_set, if_pos rfl]
  · rw [get_set, if_neg (hj _ (List.mem_singleton_self _))]

/-- Writes to different places add up. -/
theorem Filled.append (h₁ : Filled ws μ μ₁) (h₂ : Filled ws' μ₁ μ')
    (hne : ∀ w ∈ ws, ∀ w' ∈ ws', w'.1 ≠ w.1) : Filled (ws ++ ws') μ μ' := by
  refine ⟨h₂.size.trans h₁.size, fun w hw => ?_, fun k hk => ?_⟩
  · rcases List.mem_append.1 hw with hw | hw
    · rw [h₂.kept w.1 (hne w hw), h₁.written w hw]
    · exact h₂.written w hw
  · rw [h₂.kept k fun w hw => hk w (List.mem_append_right _ hw),
      h₁.kept k fun w hw => hk w (List.mem_append_left _ hw)]

end Memory

/-! ## One array -/

namespace Machine

variable {im : Image} {f : LoadedFunc} {m m₁ m' : Machine}

/-- The address of a word is accepted. -/
theorem wordIndex?_word {k : Nat} (h0 : 0 < k) (h31 : 4 * (k : Int) < 2147483648)
    (hk : k < m.mem.size) : m.wordIndex? (word (4 * k)) = some k := by
  have hint : (word (4 * k)).toInt = 4 * k := by
    rw [toInt_word, Int.bmod_eq_of_le_mul_two] <;> omega
  unfold wordIndex?
  simp only [hint]
  rw [if_neg (by omega)]
  congr 1
  omega

end Machine

namespace Lowering

open Machine

variable (im : Image) (f : LoadedFunc) {m : Machine} {start : Nat}

/-- The word of an array that an initial value is for. -/
def element (i : Init) : Nat := (i.off / 4).toNat

/-- The initial value is for a word that can be addressed; the array starts at word `start` of a memory
of `size` words. -/
structure Reachable (start size : Nat) (i : Init) : Prop where
  nonneg : 0 ≤ i.off
  aligned : i.off % 4 = 0
  addressed : 4 * (start : Int) + i.off < 2147483648
  inside : start + element i < size

/-- The byte offset of an initializer is that of the element it is for. -/
theorem Reachable.address {size : Nat} {i : Init} (h : Reachable start size i) :
    4 * (start : Int) + i.off = 4 * ((start + element i : Nat) : Int) := by
  have := h.nonneg
  have := h.aligned
  unfold element
  omega

/-- A value is stored at its offset from the base register. -/
theorem line_value {i : Init} {base off : Int} (hz : m.val Reg.x0 = 0) (hstart : 0 < start)
    (hbase : m.val Reg.scratch1 = word (4 * start + base)) (hi : Reachable start m.mem.size i)
    (hoff : word off = word (i.off - base)) (hfits : immOverflows off = false) :
    ∃ m', line? im f m [.imm Reg.scratch0 i.val, .store Reg.scratch1 off Reg.scratch0] = some m' ∧
      m.mem.Filled [(start + element i, word i.val)] m'.mem ∧ Keeps (· = Reg.scratch0) m m' := by
  obtain ⟨m₁, hline₁, hval, hmem, hkeep₁⟩ :
      Writes im f m [.imm Reg.scratch0 i.val] Reg.scratch0 (word i.val) :=
    writes_imm hz (by decide) (by decide) i.val
  have hz₁ : m₁.val Reg.x0 = 0 := (hkeep₁.val _ (by decide) (by decide)).trans hz
  have hbase₁ : m₁.val Reg.scratch1 = word (4 * start + base) :=
    (hkeep₁.val _ (by decide) (by decide)).trans hbase
  -- The base plus the offset is the address of the element.
  have hindex : m₁.wordIndex? (m₁.val Reg.scratch1 + word off) = some (start + element i) := by
    have haddr : m₁.val Reg.scratch1 + word off = word (4 * ((start + element i : Nat) : Int)) := by
      rw [hbase₁, hoff, ← word_add, ← hi.address]
      congr 1
      omega
    rw [haddr]
    refine wordIndex?_word (by omega) ?_ ?_
    · rw [← hi.address]
      exact hi.addressed
    · rw [hmem]
      exact hi.inside
  -- The store leaves the base register where it points.
  obtain ⟨m₂, hline₂, hmem₂, hkeep₂⟩ : Stores im f m₁ [.store Reg.scratch1 off Reg.scratch0]
      (start + element i) (m₁.val Reg.scratch0) :=
    stores_store hz₁ hfits (by decide) (by decide) hindex
  refine ⟨m₂, line?_append_of hline₁ hline₂, ?_,
    hkeep₁.trans (hkeep₂.mono fun _ h => h.elim)⟩
  rw [hmem₂, hval, hmem]
  exact Memory.filled_set ..

/-- The base register moves to another offset. -/
theorem line_rebase {base off delta : Int} (hz : m.val Reg.x0 = 0)
    (hbase : m.val Reg.scratch1 = word (4 * start + base))
    (hdelta : word delta = word (off - base)) :
    ∃ m', line? im f m [.imm Reg.scratch0 delta,
        .binary Reg.scratch1 .add Reg.scratch1 Reg.scratch0] = some m' ∧
      m'.val Reg.scratch1 = word (4 * start + off) ∧ m'.mem = m.mem ∧ Keeps Reg.Scratch m m' := by
  obtain ⟨m₁, hline₁, hval, hmem₁, hkeep₁⟩ :
      Writes im f m [.imm Reg.scratch0 delta] Reg.scratch0 (word delta) :=
    writes_imm hz (by decide) (by decide) delta
  have hz₁ : m₁.val Reg.x0 = 0 := (hkeep₁.val _ (by decide) (by decide)).trans hz
  have hbase₁ : m₁.val Reg.scratch1 = word (4 * start + base) :=
    (hkeep₁.val _ (by decide) (by decide)).trans hbase
  -- The difference is added to the base, which wraps as the offset did.
  obtain ⟨m₂, hline₂, hval₂, hmem₂, hkeep₂⟩ :
      Writes im f m₁ [.binary Reg.scratch1 .add Reg.scratch1 Reg.scratch0] Reg.scratch1
        (m₁.val Reg.scratch1 + m₁.val Reg.scratch0) :=
    writes_binary hz₁ (by decide) (by decide) (by decide) (by decide) rfl
  refine ⟨m₂, line?_append_of hline₁ hline₂, ?_, hmem₂.trans hmem₁,
    (hkeep₁.mono fun _ h => Or.inl h).trans (hkeep₂.mono fun _ h => Or.inr h)⟩
  rw [hval₂, hbase₁, hval, hdelta, ← word_add]
  congr 1
  omega

/-- The words of an array that have initial values, with these values. -/
def fills (start : Nat) (is : List Init) : List (Nat × Word) :=
  is.map fun i => (start + element i, word i.val)

theorem word_sub_wrap (off base : Int) : word (wrap64 (off - base)) = word (off - base) :=
  word_wrap64 _

/-- **The moving base**: the pieces store every value at its offset from the start of the array, if
the base register holds the address of offset `base`. -/
theorem line_initPieces {is : List Init} {base : Int} (hz : m.val Reg.x0 = 0) (hstart : 0 < start)
    (hbase : m.val Reg.scratch1 = word (4 * start + base))
    (his : ∀ i ∈ is, Reachable start m.mem.size i) (hnodup : (is.map Init.off).Nodup) :
    ∃ m', line? im f m (initPieces base is).flatten = some m' ∧
      m.mem.Filled (fills start is) m'.mem ∧ Keeps Reg.Scratch m m' := by
  -- On the initializers, with the base register pointing anywhere: an offset that does not fit
  -- moves it.
  induction is generalizing m base with
  | nil => exact ⟨m, rfl, Memory.Filled.nil _, Keeps.refl ..⟩
  | cons i is ih =>
    obtain ⟨hi, his⟩ := List.forall_mem_cons.1 his
    obtain ⟨hnew, hnodup⟩ := List.nodup_cons.1 hnodup
    -- no later value is for the same word
    have hne : ∀ w ∈ [(start + element i, word i.val)], ∀ w' ∈ fills start is, w'.1 ≠ w.1 := by
      intro w hw w' hw' heq
      rw [List.mem_singleton.1 hw] at heq
      obtain ⟨j, hj, rfl⟩ := List.mem_map.1 hw'
      apply hnew
      rw [← show j.off = i.off by
        have := hi.address
        have := (his j hj).address
        simp only at heq
        omega]
      exact List.mem_map_of_mem hj
    -- the value, from where the base register stands, and the rest
    have hrest : ∀ {m₁ : Machine} {base₁ off : Int}, m₁.val Reg.x0 = 0 → m₁.mem = m.mem →
        m₁.val Reg.scratch1 = word (4 * start + base₁) → word off = word (i.off - base₁) →
        immOverflows off = false → ∃ m', line? im f m₁
            ([Instr.imm Reg.scratch0 i.val, Instr.store Reg.scratch1 off Reg.scratch0] ++
              (initPieces base₁ is).flatten) = some m' ∧
          m.mem.Filled (fills start (i :: is)) m'.mem ∧ Keeps Reg.Scratch m₁ m' := by
      intro m₁ base₁ off hz₁ hmem₁ hbase₁ hoff hfits
      obtain ⟨m₂, hline₂, hfill₂, hkeep₂⟩ := line_value im f hz₁ hstart hbase₁
        (hmem₁ ▸ hi) hoff hfits
      obtain ⟨m', hline', hfill', hkeep'⟩ := ih (m := m₂)
        ((hkeep₂.val _ (by decide) (by decide)).trans hz₁)
        ((hkeep₂.val _ (by decide) (by decide)).trans hbase₁)
        (by rw [hkeep₂.size, hmem₁]; exact his) hnodup
      exact ⟨m', line?_append_of hline₂ hline', (hmem₁ ▸ hfill₂).append hfill' hne,
        (hkeep₂.mono fun _ h => Or.inl h).trans hkeep'⟩
    simp only [initPieces]
    -- Either the base is moved first and the value goes to offset 0, or the offset fits as it
    -- is.
    split
    · next hover =>
      obtain ⟨m₁, hline₁, hval₁, hmem₁, hkeep₁⟩ := line_rebase im f hz hbase
        (word_sub_wrap i.off base)
      obtain ⟨m', hline', hfill', hkeep'⟩ := hrest
        ((hkeep₁.val _ (by decide) (by simp [Reg.Scratch]; decide)).trans hz) hmem₁ hval₁
        (show word 0 = _ by rw [Int.sub_self]) (by decide)
      exact ⟨m', line?_append_of hline₁ hline', hfill', hkeep₁.trans hkeep'⟩
    · next hfits =>
      exact hrest hz rfl hbase (word_sub_wrap i.off base) (by simpa using hfits)

/-! ## All globals -/

/-- The words that a global takes. -/
def globalSize (g : VarId × Var) : Nat := max g.2.elems.toNat 1

/-- Every global takes a word at least. -/
theorem globalSize_pos (g : VarId × Var) : 0 < globalSize g := by
  unfold globalSize
  omega

/-- What is asked of the globals `gs` of a program and of its initial values: different numbers, array
values for different words inside their arrays, and words that all have an address. -/
structure GlobalsFit (p : Program) (gs : List (VarId × Var)) : Prop where
  indices : (gs.map fun g => g.2.index).Nodup
  inside : ∀ i ∈ p.inits, 0 ≤ i.off → ∃ v, p.vars.get? i.var = some v ∧ v.isArray = true ∧
    i.off % 4 = 0 ∧ i.off < 4 * v.elems
  once : ((p.inits.filter fun i => 0 ≤ i.off).map fun i => (i.var, i.off)).Nodup
  addressed : (gs.map globalSize).sum < 536870912

/-- The value that element `j` of a global array starts with. -/
def elementInit (p : Program) (id : VarId) (j : Nat) : Int :=
  ((p.inits.find? fun i => i.var = id ∧ i.off = 4 * (j : Int)).map Init.val).getD 0

/-- The value that a global scalar starts with: of several the last counts. -/
def scalarInit (p : Program) (id : VarId) : Int :=
  ((p.inits.filter fun i => i.var = id ∧ i.off < 0).getLast?.map Init.val).getD 0

/-- The words that have initial values of arrays, for globals with their first words. -/
def arrayFills (p : Program) (zs : List ((VarId × Var) × Nat)) : List (Nat × Word) :=
  zs.flatMap fun z => fills z.2 (arrayInits p z.1.1)

/-- The words of scalars with their initial values. -/
def scalarFills (p : Program) (zs : List ((VarId × Var) × Nat)) : List (Nat × Word) :=
  zs.flatMap fun z => if z.1.2.isArray then [] else [(z.2, word (scalarInit p z.1.1))]

/-- The initializers of an array that make it into the entry code. -/
theorem mem_arrayInits {p : Program} {id : VarId} {i : Init} :
    i ∈ arrayInits p id ↔ i ∈ p.inits ∧ i.var = id ∧ 0 ≤ i.off ∧ i.val ≠ 0 := by
  simp [arrayInits, List.mem_mergeSort]

/-- The words that the entry code writes. -/
theorem mem_arrayFills {p : Program} {zs : List ((VarId × Var) × Nat)} {w : Nat × Word} :
    w ∈ arrayFills p zs ↔
      ∃ z ∈ zs, ∃ i ∈ arrayInits p z.1.1, w = (z.2 + element i, word i.val) := by
  simp only [arrayFills, fills, List.mem_flatMap, List.mem_map]
  exact ⟨fun ⟨z, hz, i, hi, h⟩ => ⟨z, hz, i, hi, h.symm⟩,
    fun ⟨z, hz, i, hi, h⟩ => ⟨z, hz, i, hi, h.symm⟩⟩

/-- The words that are there from the start. -/
theorem mem_scalarFills {p : Program} {zs : List ((VarId × Var) × Nat)} {w : Nat × Word} :
    w ∈ scalarFills p zs ↔
      ∃ z ∈ zs, z.1.2.isArray = false ∧ w = (z.2, word (scalarInit p z.1.1)) := by
  simp only [scalarFills, List.mem_flatMap]
  refine exists_congr fun z => and_congr_right fun _ => ?_
  cases z.1.2.isArray <;> simp

/-- A global comes with its own entry of the table. -/
theorem get?_of_mem_globals {p : Program} {gs : List (VarId × Var)} (hgs : globals? p = some gs)
    {g : VarId × Var} (hg : g ∈ gs) : p.vars.get? g.1 = some g.2 := by
  unfold globals? at hgs
  generalize p.globals = ids at hgs
  -- On the numbers of the globals, of which each must be in the table.
  induction ids generalizing gs with
  | nil =>
    cases hgs
    cases hg
  | cons id ids ih =>
    rw [List.mapM_cons] at hgs
    obtain ⟨z, hz, hgs⟩ := Option.bind_eq_some_iff.1 hgs
    obtain ⟨zs, hzs, hgs⟩ := Option.bind_eq_some_iff.1 hgs
    cases hgs
    rcases List.mem_cons.1 hg with rfl | hg
    · obtain ⟨v, hv, rfl⟩ := Option.map_eq_some_iff.1 hz
      exact hv
    · exact ih hg hzs

/-- The globals of a program with their first words. -/
def placedGlobals (gs : List (VarId × Var)) : List ((VarId × Var) × Nat) :=
  Image.starts globalSize 1 gs

theorem start_pos {gs : List (VarId × Var)} {z : (VarId × Var) × Nat} (hz : z ∈ placedGlobals gs) :
    0 < z.2 := (Image.starts_bounds hz).1

/-- What is placed is a global. -/
theorem mem_of_placed {gs : List (VarId × Var)} {z : (VarId × Var) × Nat}
    (hz : z ∈ placedGlobals gs) : z.1 ∈ gs := by
  rw [← Image.map_fst_starts globalSize 1 gs]
  exact List.mem_map_of_mem hz

/-- Every global is placed. -/
theorem exists_placed {gs : List (VarId × Var)} {g : VarId × Var} (hg : g ∈ gs) :
    ∃ z ∈ placedGlobals gs, z.1 = g := by
  rw [← Image.map_fst_starts globalSize 1 gs] at hg
  exact List.mem_map.1 hg

namespace GlobalsFit

variable {p : Program} {gs : List (VarId × Var)} (h : GlobalsFit p gs)

include h

/-- An array has at most one initializer for each offset. -/
theorem nodup_arrayInits (id : VarId) : ((arrayInits p id).map Init.off).Nodup := by
  have hsub : List.Sublist (p.inits.filter fun i => i.var = id ∧ 0 ≤ i.off ∧ i.val ≠ 0)
      (p.inits.filter fun i => 0 ≤ i.off) :=
    List.monotone_filter_right _ fun i hi => by simp_all
  have honce := h.once.sublist (hsub.map fun i => (i.var, i.off))
  refine ((List.mergeSort_perm _ _).map Init.off).nodup_iff.2 ?_
  refine (List.Nodup.of_map _ honce).map_on fun i hi j hj hoff => ?_
  -- the array is the same, so the pair is
  refine List.inj_on_of_nodup_map honce hi hj ?_
  rw [List.mem_filter, decide_eq_true_iff] at hi hj
  rw [hi.2.1, hj.2.1, hoff]

/-- Two initializers for the same element are the same. -/
theorem init_unique {i j : Init} (hi : i ∈ p.inits) (hj : j ∈ p.inits) (h0 : 0 ≤ i.off)
    (hvar : i.var = j.var) (hoff : i.off = j.off) : i = j := by
  refine List.inj_on_of_nodup_map h.once (List.mem_filter.2 ⟨hi, by simpa using h0⟩)
    (List.mem_filter.2 ⟨hj, by simpa [← hoff] using h0⟩) ?_
  rw [hvar, hoff]

variable (hgs : globals? p = some gs)

include hgs

/-- An initial value of a placed array stands inside it. -/
theorem inside_global {z : (VarId × Var) × Nat} (hz : z ∈ placedGlobals gs) {i : Init}
    (hi : i ∈ arrayInits p z.1.1) : z.1.2.isArray = true ∧ i.off = 4 * (element i : Int) ∧
      (element i : Int) < z.1.2.elems ∧ element i < globalSize z.1 := by
  obtain ⟨hmem, hvar, h0, -⟩ := mem_arrayInits.1 hi
  obtain ⟨v, hv, harray, halign, hlt⟩ := h.inside i hmem h0
  rw [hvar, get?_of_mem_globals hgs (mem_of_placed hz)] at hv
  cases hv
  refine ⟨harray, ?_, ?_, ?_⟩ <;> unfold element <;> try unfold globalSize
  all_goals omega

/-- An initializer of a placed array stays inside it, so that its address can be formed
and its word is there. -/
theorem reachable {z : (VarId × Var) × Nat} (hz : z ∈ placedGlobals gs) {size : Nat}
    (hsize : 1 + (gs.map globalSize).sum ≤ size) {i : Init} (hi : i ∈ arrayInits p z.1.1) :
    Reachable z.2 size i := by
  obtain ⟨-, hoff, -, hlt⟩ := h.inside_global hgs hz hi
  have hbounds := Image.starts_bounds hz
  have := h.addressed
  exact ⟨by omega, by omega, by omega, by omega⟩

end GlobalsFit

/-! ## The code at the start of `main` -/

/-- The code of one array. -/
theorem line_arrayPieces {p : Program} {z : (VarId × Var) × Nat} (hz : m.val Reg.x0 = 0)
    (hstart : 0 < z.2) (haddr : im.globals[z.1.2.index]? = some (word (4 * z.2)))
    (his : ∀ i ∈ arrayInits p z.1.1, Reachable z.2 m.mem.size i)
    (hnodup : ((arrayInits p z.1.1).map Init.off).Nodup) :
    ∃ m', line? im f m (arrayPieces p z.1.1 z.1.2).flatten = some m' ∧
      m.mem.Filled (fills z.2 (arrayInits p z.1.1)) m'.mem ∧ Keeps Reg.Scratch m m' := by
  unfold arrayPieces
  -- An array all of whose values are zero needs no code.
  split
  · next hnone =>
    rw [hnone]
    exact ⟨m, rfl, Memory.Filled.nil _, Keeps.refl ..⟩
  · obtain ⟨m₁, hline₁, hval₁, hmem₁, hkeep₁⟩ :
        Writes im f m [.addrGlobal Reg.scratch1 z.1.2.index] Reg.scratch1 (word (4 * z.2)) :=
      writes_addrGlobal hz (by decide) (by decide) haddr
    have hbase : m₁.val Reg.scratch1 = word (4 * (z.2 : Int) + 0) := by rw [hval₁, Int.add_zero]
    obtain ⟨m', hline', hfill', hkeep'⟩ := line_initPieces im f (m := m₁)
      ((hkeep₁.val _ (by decide) (by decide)).trans hz) hstart hbase (hmem₁ ▸ his) hnodup
    exact ⟨m', line?_append_of hline₁ hline', hmem₁ ▸ hfill',
      (hkeep₁.mono fun _ h => Or.inr h).trans hkeep'⟩

/-- The code of all arrays; `zs` are arrays of which each one ends before the next. -/
theorem line_entry {p : Program} {zs : List ((VarId × Var) × Nat)} (hz : m.val Reg.x0 = 0)
    (hstart : ∀ z ∈ zs, 0 < z.2)
    (haddr : ∀ z ∈ zs, im.globals[z.1.2.index]? = some (word (4 * z.2)))
    (his : ∀ z ∈ zs, ∀ i ∈ arrayInits p z.1.1, Reachable z.2 m.mem.size i)
    (hnodup : ∀ z ∈ zs, ((arrayInits p z.1.1).map Init.off).Nodup)
    (hinside : ∀ z ∈ zs, ∀ i ∈ arrayInits p z.1.1, element i < globalSize z.1)
    (hapart : zs.Pairwise fun y z => y.2 + globalSize y.1 ≤ z.2) :
    ∃ m', line? im f m (zs.flatMap fun z => (arrayPieces p z.1.1 z.1.2).flatten) = some m' ∧
      m.mem.Filled (arrayFills p zs) m'.mem ∧ Keeps Reg.Scratch m m' := by
  -- On the arrays that are left; the invariant is that the words written so far lie before
  -- them.
  induction zs generalizing m with
  | nil => exact ⟨m, rfl, Memory.Filled.nil _, Keeps.refl ..⟩
  | cons z zs ih =>
    rw [List.forall_mem_cons] at hstart haddr his hnodup hinside
    obtain ⟨hfirst, hapart⟩ := List.pairwise_cons.1 hapart
    obtain ⟨m₁, hline₁, hfill₁, hkeep₁⟩ := line_arrayPieces im f hz hstart.1 haddr.1
      his.1 hnodup.1
    obtain ⟨m', hline', hfill', hkeep'⟩ := ih (m := m₁)
      ((hkeep₁.val _ (by decide) (by simp [Reg.Scratch]; decide)).trans hz) hstart.2 haddr.2
      (by rw [hkeep₁.size]; exact his.2) hnodup.2 hinside.2 hapart
    refine ⟨m', line?_append_of hline₁ hline', hfill₁.append hfill' ?_, hkeep₁.trans hkeep'⟩
    -- the words of later arrays are behind those of the first
    intro w hw w' hw' heq
    obtain ⟨i, hi, rfl⟩ := List.mem_map.1 hw
    obtain ⟨z', hz', i', hi', rfl⟩ := mem_arrayFills.1 hw'
    have := hfirst z' hz'
    have := hinside.1 i hi
    simp only at heq
    omega

/-! ## The fresh machine -/

/-- The globals of the code of a program. -/
def codeGlobals (p : Program) (gs : List (VarId × Var)) : List GlobalVar :=
  gs.map fun g => globalVar p g.1 g.2

/-- The words of the lowered globals are those of the globals. -/
theorem sum_globalWords (p : Program) (gs : List (VarId × Var)) :
    ((codeGlobals p gs).map Image.globalWords).sum = (gs.map globalSize).sum := by
  rw [codeGlobals, List.map_map]
  rfl

/-- Every global has the address of its first word. -/
theorem address_of_placed {p : Program} {gs : List (VarId × Var)} {c : Code}
    (hc : c.globals = codeGlobals p gs) (hnodup : (gs.map fun g => g.2.index).Nodup)
    {z : (VarId × Var) × Nat} (hz : z ∈ placedGlobals gs) :
    (Image.ofCode c).globals[z.1.2.index]? = some (word (4 * z.2)) := by
  have hmem : (globalVar p z.1.1 z.1.2, z.2) ∈ Image.starts Image.globalWords 1 c.globals := by
    rw [hc, codeGlobals, Image.starts_map]
    exact List.mem_map.2 ⟨z, hz, rfl⟩
  refine Image.getElem?_layout ?_ hmem
  rw [hc, codeGlobals, List.map_map]
  exact hnodup

/-- The initial value of a scalar is written to its word. -/
theorem initGlobal?_of_address {addrs : Std.TreeMap Int Word} {μ : Memory} {p : Program}
    {z : (VarId × Var) × Nat} (haddr : addrs[z.1.2.index]? = some (word (4 * z.2)))
    (h31 : 4 * (z.2 : Int) < 2147483648) (hsize : z.2 < μ.size) :
    ∃ μ', initGlobal? addrs μ (globalVar p z.1.1 z.1.2) = some μ' ∧
      μ.Filled (scalarFills p [z]) μ' := by
  unfold initGlobal?
  -- Arrays are left to the entry code, scalars are written by the loader.
  cases harray : z.1.2.isArray with
  | true =>
    refine ⟨μ, if_pos harray, ?_⟩
    have : scalarFills p [z] = [] := by simp [scalarFills, harray]
    rw [this]
    exact Memory.Filled.nil μ
  | false =>
    have hplace : Int.tdiv (addrs.getD (globalVar p z.1.1 z.1.2).index 0).toInt 4 = z.2 := by
      rw [Std.TreeMap.getD_eq_getD_getElem?, show (globalVar p z.1.1 z.1.2).index = z.1.2.index from
        rfl, haddr, Option.getD_some, toInt_word, Int.bmod_eq_of_le_mul_two (by omega) (by omega),
        Int.mul_tdiv_cancel_left _ (by decide)]
    refine ⟨μ.set z.2 (word (scalarInit p z.1.1)), ?_, ?_⟩
    · simp only [hplace]
      rw [if_neg (by simp [globalVar, harray]), if_pos (by omega)]
      rfl
    · have : scalarFills p [z] = [(z.2, word (scalarInit p z.1.1))] := by
        simp [scalarFills, harray]
      rw [this]
      exact Memory.filled_set ..

/-- The memory the program is loaded with: every scalar at its address, and nothing else. -/
theorem foldlM_initGlobal? {addrs : Std.TreeMap Int Word} {p : Program}
    {zs : List ((VarId × Var) × Nat)} {μ : Memory}
    (haddr : ∀ z ∈ zs, addrs[z.1.2.index]? = some (word (4 * z.2)))
    (h31 : ∀ z ∈ zs, 4 * (z.2 : Int) < 2147483648) (hsize : ∀ z ∈ zs, z.2 < μ.size)
    (hapart : zs.Pairwise fun y z => y.2 + globalSize y.1 ≤ z.2) :
    ∃ μ', (codeGlobals p (zs.map Prod.fst)).foldlM (initGlobal? addrs) μ = some μ' ∧
      μ.Filled (scalarFills p zs) μ' := by
  -- On the globals; those that follow lie behind the first one and do not overwrite it.
  induction zs generalizing μ with
  | nil => exact ⟨μ, rfl, Memory.Filled.nil μ⟩
  | cons z zs ih =>
    rw [List.forall_mem_cons] at haddr h31 hsize
    obtain ⟨hfirst, hapart⟩ := List.pairwise_cons.1 hapart
    obtain ⟨μ₁, hinit, hfill₁⟩ := initGlobal?_of_address (p := p) haddr.1 h31.1 hsize.1
    obtain ⟨μ', hrest, hfill'⟩ := ih haddr.2 h31.2
      (fun z hz => by rw [hfill₁.size]; exact hsize.2 z hz) hapart
    refine ⟨μ', ?_, ?_⟩
    · simp only [codeGlobals, List.map_cons, List.foldlM_cons]
      rw [hinit]
      exact hrest
    · have hsplit : scalarFills p (z :: zs) = scalarFills p [z] ++ scalarFills p zs := by
        simp only [scalarFills, List.flatMap_cons, List.flatMap_nil, List.append_nil]
      rw [hsplit]
      refine hfill₁.append hfill' fun w hw w' hw' heq => ?_
      obtain ⟨y, hy, -, rfl⟩ := mem_scalarFills.1 hw
      obtain ⟨y', hy', -, rfl⟩ := mem_scalarFills.1 hw'
      have := hfirst y' hy'
      rw [List.mem_singleton.1 hy] at heq
      have := globalSize_pos z.1
      simp only at heq
      omega

/-- A program whose globals have addresses has a fresh machine: its scalars have their initial values
and all other words are zero. -/
theorem ofCode?_of_fit {p : Program} {gs : List (VarId × Var)} (h : GlobalsFit p gs) {c : Code}
    (hc : c.globals = codeGlobals p gs) (input : List Word) :
    ∃ m, Machine.ofCode? c input = some m ∧ m.val Reg.x0 = 0 ∧
      m.mem.size = 1 + (gs.map globalSize).sum + Image.stackWords ∧
      Memory.Filled (scalarFills p (placedGlobals gs)) (.blank m.mem.size) m.mem := by
  have haddressed := h.addressed
  have hwords : (Image.globalLayout c).2 = 1 + (gs.map globalSize).sum := by
    rw [Image.globalLayout, Image.layout_snd, hc, sum_globalWords]
  -- There is room for the globals and the stack.
  have hblank : blankMemory? c =
      some (.blank (1 + (gs.map globalSize).sum + Image.stackWords)) := by
    unfold blankMemory?
    simp only [hwords]
    rw [wrap64_of_range (by omega) (by unfold Image.stackWords; omega)]
    rw [if_pos (by unfold maxWords Image.stackWords; omega)]
    rfl
  have hbounds : ∀ z ∈ placedGlobals gs, z.2 < 1 + (gs.map globalSize).sum := by
    intro z hz
    have := Image.starts_bounds hz
    have := globalSize_pos z.1
    omega
  -- The scalars are written one after the other.
  obtain ⟨μ, hμ, hfill⟩ : ∃ μ, (codeGlobals p ((placedGlobals gs).map Prod.fst)).foldlM
        (initGlobal? (Image.globalLayout c).1)
        (.blank (1 + (gs.map globalSize).sum + Image.stackWords)) = some μ ∧
      Memory.Filled (scalarFills p (placedGlobals gs))
        (.blank (1 + (gs.map globalSize).sum + Image.stackWords)) μ :=
    foldlM_initGlobal? (fun z hz => address_of_placed hc h.indices hz)
      (fun z hz => by have := hbounds z hz; omega)
      (fun z hz => by have := hbounds z hz; simp only [Memory.blank]; omega)
      (Image.pairwise_starts 1 gs)
  have hinitial : initialMemory? c = some μ := by
    rw [initialMemory?, hblank]
    rw [placedGlobals, Image.map_fst_starts, ← hc] at hμ
    exact hμ
  refine ⟨_, by rw [Machine.ofCode?, hinitial]; rfl, ?_, hfill.size, ?_⟩
  · rfl
  · exact hfill.size.symm ▸ hfill

/-! ## The start of `main` -/

/-- What the code of a program is made of. -/
theorem program_inv {p : Program} {sets : ClobberSets} {ps : List Placement} {code : Code}
    {gs : List (VarId × Var)} (hcode : program p sets ps = .ok code) (hgs : globals? p = some gs) :
    ∃ fs, funcs p.vars sets p.counters ps = .ok fs ∧ code.globals = codeGlobals p gs ∧
      code.funcs = (entry p gs).install (fs.zip (ps.map fun q => q.func.name == "main")) := by
  obtain ⟨gs', fs, hgs', hfs, hglobals, hfuncs⟩ := program_parts hcode
  cases hgs.symm.trans hgs'
  exact ⟨fs, hfs, hglobals, hfuncs⟩

/-- Lowering a program with a `main` fails only in its functions. -/
theorem program_of_funcs {p : Program} {sets : ClobberSets} {ps : List Placement}
    {gs : List (VarId × Var)} {fs : List CodeFunc} (hgs : globals? p = some gs)
    (hfs : funcs p.vars sets p.counters ps = .ok fs) (hmain : ∃ q ∈ ps, q.func.name = "main") :
    ∃ code, program p sets ps = .ok code := by
  have hany : (ps.map fun q => q.func.name == "main").any id = true := by
    obtain ⟨q, hq, hname⟩ := hmain
    exact List.any_eq_true.2 ⟨true, List.mem_map.2 ⟨q, hq, by simp [hname]⟩, rfl⟩
  unfold program
  rw [hgs]
  simp only [hfs, bind, Except.bind, hany, Bool.not_true, Bool.and_false]
  exact ⟨_, rfl⟩

/-- A `main` of the program's own is in the image of its code. -/
theorem main_of_program {p : Program} {sets : ClobberSets} {ps : List Placement} {code : Code}
    (hcode : program p sets ps = .ok code) {q : Placement} (hq : q ∈ ps)
    (hname : q.func.name = "main") (hown : q.func.builtin = none) :
    ∃ f, (Image.ofCode code).funcs["main"]? = some f := by
  obtain ⟨gs, fs, -, hfs, -, hfuncs⟩ := program_parts hcode
  obtain ⟨cf, hcf, c, c', hlower⟩ := exists_left_of_forall₂ (forall₂_of_funcs hfs) hq
  have hcfname : cf.name = "main" := (func_parts (func_of_own hlower hown)).2.1.trans hname
  -- the names of the code are those of the functions
  have hnames : code.funcs.map CodeFunc.name = fs.map CodeFunc.name := by
    rw [hfuncs, names_install]
    have hlen : (ps.map fun q => q.func.name == "main").length = fs.length := by
      rw [List.length_map, (forall₂_of_funcs hfs).length_eq]
    conv_rhs => rw [← List.map_fst_zip (Nat.le_of_eq hlen.symm)]
    rw [List.map_map]
    rfl
  have hmem : "main" ∈ code.funcs.map CodeFunc.name := by
    rw [hnames, ← hcfname]
    exact List.mem_map_of_mem hcf
  obtain ⟨g, hg, hgname⟩ := List.mem_map.1 hmem
  rw [getElem?_funcs_ofCode]
  cases hfind : code.funcs.reverse.find? (fun f => f.name == "main") with
  | none =>
    have := List.find?_eq_none.1 hfind g (List.mem_reverse.2 hg)
    simp [hgname] at this
  | some cf => exact ⟨_, rfl⟩

/-- The function that is called as `main` begins with the entry code. -/
theorem codeAt_entry {p : Program} {sets : ClobberSets} {ps : List Placement} {code : Code}
    {gs : List (VarId × Var)} (hcode : program p sets ps = .ok code) (hgs : globals? p = some gs)
    {f : LoadedFunc} (hf : (Image.ofCode code).funcs["main"]? = some f) :
    CodeAt f 0 (entry p gs).code := by
  obtain ⟨fs, hfs, -, hfuncs⟩ := program_inv hcode hgs
  rw [getElem?_funcs_ofCode] at hf
  obtain ⟨cf, hfind, rfl⟩ := Option.map_eq_some_iff.1 hf
  have hname : cf.name = "main" := by simpa using List.find?_some hfind
  have hmem := List.mem_reverse.1 (List.mem_of_find?_eq_some hfind)
  rw [hfuncs] at hmem
  unfold Entry.install at hmem
  obtain ⟨⟨f₀, main⟩, hzip, rfl⟩ := List.mem_map.1 hmem
  -- a function of the code is marked if it has the name
  have hmain : main = true := by
    rw [List.zip_map_right] at hzip
    obtain ⟨⟨f₁, q⟩, hq, heq⟩ := List.mem_map.1 hzip
    cases heq
    obtain ⟨c, c', hlower⟩ := (List.forall₂_iff_zip.1 (forall₂_of_funcs hfs)).2 hq
    have hf₀ : f₁.name = "main" := by
      simp only at hname
      split at hname <;> exact hname
    have hq : f₁.name = q.func.name ∨ f₁.name = "memmove" ∨ f₁.name = "multiply" :=
      codeName_funcOrBuiltin hlower
    rw [hf₀] at hq
    rcases hq with hq | hq | hq
    · simpa using hq.symm
    · exact absurd hq (by decide)
    · exact absurd hq (by decide)
  intro k hk
  simp only [hmain, if_true, Image.loadFunc, Entry.join, Nat.zero_add, List.getElem?_toArray]
  exact List.getElem?_append_left hk

/-- The code at the start of `main` array by array. -/
theorem entry_code (p : Program) (gs : List (VarId × Var)) : (entry p gs).code =
    (placedGlobals gs).flatMap fun z => (arrayPieces p z.1.1 z.1.2).flatten := by
  conv_lhs => rw [← Image.map_fst_starts globalSize 1 gs]
  rw [entry, ← placedGlobals, List.flatMap_map]
  simp only [List.flatMap, List.flatten_flatten, List.map_map]
  rfl

/-- Globals have their initial values and everything else of memory is as it was. -/
structure Initialized (p : Program) (gs : List (VarId × Var)) (im : Image) (m m' : Machine) :
    Prop where
  array : ∀ g ∈ gs, g.2.isArray = true → ∃ a, im.globals[g.2.index]? = some a ∧
    ∀ j : Nat, (j : Int) < g.2.elems → m'.load (a + word (4 * j)) = .ok (word (elementInit p g.1 j))
  scalar : ∀ g ∈ gs, g.2.isArray = false → ∃ a, im.globals[g.2.index]? = some a ∧
    m'.load a = .ok (word (scalarInit p g.1))
  kept : ∀ k, (∀ g ∈ gs, g.2.isArray = true → ∀ a, im.globals[g.2.index]? = some a →
    ∀ j : Nat, (j : Int) < g.2.elems → m'.wordIndex? (a + word (4 * j)) ≠ some k) →
      m'.mem.get k = m.mem.get k

section Words

variable {p : Program} {gs : List (VarId × Var)} (h : GlobalsFit p gs) (hgs : globals? p = some gs)

include h

/-- The address of a word of a placed global. -/
theorem wordIndex?_placed {z : (VarId × Var) × Nat} (hz : z ∈ placedGlobals gs)
    (hsize : m.mem.size = 1 + (gs.map globalSize).sum + Image.stackWords) {j : Nat}
    (hj : j < globalSize z.1) :
    m.wordIndex? (word (4 * z.2) + word (4 * j)) = some (z.2 + j) := by
  have := Image.starts_bounds hz
  have := h.addressed
  rw [← word_add, show 4 * (z.2 : Int) + 4 * j = 4 * ((z.2 + j : Nat) : Int) by omega]
  exact wordIndex?_word (by omega) (by omega) (by omega)

include hgs

/-- The words that the entry code leaves are those of the initial values. -/
theorem get_element {m₀ : Machine} (hscalars : Memory.Filled (scalarFills p (placedGlobals gs))
      (.blank m₀.mem.size) m₀.mem)
    (harrays : m₀.mem.Filled (arrayFills p (placedGlobals gs)) m.mem) {z : (VarId × Var) × Nat}
    (hz : z ∈ placedGlobals gs) (harray : z.1.2.isArray = true) {j : Nat} (hj : j < globalSize z.1) :
    m.mem.get (z.2 + j) = word (elementInit p z.1.1 j) := by
  by_cases hex : ∃ i ∈ arrayInits p z.1.1, element i = j
  · obtain ⟨i, hi, rfl⟩ := hex
    have hoff := (h.inside_global hgs hz hi).2.1
    obtain ⟨hmem, hvar, h0, -⟩ := mem_arrayInits.1 hi
    -- the value that is looked for is the only one for the word
    have hfind : p.inits.find? (fun i' => i'.var = z.1.1 ∧ i'.off = 4 * (element i : Int)) = some i := by
      cases hres : p.inits.find? (fun i' => i'.var = z.1.1 ∧ i'.off = 4 * (element i : Int)) with
      | none =>
        have := List.find?_eq_none.1 hres i hmem
        simp [hvar, ← hoff] at this
      | some i' =>
        have hi' := List.find?_some hres
        simp only [decide_eq_true_eq] at hi'
        rw [h.init_unique hmem (List.mem_of_find?_eq_some hres) h0 (hvar.trans hi'.1.symm)
          (hoff.trans hi'.2.symm)]
    rw [elementInit, hfind]
    exact harrays.written _ (mem_arrayFills.2 ⟨z, hz, i, hi, rfl⟩)
  · -- no code writes the word, and it is no scalar
    have hkept : m.mem.get (z.2 + j) = 0 := by
      rw [harrays.kept, hscalars.kept]
      · rfl
      · rintro w hw heq
        obtain ⟨y, hy, hscalar, rfl⟩ := mem_scalarFills.1 hw
        obtain rfl := Image.disjoint_starts hy hz (globalSize_pos y.1) hj heq
        rw [hscalar] at harray
        cases harray
      · rintro w hw heq
        obtain ⟨y, hy, i, hi, rfl⟩ := mem_arrayFills.1 hw
        obtain rfl := Image.disjoint_starts hy hz (h.inside_global hgs hy hi).2.2.2 hj heq
        exact hex ⟨i, hi, by simpa using heq⟩
    rw [hkept, elementInit]
    cases hres : p.inits.find? (fun i => i.var = z.1.1 ∧ i.off = 4 * (j : Int)) with
    | none => rfl
    | some i =>
      have hi := List.find?_some hres
      simp only [decide_eq_true_eq] at hi
      have hzero : i.val = 0 := by
        by_contra hval
        refine hex ⟨i, mem_arrayInits.2 ⟨List.mem_of_find?_eq_some hres, hi.1, by omega, hval⟩, ?_⟩
        unfold element
        omega
      rw [Option.map_some, Option.getD_some, hzero]
      rfl

/-- The scalars from the loader and the arrays from the entry code make up all the initial
values. -/
theorem initialized_of_filled {c : Code} (hc : c.globals = codeGlobals p gs) {m₀ : Machine}
    (hsize : m₀.mem.size = 1 + (gs.map globalSize).sum + Image.stackWords)
    (hscalars : Memory.Filled (scalarFills p (placedGlobals gs)) (.blank m₀.mem.size) m₀.mem)
    (harrays : m₀.mem.Filled (arrayFills p (placedGlobals gs)) m.mem) :
    Initialized p gs (Image.ofCode c) m₀ m := by
  have hsize' := harrays.size.trans hsize
  -- The elements of the arrays, the scalars, and the words that belong to no array.
  refine ⟨fun g hg harray => ?_, fun g hg hscalar => ?_, fun k hk => ?_⟩
  · obtain ⟨z, hz, rfl⟩ := exists_placed hg
    refine ⟨_, address_of_placed hc h.indices hz, fun j hj => ?_⟩
    have hj : j < globalSize z.1 := by unfold globalSize; omega
    rw [Machine.load, wordIndex?_placed h hz hsize' hj]
    exact congrArg _ (get_element h hgs hscalars harrays hz harray hj)
  · obtain ⟨z, hz, rfl⟩ := exists_placed hg
    refine ⟨_, address_of_placed hc h.indices hz, ?_⟩
    have hindex := wordIndex?_placed h hz hsize' (globalSize_pos z.1)
    rw [show word (4 * ((0 : Nat) : Int)) = 0 from rfl, Int32.add_zero, Nat.add_zero] at hindex
    have hval : m.mem.get z.2 = word (scalarInit p z.1.1) := by
      rw [harrays.kept, hscalars.written _ (mem_scalarFills.2 ⟨z, hz, hscalar, rfl⟩)]
      -- array values are for words of arrays
      rintro w hw heq
      obtain ⟨y, hy, i, hi, rfl⟩ := mem_arrayFills.1 hw
      obtain ⟨harray, -, -, hlt⟩ := h.inside_global hgs hy hi
      obtain rfl := Image.disjoint_starts hy hz hlt (globalSize_pos z.1) heq
      rw [hscalar] at harray
      cases harray
    rw [Machine.load, hindex]
    exact congrArg _ hval
  · refine harrays.kept k fun w hw heq => ?_
    obtain ⟨z, hz, i, hi, rfl⟩ := mem_arrayFills.1 hw
    obtain ⟨harray, -, hlt, hlt'⟩ := h.inside_global hgs hz hi
    refine hk z.1 (mem_of_placed hz) harray _ (address_of_placed hc h.indices hz) (element i) hlt ?_
    rw [wordIndex?_placed h hz hsize' hlt', ← heq]

end Words

/-- **Globals are initialised**: if a program whose globals have addresses is lowered, there is a fresh
machine, and what is called as `main` on it begins with code that runs to its end, whatever the
bounds, the order of the initial values and their distances.  Then every word of every array holds
its initial value, or zero if it has none, and every scalar its last initial value or zero; no other
word of memory and no register but the scratch registers has changed. -/
theorem entry_initializes {p : Program} {sets : ClobberSets} {ps : List Placement} {code : Code}
    {gs : List (VarId × Var)} (hcode : program p sets ps = .ok code) (hgs : globals? p = some gs)
    (h : GlobalsFit p gs) (input : List Word) :
    ∃ m₀, Machine.ofCode? code input = some m₀ ∧
      ∀ f, (Image.ofCode code).funcs["main"]? = some f → CodeAt f 0 (entry p gs).code ∧
        ∃ m', Reaches (Image.ofCode code) f (m₀.take f) 0 m' (entry p gs).code.length ∧
          Keeps Reg.Scratch (m₀.take f) m' ∧ Initialized p gs (Image.ofCode code) m₀ m' := by
  obtain ⟨fs, -, hc, -⟩ := program_inv hcode hgs
  obtain ⟨m₀, hm₀, hz, hsize, hscalars⟩ := ofCode?_of_fit h hc input
  refine ⟨m₀, hm₀, fun f hf => ?_⟩
  have hat := codeAt_entry hcode hgs hf
  -- The loader has done the scalars; the entry code does the arrays and touches scratch
  -- registers only.
  obtain ⟨m', hline, hfill, hkeep⟩ := line_entry (Image.ofCode code) f
    (m := m₀.take f) hz (fun z hz => start_pos hz)
    (fun z hz => address_of_placed hc h.indices hz)
    (fun z hz i hi => h.reachable hgs hz
      (by rw [show (m₀.take f).mem.size = m₀.mem.size from rfl, hsize]; omega) hi)
    (fun z hz => h.nodup_arrayInits z.1.1)
    (fun z hz i hi => (h.inside_global hgs hz hi).2.2.2)
    (Image.pairwise_starts 1 gs)
  rw [← entry_code] at hline
  refine ⟨hat, m', ?_, hkeep, initialized_of_filled h hgs hc hsize hscalars hfill⟩
  simpa using reaches_line hat hline

/-! ## A sparse array, and arrays that are too large -/

/-- A `main` that only returns. -/
def idleMain : List Placement :=
  [{ func := { name := "main", void := true, stmts := [.ret none] }
     live := #[], meet := #[], locs := {}, arrays := {}, spillSize := 0 }]

/-- A program whose `main` does nothing is its globals and its entry code. -/
theorem program_idle {p : Program} {gs : List (VarId × Var)} {code : List Instr}
    (hgs : globals? p = some gs) (hcode : (entry p gs).code = code) : program p {} idleMain =
      .ok { globals := codeGlobals p gs
            funcs := [{ name := "main", params := 0, stack := 0, body := code ++ [.ret] }] } := by
  -- The main function itself is a return.
  have hfuncs : funcs p.vars {} p.counters idleMain =
      .ok [{ name := "main", params := 0, stack := 0, body := [.ret] }] := by
    have hsave : ∀ q ∈ idleMain, Clobber.callerSave {} q = 0 := by decide
    simp only [funcs, idleMain, funcOrBuiltin, func, stmts, stmt, hsave _ (List.mem_singleton_self _)]
    rfl
  have hinstall : (entry p gs).install
      [({ name := "main", params := 0, stack := 0, body := [.ret] }, true)] =
        [{ name := "main", params := 0, stack := 0, body := code ++ [.ret] }] := by
    rw [install_of_single (by decide), List.map_singleton, withEntry, if_pos rfl, hcode]
  obtain ⟨c, hc⟩ := program_of_funcs hgs hfuncs ⟨_, List.mem_singleton_self _, rfl⟩
  obtain ⟨fs, hfs, hglobals, hcodefuncs⟩ := program_inv hc hgs
  cases hfuncs.symm.trans hfs
  obtain ⟨globals, funcs⟩ := c
  rw [hc, show globals = codeGlobals p gs from hglobals,
    show funcs = _ from hcodefuncs.trans hinstall]

/-- An array of a thousand words with two values far apart and a zero, and a scalar with two values. -/
def sparseProgram : Program where
  vars := #[⟨"a", .global, 0, some [1000]⟩, ⟨"n", .global, 1, none⟩]
  globals := [0, 1]
  inits := [⟨0, 3996, 5⟩, ⟨1, -1, 3⟩, ⟨0, 8, 7⟩, ⟨1, -1, 4⟩, ⟨0, 12, 0⟩]

/-- The base register moves to the last word of the array, and all values arrive. -/
theorem entry_initializes_sparse : ∃ gs code m₀ f m', globals? sparseProgram = some gs ∧
    program sparseProgram {} idleMain = .ok code ∧ Machine.ofCode? code [] = some m₀ ∧
    (Image.ofCode code).funcs["main"]? = some f ∧
    Reaches (Image.ofCode code) f (m₀.take f) 0 m' (entry sparseProgram gs).code.length ∧
    Initialized sparseProgram gs (Image.ofCode code) m₀ m' := by
  have hgs : globals? sparseProgram =
    some [(0, ⟨"a", .global, 0, some [1000]⟩), (1, ⟨"n", .global, 1, none⟩)] := by decide
  -- One list of values for an array with large gaps, the others for scalars.
  have hfit : GlobalsFit sparseProgram
      [(0, ⟨"a", .global, 0, some [1000]⟩), (1, ⟨"n", .global, 1, none⟩)] := by
    refine ⟨by decide, ?_, by decide, by decide⟩
    intro i hi h0
    simp only [sparseProgram, List.mem_cons, List.not_mem_nil, or_false] at hi
    rcases hi with rfl | rfl | rfl | rfl | rfl
    · exact ⟨_, rfl, by decide⟩
    · cases h0
    · exact ⟨_, rfl, by decide⟩
    · cases h0
    · exact ⟨_, rfl, by decide⟩
  have hcode := program_idle hgs rfl
  obtain ⟨f, hf⟩ := main_of_program hcode (List.mem_singleton_self _) rfl rfl
  obtain ⟨m₀, hm₀, hmain⟩ := entry_initializes hcode hgs hfit []
  obtain ⟨-, m', hreaches, -, hinit⟩ := hmain f hf
  exact ⟨_, _, m₀, f, m', hgs, hcode, hm₀, hf, hreaches, hinit⟩

/-- Four arrays whose sizes sum to `2^64` words; the first two have a value each. -/
def wrappedProgram : Program where
  vars := #[⟨"a", .global, 0, some [4611686018427387904]⟩, ⟨"b", .global, 1, some [4611686018427387904]⟩,
    ⟨"c", .global, 2, some [4611686018427387904]⟩, ⟨"d", .global, 3, some [4611686018427387904]⟩]
  globals := [0, 1, 2, 3]
  inits := [⟨0, 0, 1⟩, ⟨1, 0, 2⟩]

/-- Its variables with their positions. -/
def wrappedGlobals : List (VarId × Var) :=
  [(0, ⟨"a", .global, 0, some [4611686018427387904]⟩), (1, ⟨"b", .global, 1, some [4611686018427387904]⟩),
    (2, ⟨"c", .global, 2, some [4611686018427387904]⟩), (3, ⟨"d", .global, 3, some [4611686018427387904]⟩)]

/-- Each array is addressed on its own, and its value stored at its start. -/
def wrappedEntry : List Instr :=
  [.addrGlobal (Reg.t 1) 0, .imm (Reg.t 0) 1, .store (Reg.t 1) 0 (Reg.t 0),
    .addrGlobal (Reg.t 1) 1, .imm (Reg.t 0) 2, .store (Reg.t 1) 0 (Reg.t 0)]

/-- The code of the program. -/
def wrappedCode : Code where
  globals := [0, 1, 2, 3].map fun i => ⟨i, true, 4611686018427387904, 0⟩
  funcs := [{ name := "main", params := 0, stack := 0, body := wrappedEntry ++ [.ret] }]

/-- What the example with an offset beyond 32 bits is lowered to. -/
theorem program_wrapped : program wrappedProgram {} idleMain = .ok wrappedCode := by
  have hgs : globals? wrappedProgram = some wrappedGlobals := by decide
  refine program_idle hgs ?_
  have hinits : arrayInits wrappedProgram 0 = [⟨0, 0, 1⟩] ∧ arrayInits wrappedProgram 1 = [⟨1, 0, 2⟩] ∧
      arrayInits wrappedProgram 2 = [] ∧ arrayInits wrappedProgram 3 = [] := by
    simp [arrayInits, wrappedProgram]
  obtain ⟨h0, h1, h2, h3⟩ := hinits
  simp only [entry, wrappedGlobals, List.flatMap_cons, List.flatMap_nil, arrayPieces, h0, h1, h2, h3]
  decide

/-- **Arrays that do not fit the address space overlap**: the sizes are positive and everything else is as
asked, but the sum of the sizes wraps around, all four arrays start at the same address, and the
first word of the first array holds the value of the second one. -/
theorem entry_overlaps_wrapped :
    globals? wrappedProgram = some wrappedGlobals ∧ (wrappedGlobals.map fun g => g.2.index).Nodup ∧
      (∀ g ∈ wrappedGlobals, g.2.isArray = true ∧ 0 < g.2.elems) ∧
      (∀ i ∈ wrappedProgram.inits, i.off = 0) ∧
      ((wrappedProgram.inits.filter fun i => 0 ≤ i.off).map fun i => (i.var, i.off)).Nodup ∧
      program wrappedProgram {} idleMain = .ok wrappedCode ∧
      (Image.ofCode wrappedCode).globals[(0 : Int)]? = some 4 ∧ elementInit wrappedProgram 0 0 = 1 ∧
      ((Machine.ofCode? wrappedCode []).map fun m =>
        ((m.call (Image.ofCode wrappedCode) {} "main" []).1.load 4).toOption) = some (some 2) :=
  ⟨by decide, by decide, by decide, by decide, by decide, program_wrapped, by decide,
    by decide, by decide⟩

/-- An array of one word more than has an address, with a value in the last one. -/
def largeProgram : Program where
  vars := #[⟨"a", .global, 0, some [536870912]⟩]
  globals := [0]
  inits := [⟨0, 2147483644, 5⟩]

/-- The base register moves before the value is stored. -/
def largeEntry : List Instr :=
  [.addrGlobal (Reg.t 1) 0, .imm (Reg.t 0) 2147483644,
    .binary (Reg.t 1) .add (Reg.t 1) (Reg.t 0), .imm (Reg.t 0) 5, .store (Reg.t 1) 0 (Reg.t 0)]

/-- The code of the program. -/
def largeCode : Code where
  globals := [⟨0, true, 536870912, 0⟩]
  funcs := [{ name := "main", params := 0, stack := 0, body := largeEntry ++ [.ret] }]

/-- The bound on the words of globals is sharp: the store of a value behind it fails. -/
theorem entry_traps_large : program largeProgram {} idleMain = .ok largeCode ∧
    ((Machine.ofCode? largeCode []).map fun m =>
      (m.call (Image.ofCode largeCode) {} "main" []).2.cause?) =
        some (some (.badAddress (-2147483648))) := by
  constructor
  · have hgs : globals? largeProgram = some [(0, ⟨"a", .global, 0, some [536870912]⟩)] := by decide
    refine program_idle hgs ?_
    have hinits : arrayInits largeProgram 0 = [⟨0, 2147483644, 5⟩] := by
      simp [arrayInits, largeProgram]
    simp only [entry, List.flatMap_cons, List.flatMap_nil, arrayPieces, hinits]
    decide
  · decide

end Lowering

end Tac
