import Mathlib
import Tac.Allocation
import Tac.Proofs.Parameters

/-!
# Safety of allocation

An allocation is safe when values that are live together can be told apart, and when the words of
the frame belong to one value or one array each.

* **`verify_eq_ok_iff`** — the check accepts exactly the locations that separate every live set.
* **`run_spec`** — a colouring without error gives every node of the graph a location, adjacent
  nodes different ones, and stack locations to the spilled nodes alone.
* **`laidOut_run`** — the words of the frame, as long as their number fits 64 bits.
* **`Coloring.run_safe`** — both for the interference graph of an analysed function.
* **`Placement.param_placed_iff`** — when a parameter live on entry is where callers pass it.
-/

namespace Tac

/-! ## What the check accepts -/

/-- Every member of the set has a location, and different members can be told apart. -/
structure Locs.Separates (locs : Locs) (s : BitSet) : Prop where
  located : ∀ u, s.contains u = true → ∃ l, locs[u]? = some l
  apart : ∀ u v l m, s.contains u = true → s.contains v = true → u ≠ v → locs[u]? = some l →
    locs[v]? = some m → l.clashes m = false

/-- The check of one set, in terms of the values already seen. -/
theorem Locs.verifySet_eq_ok_iff (locs : Locs) (func : String) (i : Nat) :
    ∀ (us : List VReg) (seen : List (VReg × Loc)), locs.verifySet func i seen us = .ok () ↔
      (∀ u ∈ us, ∃ l, locs[u]? = some l ∧ ∀ p ∈ seen, p.2.clashes l = false) ∧
        us.Pairwise fun u v => ∀ l m, locs[u]? = some l → locs[v]? = some m →
          l.clashes m = false := by
  intro us
  -- `seen` grows by the head, so clashes with it move from the pairs to the seen values
  induction us with
  | nil => intro seen; simp [Locs.verifySet]
  | cons u us ih =>
    intro seen
    rw [Locs.verifySet]
    cases hu : locs[u]? with
    | none => simp [hu]
    | some l =>
      simp only
      split
      · next v k hf =>
        -- a value seen before has this location: neither side holds
        have hp := List.find?_some hf
        have hmem := List.mem_of_find?_eq_some hf
        simp only at hp
        constructor
        · intro h
          cases h
        · intro h
          obtain ⟨l', hl', hall⟩ := h.1 u (List.mem_cons_self ..)
          rw [hu] at hl'
          obtain rfl := Option.some.inj hl'
          rw [hall (v, k) hmem] at hp
          cases hp
      · next hf =>
        have hnone : ∀ p ∈ seen, p.2.clashes l = false := fun p hp => by
          simpa using List.find?_eq_none.1 hf p hp
        rw [ih, List.pairwise_cons]
        simp only [List.mem_cons, forall_eq_or_imp, hu, Option.some.injEq]
        constructor
        · rintro ⟨hall, hpw⟩
          refine ⟨⟨⟨l, rfl, hnone⟩, fun v hv => ?_⟩, fun v hv l' m hl' hm => ?_, hpw⟩
          · obtain ⟨m, hm, _, hseen⟩ := hall v hv
            exact ⟨m, hm, hseen⟩
          · obtain ⟨m', hm', hhead, _⟩ := hall v hv
            rw [hm] at hm'
            obtain rfl := Option.some.inj hm'
            subst hl'
            exact hhead
        · rintro ⟨⟨_, hall⟩, hhead, hpw⟩
          refine ⟨fun v hv => ?_, hpw⟩
          obtain ⟨m, hm, hseen⟩ := hall v hv
          exact ⟨m, hm, hhead v hv l m rfl hm, hseen⟩

/-- The check of one live set succeeds just if no two of its values clash. -/
theorem Locs.verifySet_toList (locs : Locs) (func : String) (i : Nat) (s : BitSet) :
    locs.verifySet func i [] s.toList = .ok () ↔ locs.Separates s := by
  rw [Locs.verifySet_eq_ok_iff]
  constructor
  · rintro ⟨hloc, hpw⟩
    refine ⟨fun u hu => ?_, fun u v l m hu hv hne hl hm => ?_⟩
    · obtain ⟨l, hl, _⟩ := hloc u ((BitSet.mem_toList _ _).2 hu)
      exact ⟨l, hl⟩
    -- The check compares each value with those before it only, but clashing goes both ways.
    · have hsymm : Std.Symm fun u v : VReg => ∀ l m, locs[u]? = some l → locs[v]? = some m →
          l.clashes m = false := ⟨fun u v h l m hl hm => by
        rw [Loc.clashes_comm]
        exact h m l hm hl⟩
      exact hpw.forall ((BitSet.mem_toList _ _).2 hu) ((BitSet.mem_toList _ _).2 hv) hne l m hl hm
  · intro h
    refine ⟨fun u hu => ?_, ?_⟩
    · obtain ⟨l, hl⟩ := h.located u ((BitSet.mem_toList _ _).1 hu)
      exact ⟨l, hl, fun p hp => nomatch hp⟩
    · refine (BitSet.nodup_toList s).pairwise_of_forall_ne fun u hu v hv hne l m hl hm => ?_
      exact h.apart u v l m ((BitSet.mem_toList _ _).1 hu) ((BitSet.mem_toList _ _).1 hv) hne hl hm

/-- The check accepts exactly the locations that separate every live set. -/
theorem Locs.verify_eq_ok_iff (locs : Locs) (func : String) (live : List BitSet) :
    locs.verify func live = .ok () ↔ ∀ s ∈ live, locs.Separates s := by
  unfold Locs.verify
  -- the number of the statement only shows up in messages
  generalize 0 = i
  induction live generalizing i with
  | nil => simp [Locs.verifyFrom]
  | cons s ss ih =>
    rw [Locs.verifyFrom, List.forall_mem_cons, ← Locs.verifySet_toList locs func i s, ← ih (i + 1)]
    cases locs.verifySet func i [] s.toList with
    | error e => simp
    | ok x => simp

/-! ## The words of arrays -/

/-- The words that a local takes if it is an array. -/
def VarTable.arraySize (vars : VarTable) (id : VarId) : Int :=
  match vars.get? id with
  | some v => if v.isArray then v.elems else 0
  | none => 0

/-- Every array among the locals has at least one word. -/
def VarTable.Positive (vars : VarTable) (ids : List VarId) : Prop :=
  ∀ id ∈ ids, ∀ v, vars.get? id = some v → v.isArray = true → 0 < v.elems

namespace Coloring

/-- The exact number of words that the arrays among the locals take. -/
def arrayWords (vars : VarTable) (ids : List VarId) : Int := (ids.map vars.arraySize).sum

/-- Words are handed out in 64 bits, so the next word is the exact count wrapped. -/
theorem layoutArrays_slot (vars : VarTable) : ∀ (ids : List VarId) (slot : Int)
    (arrays : Std.TreeMap Int Loc), wrap64 slot = slot →
      (layoutArrays vars slot arrays ids).2 = wrap64 (slot + arrayWords vars ids) := by
  intro ids slot arrays hslot
  -- An array takes its words; a scalar, or an entry that is missing, takes none.
  fun_induction layoutArrays vars slot arrays ids with
  | case1 slot arrays => simp [arrayWords, hslot]
  | case2 slot arrays id ids v hv harr ih =>
    rw [ih (by simp [wrap64])]
    simp [arrayWords, VarTable.arraySize, hv, harr, wrap64_add, add_assoc]
  | case3 slot arrays id ids v hv harr ih =>
    rw [ih hslot]
    simp [arrayWords, VarTable.arraySize, hv, harr]
  | case4 slot arrays id ids hv ih =>
    rw [ih hslot]
    simp [arrayWords, VarTable.arraySize, hv]

/-- Arrays laid out one after the other below word `top`. -/
structure Laid (arrays : Std.TreeMap Int Loc) (top : Int) : Prop where
  inside : ∀ (id : VarId) (l : Loc), arrays[id]? = some l →
    ∃ s n, l = .stack s n ∧ 0 ≤ s ∧ 0 < n ∧ s + n ≤ top
  apart : ∀ (id jd : VarId) (s n t k : Int), id ≠ jd → arrays[id]? = some (.stack s n) →
    arrays[jd]? = some (.stack t k) → s + n ≤ t ∨ t + k ≤ s

theorem laid_empty : Laid {} 0 := by
  constructor <;> simp

/-- One more array above all others. -/
theorem Laid.insert {arrays : Std.TreeMap Int Loc} {top n : Int} (h : Laid arrays top)
    (htop : 0 ≤ top) (hn : 0 < n) (id : VarId) :
    Laid (arrays.insert id (.stack top n)) (top + n) := by
  have hget : ∀ jd l, (arrays.insert id (Loc.stack top n))[jd]? = some l ↔
      (id = jd ∧ Loc.stack top n = l) ∨ (id ≠ jd ∧ arrays[jd]? = some l) := by
    intro jd l
    rw [getElem?_insert_map]
    by_cases hj : id = jd <;> simp [hj]
  refine ⟨fun jd l hl => ?_, fun jd kd s m t k hne hs ht => ?_⟩
  · rcases (hget jd l).1 hl with ⟨_, rfl⟩ | ⟨_, hold⟩
    · exact ⟨top, n, rfl, htop, hn, le_refl _⟩
    · obtain ⟨s, m, rfl, h0, hm, hle⟩ := h.inside jd l hold
      exact ⟨s, m, rfl, h0, hm, by omega⟩
  · -- of two arrays one may be the new one, which lies above the other
    rcases (hget _ _).1 hs with ⟨rfl, hs'⟩ | ⟨_, hs'⟩
    · rcases (hget _ _).1 ht with ⟨rfl, _⟩ | ⟨_, ht'⟩
      · exact absurd rfl hne
      · obtain ⟨t', k', heq, _, _, hle⟩ := h.inside _ _ ht'
        cases heq
        cases hs'
        exact Or.inr hle
    · rcases (hget _ _).1 ht with ⟨rfl, ht'⟩ | ⟨_, ht'⟩
      · obtain ⟨s', m', heq, _, _, hle⟩ := h.inside _ _ hs'
        cases heq
        cases ht'
        exact Or.inl hle
      · exact h.apart _ _ _ _ _ _ hne hs' ht'

/-- As long as their words fit 64 bits, arrays are laid out without overlap. -/
theorem laid_layoutArrays (vars : VarTable) : ∀ (ids : List VarId) (slot : Int)
    (arrays : Std.TreeMap Int Loc), vars.Positive ids → Laid arrays slot → 0 ≤ slot →
      slot + arrayWords vars ids < 9223372036854775808 →
      Laid (layoutArrays vars slot arrays ids).1 (slot + arrayWords vars ids) ∧
        0 ≤ arrayWords vars ids := by
  intro ids slot arrays hpos hlaid h0 hfit
  fun_induction layoutArrays vars slot arrays ids with
  | case1 slot arrays => simpa [arrayWords] using hlaid
  | case2 slot arrays id ids v hv harr ih =>
    have hn : 0 < v.elems := hpos id (List.mem_cons_self ..) v hv harr
    have hpos' : vars.Positive ids := fun jd hj => hpos jd (List.mem_cons_of_mem _ hj)
    have hsum : arrayWords vars (id :: ids) = v.elems + arrayWords vars ids := by
      simp [arrayWords, VarTable.arraySize, hv, harr]
    have htail : 0 ≤ arrayWords vars ids := List.sum_nonneg fun x hx => by
      obtain ⟨jd, hj, rfl⟩ := List.mem_map.1 hx
      unfold VarTable.arraySize
      split
      · next w hw =>
        split
        · next hwa => exact (hpos' jd hj w hw hwa).le
        · exact le_refl 0
      · exact le_refl 0
    -- all words counted so far fit, so the wrapped sum is the exact one
    have hwrap : wrap64 (slot + v.elems) = slot + v.elems :=
      wrap64_of_range (by omega) (by omega)
    have hloc : Loc.inStack slot v.elems = .stack slot v.elems := by
      simp [Loc.inStack, not_le.2 hn]
    rw [hwrap, hloc] at ih
    rw [hwrap, hloc, hsum]
    obtain ⟨h1, h2⟩ := ih hpos' (hlaid.insert h0 hn id) (by omega) (by omega)
    exact ⟨by rwa [← add_assoc], by omega⟩
  | case3 slot arrays id ids v hv harr ih =>
    have hsum : arrayWords vars (id :: ids) = arrayWords vars ids := by
      simp [arrayWords, VarTable.arraySize, hv, harr]
    rw [hsum] at hfit ⊢
    exact ih (fun jd hj => hpos jd (List.mem_cons_of_mem _ hj)) hlaid h0 hfit
  | case4 slot arrays id ids hv ih =>
    have hsum : arrayWords vars (id :: ids) = arrayWords vars ids := by
      simp [arrayWords, VarTable.arraySize, hv]
    rw [hsum] at hfit ⊢
    exact ih (fun jd hj => hpos jd (List.mem_cons_of_mem _ hj)) hlaid h0 hfit

/-- Every array among the locals has as many words as it needs. -/
theorem layoutArrays_span (vars : VarTable) {id : VarId} {v : Var} (hv : vars.get? id = some v)
    (harr : v.isArray = true) : ∀ (ids : List VarId) (slot : Int) (arrays : Std.TreeMap Int Loc),
      (id ∈ ids ∨ ∃ s, arrays[id]? = some (Loc.inStack s v.elems)) →
        ∃ s, (layoutArrays vars slot arrays ids).1[id]? = some (Loc.inStack s v.elems) := by
  intro ids slot arrays h
  fun_induction layoutArrays vars slot arrays ids with
  | case1 slot arrays => exact h.resolve_left List.not_mem_nil
  | case2 slot arrays jd ids w hw _ ih =>
    by_cases hid : jd = id
    · -- a local listed twice gets new words, of the same size
      subst hid
      rw [hv] at hw
      obtain rfl := Option.some.inj hw
      exact ih (Or.inr ⟨slot, by simp⟩)
    · refine ih (h.imp (fun hm => (List.mem_cons.1 hm).resolve_left (Ne.symm hid)) ?_)
      rintro ⟨s, hs⟩
      refine ⟨s, ?_⟩
      rw [getElem?_insert_map, if_neg hid, hs]
  -- A scalar gets no words, and a missing entry none either.
  | case3 slot arrays jd ids w hw hnot ih =>
    refine ih (h.imp_left fun hm => (List.mem_cons.1 hm).resolve_left ?_)
    rintro rfl
    rw [hv] at hw
    obtain rfl := Option.some.inj hw
    exact hnot harr
  | case4 slot arrays jd ids hw ih =>
    refine ih (h.imp_left fun hm => (List.mem_cons.1 hm).resolve_left ?_)
    rintro rfl
    rw [hv] at hw
    cases hw

/-- Only arrays among the locals are laid out. -/
theorem mem_of_layoutArrays (vars : VarTable) {id : VarId} {l : Loc} : ∀ (ids : List VarId)
    (slot : Int) (arrays : Std.TreeMap Int Loc),
      (layoutArrays vars slot arrays ids).1[id]? = some l →
        arrays[id]? = some l ∨ (id ∈ ids ∧ ∃ v, vars.get? id = some v ∧ v.isArray = true) := by
  intro ids slot arrays h
  fun_induction layoutArrays vars slot arrays ids with
  | case1 slot arrays => exact Or.inl h
  | case2 slot arrays jd ids v hv harr ih =>
    -- The array was just laid out, or it was there before.
    by_cases hid : jd = id
    · subst hid
      exact Or.inr ⟨List.mem_cons_self, v, hv, harr⟩
    · refine (ih h).imp (fun hget => ?_) fun ⟨hmem, hvar⟩ => ⟨List.mem_cons_of_mem _ hmem, hvar⟩
      rwa [getElem?_insert_map, if_neg hid] at hget
  | case3 slot arrays jd ids v hv hnot ih =>
    exact (ih h).imp_right fun ⟨hmem, hvar⟩ => ⟨List.mem_cons_of_mem _ hmem, hvar⟩
  | case4 slot arrays jd ids hv ih =>
    exact (ih h).imp_right fun ⟨hmem, hvar⟩ => ⟨List.mem_cons_of_mem _ hmem, hvar⟩

/-! ## The whole colouring -/

/-- The registers that colouring draws from. -/
def file (regs : List Reg) : List Reg := if regs.isEmpty then Reg.allocatable else regs

/-- The file has registers of the machine only. -/
theorem valid_of_mem_file {regs : List Reg} (hregs : ∀ r ∈ regs, r.Valid) {r : Reg}
    (h : r ∈ file regs) : r.Valid := by
  unfold file at h
  split at h
  · exact Reg.valid_of_mem_allocatable h
  · exact hregs r h

/-- The state in which all nodes have been taken out. -/
def takenOut (vars : VarTable) (f : Func) (g : Graph) (regs : List Reg) : Taking :=
  takeAll (file regs).length g.size
    { graph := g, slot := (layoutArrays vars 0 {} f.locals).2 }

/-- Taking out ends with no node left. -/
theorem taken_takenOut (vars : VarTable) (f : Func) {g : Graph} (hg : g.Growing) (regs : List Reg) :
    Taken g (layoutArrays vars 0 {} f.locals).2 (takenOut vars f g regs) ∧
      ∀ u, ¬ (takenOut vars f g regs).graph.Has u := by
  have hbase : wrap64 (layoutArrays vars 0 {} f.locals).2 = (layoutArrays vars 0 {} f.locals).2 := by
    rw [layoutArrays_slot vars f.locals 0 {} rfl]
    simp [wrap64]
  obtain ⟨ht, hleft⟩ := Taken.takeAll (file regs).length g.size (taken_start hg hbase)
  rw [← takenOut] at ht hleft
  exact ⟨ht, (Graph.size_eq_zero_iff _).1 (by simpa using hleft)⟩

/-- The phases of a colouring without error. -/
theorem run_phases {vars : VarTable} {f : Func} {g : Graph} {h : Affinity} {regs : List Reg}
    (hok : (run vars f g h regs).error = none) :
    (run vars f g h regs).arrays = (layoutArrays vars 0 {} f.locals).1 ∧
      (run vars f g h regs).spills = (takenOut vars f g regs).spills.reverse ∧
      (run vars f g h regs).spillSize = (takenOut vars f g regs).slot ∧
      ∃ locs, giveAll (file regs) (takenOut vars f g regs).graph h (takenOut vars f g regs).locs
          (takenOut vars f g regs).stack = (locs, none) ∧
        placeParams f.name f.params.length f.params.length 0 locs [] =
          ((run vars f g h regs).locs, (run vars f g h regs).params, none) := by
  have htaken : takeAll (file regs).length g.size
      { graph := g, slot := (layoutArrays vars 0 {} f.locals).2 } = takenOut vars f g regs := rfl
  -- with the result as a variable, its fields are not unfolded along with `run`
  have hrun : ∀ c, run vars f g h regs = c → c.error = none →
      c.arrays = (layoutArrays vars 0 {} f.locals).1 ∧
        c.spills = (takenOut vars f g regs).spills.reverse ∧
        c.spillSize = (takenOut vars f g regs).slot ∧
        ∃ locs, giveAll (file regs) (takenOut vars f g regs).graph h
            (takenOut vars f g regs).locs (takenOut vars f g regs).stack = (locs, none) ∧
          placeParams f.name f.params.length f.params.length 0 locs [] =
            (c.locs, c.params, none) := by
    intro c hc herr
    unfold run at hc
    simp only at hc
    rw [← file, htaken] at hc
    split at hc
    · subst hc
      cases herr
    · next locs hgive =>
      subst hc
      simp only at herr
      refine ⟨rfl, rfl, rfl, locs, hgive, ?_⟩
      rw [← herr]
  exact hrun _ rfl hok

/-- What a colouring without error gives to the nodes of a graph, with words for spilled nodes from
`base` on. -/
structure Colored (g : Graph) (base : Int) (c : Coloring) : Prop where
  located : ∀ u : VReg, (∃ l, c.locs[u]? = some l) ↔ g.Has u
  apart : ∀ (u v : VReg) (l m : Loc), g.Adj u v → c.locs[u]? = some l → c.locs[v]? = some m →
    l.clashes m = false
  stack_iff : ∀ (u : VReg) (s n : Int), c.locs[u]? = some (.stack s n) ↔
    ∃ p ∈ c.spills, p.node = u ∧ s = p.slot ∧ n = 1
  slots : c.spills.map Spill.slot =
    (List.range c.spills.length).map fun (k : Nat) => wrap64 (base + k)
  nodup : (c.spills.map Spill.node).Nodup
  size_eq : c.spillSize = wrap64 (base + c.spills.length)

/-- Colouring keeps adjacent nodes apart, for any preferences and any registers of the target. -/
theorem run_spec {vars : VarTable} {f : Func} {g : Graph} {h : Affinity} {regs : List Reg}
    (hg : g.Growing) (hfew : ∀ u, g.Has u → u < 18446744073709551616)
    (hregs : ∀ r ∈ regs, r.Valid) (hok : (run vars f g h regs).error = none) :
    Colored g (layoutArrays vars 0 {} f.locals).2 (run vars f g h regs) := by
  obtain ⟨_, hspills, hsize, locs, hgive, hplace⟩ := run_phases hok
  obtain ⟨ht, hempty⟩ := taken_takenOut vars f hg regs
  generalize takenOut vars f g regs = t at ht hempty hspills hsize hgive
  -- no node is left, so every edge is remembered on both ends
  have hpart : ∀ u v, g.Adj u v → t.graph.Parted u v := fun u v huv =>
    Graph.parted_of_empty ht.bare hempty (ht.edges u v huv)
  -- there are no more spilled nodes than numbers for nodes
  have hcount : t.spills.length ≤ 18446744073709551616 := by
    have hsub : t.spills.map Spill.node ⊆ List.range 18446744073709551616 := fun u hu =>
      List.mem_range.2 (hfew u ((ht.nodes u).2 (Or.inr (Or.inr hu))))
    have hle := ((List.Nodup.of_append_right ht.nodup).subperm hsub).length_le
    rwa [List.length_map, List.length_range] at hle
  have hproper := proper_giveAll hg hpart (fun r hr => valid_of_mem_file hregs hr) h t.stack
    (ht.proper hg hcount) hgive
  obtain ⟨hframe, hgiven⟩ := giveAll_spec t.stack hgive
  obtain ⟨σ, hplaced⟩ := placeParams_spec f.params.length 0 hplace
  have hσ := hplaced.renamed
  have hdisj : ∀ u, u ∈ t.stack → u ∉ t.spills.map Spill.node := fun u h1 h2 =>
    List.disjoint_of_nodup_append ht.nodup h1 h2
  refine ⟨fun u => ?_, fun u v l m huv hl hm => ?_, fun u s n => ?_, ?_, ?_, ?_⟩
  · -- a node is on the stack and got a register, or was spilled; renaming keeps both
    rw [ht.nodes u, hσ u]
    simp only [hempty u, false_or, Option.map_eq_some_iff]
    by_cases hu : u ∈ t.stack
    · obtain ⟨r, _, hr⟩ := hgiven u hu
      simp [hu, hr]
    · simp only [hu, false_or, hframe u hu, ht.locs_iff, List.mem_map]
      constructor
      · rintro ⟨l, l', ⟨s, hs, hsu, _⟩, _⟩
        exact ⟨s, hs, hsu⟩
      · rintro ⟨s, hs, hsu⟩
        exact ⟨_, _, ⟨s, hs, hsu, rfl⟩, rfl⟩
  · rw [hσ] at hl hm
    obtain ⟨l₀, hl₀, rfl⟩ := Option.map_eq_some_iff.1 hl
    obtain ⟨m₀, hm₀, rfl⟩ := Option.map_eq_some_iff.1 hm
    rw [Loc.clashes_rename]
    exact hproper.apart huv hl₀ hm₀
  · rw [hσ u, hspills]
    simp only [Option.map_eq_some_iff, Loc.rename_eq_stack_iff, exists_eq_right, List.mem_reverse]
    by_cases hu : u ∈ t.stack
    · obtain ⟨r, _, hr⟩ := hgiven u hu
      have hnone : ¬ ∃ p ∈ t.spills, p.node = u ∧ s = p.slot ∧ n = 1 := by
        rintro ⟨p, hp, hpu, _⟩
        exact hdisj u hu (List.mem_map.2 ⟨p, hp, hpu⟩)
      simp [hr, hnone]
    · rw [hframe u hu, ht.locs_iff]
      simp
  · rw [hspills, List.length_reverse]
    exact ht.slots
  · rw [hspills, List.map_reverse, List.nodup_reverse]
    exact List.Nodup.of_append_right ht.nodup
  · rw [hsize, hspills, List.length_reverse]
    exact ht.slot_eq

end Coloring

/-! ## The words of the frame -/

/-- The words of the frame that a location takes. -/
def Loc.words : Loc → Set Int
  | .reg _ => ∅
  | .stack s n => Set.Ico s (s + n)

/-- Spilled values and arrays share no word, and all their words are among the first `spillSize`. -/
structure Coloring.LaidOut (vars : VarTable) (f : Func) (c : Coloring) : Prop where
  spilled : ∀ p ∈ c.spills, c.locs[p.node]? = some (.stack p.slot 1)
  spans : ∀ id ∈ f.locals, ∀ v, vars.get? id = some v → v.isArray = true →
    ∃ s, c.arrays[id]? = some (.stack s v.elems)
  values_inside : ∀ (u : VReg) (l : Loc), c.locs[u]? = some l → l.words ⊆ Set.Ico 0 c.spillSize
  arrays_inside : ∀ (id : VarId) (l : Loc), c.arrays[id]? = some l →
    l.words ⊆ Set.Ico 0 c.spillSize
  values_disjoint : ∀ (u v : VReg) (l m : Loc), u ≠ v → c.locs[u]? = some l →
    c.locs[v]? = some m → Disjoint l.words m.words
  arrays_disjoint : ∀ (id jd : VarId) (l m : Loc), id ≠ jd → c.arrays[id]? = some l →
    c.arrays[jd]? = some m → Disjoint l.words m.words
  values_arrays : ∀ (u : VReg) (id : VarId) (l m : Loc), c.locs[u]? = some l →
    c.arrays[id]? = some m → Disjoint l.words m.words

/-- Locations one of which ends before the other starts share no word. -/
theorem Loc.disjoint_words {s n t k : Int} (h : s + n ≤ t ∨ t + k ≤ s) :
    Disjoint (Loc.stack s n).words (Loc.stack t k).words := by
  simp only [Loc.words]
  rw [Set.disjoint_left]
  rintro x ⟨hx1, hx2⟩ ⟨hy1, hy2⟩
  omega

namespace Coloring

/-- The slot of a spilled value without wrapping: the first words belong to the arrays, the next
ones to the spilled values in the order of spilling. -/
theorem Colored.slot_of_mem {g : Graph} {base : Int} {c : Coloring} (hc : Colored g base c)
    (h0 : 0 ≤ base) (hfit : base + c.spills.length < 9223372036854775808) {p : Spill}
    (hp : p ∈ c.spills) : ∃ k : Nat, k < c.spills.length ∧ p.slot = base + k ∧
      ∀ q ∈ c.spills, q.slot = p.slot → q = p := by
  -- The slots are counted up from the base, which does not wrap for a frame that fits.
  have hslot : ∀ (k : Nat) (hk : k < c.spills.length), (c.spills[k]).slot = base + k := by
    intro k hk
    have := congrArg (fun xs => xs[k]?) hc.slots
    have hwrap : wrap64 (base + k) = base + k := wrap64_of_range (by omega) (by omega)
    simpa [hk, hwrap] using this
  obtain ⟨k, hk, rfl⟩ := List.getElem_of_mem hp
  refine ⟨k, hk, hslot k hk, fun q hq heq => ?_⟩
  obtain ⟨j, hj, rfl⟩ := List.getElem_of_mem hq
  rw [hslot j hj, hslot k hk] at heq
  have hjk : j = k := by omega
  subst hjk
  rfl

/-- The layout of the frame, as long as the number of its words fits 64 bits. -/
theorem laidOut_run {vars : VarTable} {f : Func} {g : Graph} {h : Affinity} {regs : List Reg}
    (hc : Colored g (layoutArrays vars 0 {} f.locals).2 (run vars f g h regs))
    (hok : (run vars f g h regs).error = none) (hpos : vars.Positive f.locals)
    (hfit : arrayWords vars f.locals + (run vars f g h regs).spills.length <
      9223372036854775808) : LaidOut vars f (run vars f g h regs) := by
  obtain ⟨harrays, _⟩ := run_phases hok
  obtain ⟨hlaid, hwords⟩ := laid_layoutArrays vars f.locals 0 {} hpos laid_empty le_rfl (by omega)
  rw [zero_add] at hlaid
  rw [layoutArrays_slot vars f.locals 0 {} rfl, zero_add,
    wrap64_of_range (by omega) (by omega)] at hc
  rw [← harrays] at hlaid
  generalize hrun : run vars f g h regs = c at hc hok hfit hlaid harrays
  have hsize : c.spillSize = arrayWords vars f.locals + c.spills.length := by
    rw [hc.size_eq, wrap64_of_range (by omega) (by omega)]
  -- a value in the frame lies above all arrays
  have hvalue : ∀ {u : VReg} {s n : Int}, c.locs[u]? = some (.stack s n) →
      arrayWords vars f.locals ≤ s ∧ n = 1 ∧ s + 1 ≤ c.spillSize := by
    intro u s n hl
    obtain ⟨p, hp, _, rfl, rfl⟩ := (hc.stack_iff u s n).1 hl
    obtain ⟨k, hk, hslot, _⟩ := hc.slot_of_mem hwords hfit hp
    omega
  refine ⟨fun p hp => ?_, fun id hid v hv harr => ?_, fun u l hl => ?_, fun id l hl => ?_,
    fun u v l m hne hl hm => ?_, fun id jd l m hne hl hm => ?_, fun u id l m hl hm => ?_⟩
  · exact (hc.stack_iff _ _ _).2 ⟨p, hp, rfl, rfl, rfl⟩
  · obtain ⟨s, hs⟩ := layoutArrays_span vars hv harr f.locals 0 {} (Or.inl hid)
    rw [← harrays] at hs
    have hn := hpos id hid v hv harr
    exact ⟨s, by simpa [Loc.inStack, not_le.2 hn] using hs⟩
  · cases l with
    | reg r => exact Set.empty_subset _
    | stack s n =>
      obtain ⟨h1, rfl, h2⟩ := hvalue hl
      rintro x ⟨hx1, hx2⟩
      exact ⟨by omega, by omega⟩
  · obtain ⟨s, n, rfl, h1, _, h2⟩ := hlaid.inside id l hl
    rintro x ⟨hx1, hx2⟩
    exact ⟨by omega, by omega⟩
  · cases l with
    | reg r => exact Set.empty_disjoint _
    | stack s n =>
      cases m with
      | reg r => exact Set.disjoint_empty _
      | stack t k =>
        obtain ⟨p, hp, rfl, rfl, rfl⟩ := (hc.stack_iff _ _ _).1 hl
        obtain ⟨q, hq, rfl, rfl, rfl⟩ := (hc.stack_iff _ _ _).1 hm
        obtain ⟨_, _, _, huniq⟩ := hc.slot_of_mem hwords hfit hp
        have hslots : q.slot ≠ p.slot := fun heq => hne (by rw [huniq q hq heq])
        exact Loc.disjoint_words (by omega)
  · obtain ⟨s, n, rfl, _⟩ := hlaid.inside id l hl
    obtain ⟨t, k, rfl, _⟩ := hlaid.inside jd m hm
    exact Loc.disjoint_words (hlaid.apart id jd s n t k hne hl hm)
  · cases l with
    | reg r => exact Set.empty_disjoint _
    | stack s n =>
      obtain ⟨t, k, rfl, _, _, htop⟩ := hlaid.inside id m hm
      obtain ⟨hlow, _, _⟩ := hvalue hl
      exact Loc.disjoint_words (by omega)

end Coloring

/-! ## Safety -/

/-- What the analyses of a function say about it. -/
theorem Func.analyze_spec {vars : VarTable} {f : Func} {a : Analysis} (h : f.analyze vars = .ok a) :
    a.func = f ∧ Flow.Describes f a.flow ∧ Liveness.Solution vars f a.flow a.live ∧
      a.reachable = a.flow.reachable ∧ a.graph = Graph.build a.live a.reachable ∧
      f.stmts.all (Stmt.isNumbered vars) = true := by
  unfold Func.analyze at h
  split at h
  · cases h
  · next fl hfl =>
    split at h
    · next hall =>
      cases h
      have d := Flow.describes_of_connect hfl
      exact ⟨rfl, d, Liveness.solution_analyze vars d, rfl, rfl, hall⟩
    · cases h

/-- The numbers of virtual registers fit 64 bits. -/
theorem VarTable.lt_of_vreg? {vars : VarTable} {v : Val} {u : VReg} (h : vars.vreg? v = some u) :
    u < 9223372036854775808 := by
  unfold VarTable.vreg? at h
  obtain ⟨n, hn, hu⟩ := Option.bind_eq_some_iff.1 h
  have hwrap : ∀ k, wrap64 k < 9223372036854775808 := fun k =>
    Int.bmod_lt (by decide)
  -- temporaries, arguments and locals each have a number that is wrapped to 64 bits
  have hlt : n < 9223372036854775808 := by
    unfold VarTable.number? at hn
    split at hn
    · cases hn
    · cases hn
      exact hwrap _
    · obtain ⟨w, _, hw⟩ := Option.bind_eq_some_iff.1 hn
      unfold Var.number? VReg.ofArg at hw
      split at hw
      · cases hw
      · split at hw
        · cases hw
        · cases hw
          exact hwrap _
      · cases hw
        exact hwrap _
  split at hu
  · cases hu
    exact (Int.toNat_lt' (by decide)).2 hlt
  · cases hu

/-- The nodes of an interference graph have 64-bit numbers. -/
theorem Func.lt_of_has_graph {vars : VarTable} {f : Func} {a : Analysis}
    (h : f.analyze vars = .ok a) {u : VReg} (hu : a.graph.Has u) : u < 18446744073709551616 := by
  obtain ⟨_, _, hsol, _, hgraph, _⟩ := Func.analyze_spec h
  rw [hgraph, Graph.has_build] at hu
  obtain ⟨i, _, hlive⟩ := hu
  obtain ⟨s, _, hs⟩ := hsol.live_read i u hlive
  obtain ⟨v, _, hv⟩ := List.mem_filterMap.1 hs
  exact lt_trans (VarTable.lt_of_vreg? hv) (by decide)

/-- Two values live before the same statement are adjacent nodes, provided nothing is live where the
entry does not reach. -/
theorem Func.adj_graph {vars : VarTable} {f : Func} {a : Analysis} (h : f.analyze vars = .ok a)
    (hdead : ∀ i, i < f.stmts.length → ¬ a.flow.Reaches i → ∀ u,
      (a.live.liveAt i).contains u = false) {i : Nat} {u : VReg}
    (hu : (a.live.liveAt i).contains u = true) :
    a.graph.Has u ∧ ∀ v, (a.live.liveAt i).contains v = true → u ≠ v → a.graph.Adj u v := by
  obtain ⟨_, d, hsol, hreach, hgraph, _⟩ := Func.analyze_spec h
  have hlt : i < f.stmts.length := by
    by_contra hge
    have hsize := hsol.size_live
    rw [Liveness.liveAt, Array.getD_eq_getD_getElem?, Array.getElem?_eq_none (by omega)] at hu
    simp at hu
  -- A statement that is not reached has nothing live, so the graph need not know of it.
  have hr : a.reachable.contains i = true := by
    rw [hreach, d.contains_reachable_iff]
    by_contra hnot
    rw [hdead i hlt hnot u] at hu
    cases hu
  rw [hgraph]
  refine ⟨(Graph.has_build _ _ u).2 ⟨i, hr, hu⟩, fun v hv hne => ?_⟩
  exact (Graph.adj_build _ _ u v).2 ⟨hne, i, hr, hu, hv⟩

/-- Where the entry reaches every statement, nothing is live out of its reach. -/
theorem Func.dead_of_all_reachable {vars : VarTable} {f : Func} {a : Analysis}
    (h : f.analyze vars = .ok a)
    (hall : (List.range f.stmts.length).all a.reachable.contains = true) :
    ∀ i, i < f.stmts.length → ¬ a.flow.Reaches i → ∀ u, (a.live.liveAt i).contains u = false := by
  obtain ⟨_, d, _, hreach, _, _⟩ := Func.analyze_spec h
  intro i hi hnot
  have hr := List.all_eq_true.1 hall i (List.mem_range.2 hi)
  rw [hreach, d.contains_reachable_iff] at hr
  exact absurd hr hnot

/-- A colouring without error is safe, whatever the preferences and the registers are: the check
accepts it, so values live together are apart after all swaps of parameters, and the words of the
frame do not overlap as long as their number fits 64 bits. -/
theorem Coloring.run_safe {vars : VarTable} {f : Func} {a : Analysis} {h : Affinity}
    {regs : List Reg} (ha : f.analyze vars = .ok a) (hpos : vars.Positive f.locals)
    (hdead : ∀ i, i < f.stmts.length → ¬ a.flow.Reaches i → ∀ u,
      (a.live.liveAt i).contains u = false)
    (hregs : ∀ r ∈ regs, r.Valid) (hok : (run vars f a.graph h regs).error = none) :
    (run vars f a.graph h regs).locs.verify f.name a.live.live.toList = .ok () ∧
      (∀ i, (run vars f a.graph h regs).locs.Separates (a.live.liveAt i)) ∧
      (arrayWords vars f.locals + (run vars f a.graph h regs).spills.length < 9223372036854775808 →
        LaidOut vars f (run vars f a.graph h regs)) := by
  have hgrow : a.graph.Growing := by
    obtain ⟨_, _, _, _, hgraph, _⟩ := Func.analyze_spec ha
    rw [hgraph]
    exact Graph.growing_build _ _
  have hc := run_spec (h := h) hgrow (fun u hu => Func.lt_of_has_graph ha hu) hregs hok
  -- live together means adjacent, and adjacent means apart
  have hsep : ∀ i, (run vars f a.graph h regs).locs.Separates (a.live.liveAt i) := by
    intro i
    refine ⟨fun u hu => ?_, fun u v l m hu hv hne hl hm => ?_⟩
    · exact (hc.located u).2 (Func.adj_graph ha hdead hu).1
    · exact hc.apart u v l m ((Func.adj_graph ha hdead hu).2 v hv hne) hl hm
  refine ⟨(Locs.verify_eq_ok_iff _ _ _).2 fun s hs => ?_, hsep, fun hfit => ?_⟩
  · obtain ⟨i, hi, rfl⟩ := List.getElem_of_mem hs
    have hlive : a.live.liveAt i = a.live.live.toList[i] := by
      simp [Liveness.liveAt, Array.getD_eq_getD_getElem?, Array.getElem?_eq_getElem (by simpa using hi)]
    rw [← hlive]
    exact hsep i
  · exact laidOut_run hc hok hpos hfit

/-- A result that passes a computed test is there and has what the test says. -/
theorem exists_ok_of_any {ε α : Type} {e : Except ε α} {p : α → Bool}
    (h : e.toOption.any p = true) : ∃ a, e = .ok a ∧ p a = true := by
  cases e with
  | error x => cases h
  | ok a => exact ⟨a, rfl, h⟩

/-- An array of three words, beside values that do not fit one register. -/
def crowdedVars : VarTable := #[⟨"A", .loc, 0, some [3]⟩]

/-- Two values are live together before the addition. -/
def crowdedFunc : Func where
  name := "f"
  void := false
  locals := [0]
  stmts := [.move (.temp 0) (.const 1), .move (.temp 1) (.const 2),
    .binary (.temp 2) (.temp 0) .add (.temp 1), .ret (some (.temp 2))]

/-- The example with one register: one value is spilled. -/
theorem Coloring.run_safe_crowded : ∃ a, crowdedFunc.analyze crowdedVars = .ok a ∧
    (run crowdedVars crowdedFunc a.graph {} [Reg.a 0]).spills = [⟨0, 1, 3⟩] ∧
    (run crowdedVars crowdedFunc a.graph {} [Reg.a 0]).locs.verify crowdedFunc.name
      a.live.live.toList = .ok () ∧
    LaidOut crowdedVars crowdedFunc (run crowdedVars crowdedFunc a.graph {} [Reg.a 0]) := by
  -- with the tests computed first, the analysis itself is never written out
  have htest : (crowdedFunc.analyze crowdedVars).toOption.any (fun a =>
      (List.range crowdedFunc.stmts.length).all a.reachable.contains &&
      decide ((run crowdedVars crowdedFunc a.graph {} [Reg.a 0]).error = none) &&
      decide ((run crowdedVars crowdedFunc a.graph {} [Reg.a 0]).spills = [⟨0, 1, 3⟩])) = true := by
    simp only [Func.analyze, Liveness.analyze_eq_solveList]
    decide +kernel
  obtain ⟨a, ha, hp⟩ := exists_ok_of_any htest
  simp only [Bool.and_eq_true, decide_eq_true_eq] at hp
  obtain ⟨⟨hall, hok⟩, hspills⟩ := hp
  have hpos : crowdedVars.Positive crowdedFunc.locals := by
    intro id hid v hv _
    obtain rfl := List.mem_singleton.1 hid
    cases hv
    decide
  have hfit : arrayWords crowdedVars crowdedFunc.locals +
      (run crowdedVars crowdedFunc a.graph {} [Reg.a 0]).spills.length < 9223372036854775808 := by
    rw [hspills]
    decide
  have hregs : ∀ r ∈ [Reg.a 0], r.Valid := by decide
  obtain ⟨hverify, _, hlaid⟩ := Coloring.run_safe ha hpos (Func.dead_of_all_reachable ha hall)
    hregs hok
  exact ⟨a, ha, hspills, hverify, hlaid hfit⟩

/-- Two local arrays of 2^62 words each: their words are too many to be counted in 64 bits. -/
def hugeVars : VarTable :=
  #[⟨"A", .loc, 0, some [4611686018427387904]⟩, ⟨"B", .loc, 1, some [4611686018427387904]⟩]

/-- A function that has the two arrays and returns at once. -/
def hugeFunc : Func where
  name := "main"
  void := true
  locals := [0, 1]
  stmts := [.ret none]

/-- The count of words wraps around to a negative size, which has no room for any word. -/
theorem Coloring.run_huge_not_laidOut : ∃ a, hugeFunc.analyze hugeVars = .ok a ∧
    hugeVars.Positive hugeFunc.locals ∧
    (∀ i, i < hugeFunc.stmts.length → ¬ a.flow.Reaches i → ∀ u,
      (a.live.liveAt i).contains u = false) ∧
    (run hugeVars hugeFunc a.graph {} []).error = none ∧
    (run hugeVars hugeFunc a.graph {} []).spillSize = -9223372036854775808 ∧
    ¬ LaidOut hugeVars hugeFunc (run hugeVars hugeFunc a.graph {} []) := by
  -- The analysis is run through its list form, which can be evaluated.
  have htest : (hugeFunc.analyze hugeVars).toOption.any (fun a =>
      (List.range hugeFunc.stmts.length).all a.reachable.contains &&
      decide ((run hugeVars hugeFunc a.graph {} []).error = none) &&
      decide ((run hugeVars hugeFunc a.graph {} []).spillSize = -9223372036854775808) &&
      decide ((run hugeVars hugeFunc a.graph {} []).arrays[(0 : VarId)]? =
        some (.stack 0 4611686018427387904))) = true := by
    simp only [Func.analyze, Liveness.analyze_eq_solveList]
    decide +kernel
  obtain ⟨a, ha, hp⟩ := exists_ok_of_any htest
  simp only [Bool.and_eq_true, decide_eq_true_eq] at hp
  obtain ⟨⟨⟨hall, hok⟩, hsize⟩, harray⟩ := hp
  refine ⟨a, ha, fun id hid v hv _ => ?_, Func.dead_of_all_reachable ha hall, hok, hsize,
    fun hlaid => ?_⟩
  · rcases List.mem_cons.1 hid with rfl | hid
    · cases hv
      decide
    · obtain rfl := List.mem_singleton.1 hid
      cases hv
      decide
  -- Slot 0 belongs to the first array and would have to lie below a negative bound.
  · have hword : (0 : Int) ∈ (Loc.stack 0 4611686018427387904).words := by
      simp [Loc.words]
    have := hlaid.arrays_inside 0 _ harray hword
    rw [hsize] at this
    exact absurd this.2 (by decide)

/-! ## The whole allocation -/

/-- Where the rounds of analysis settle: the last one is an analysis that prunes nothing, and what
pruning keeps holds of its function. -/
theorem Func.settle_induction {vars : VarTable} {P : Func → Prop} {f : Func} {rounds : List Analysis}
    (hP : ∀ a : Analysis, a.func.analyze vars = .ok a → P a.func → P (a.prune vars).func)
    (hf : P f) (h : f.settle vars = (rounds, none)) :
    ∃ a, rounds.getLast? = some a ∧ a.func.analyze vars = .ok a ∧ (a.prune vars).removed = [] ∧
      P a.func := by
  -- induction on the rounds: a round that removes statements keeps the rest of the function
  fun_induction Func.settle vars f generalizing rounds with
  | case1 f e he => cases h
  | case2 f a ha hr =>
    cases h
    have hfunc := Func.analyze_func ha
    exact ⟨a, rfl, hfunc ▸ ha, hr, hfunc.symm ▸ hf⟩
  | case3 f a ha hr tail e heq ih =>
    cases h
    have hfunc := Func.analyze_func ha
    obtain ⟨b, hlast, hb⟩ := ih (hP a (hfunc.symm ▸ ha) (hfunc.symm ▸ hf)) heq
    refine ⟨b, ?_, hb⟩
    rw [List.getLast?_cons, hlast]
    rfl

/-- The last round of pruning removes nothing. -/
theorem Func.settle_last {vars : VarTable} {f : Func} {rounds : List Analysis}
    (h : f.settle vars = (rounds, none)) : ∃ a, rounds.getLast? = some a ∧
      a.func.analyze vars = .ok a ∧ (a.prune vars).removed = [] ∧ a.func.name = f.name ∧
      a.func.params = f.params ∧ a.func.locals = f.locals :=
  Func.settle_induction (P := fun g => g.name = f.name ∧ g.params = f.params ∧ g.locals = f.locals)
    (fun _ _ h => h) ⟨rfl, rfl, rfl⟩ h

/-- A placement comes from the colouring of the last round, which passed its check. -/
theorem Func.allocate_parts {vars : VarTable} {regs : List Reg} {f : Func} {p : Placement}
    (h : (f.allocate vars regs).outcome = .ok p) : ∃ rounds a c, f.settle vars = (rounds, none) ∧
      rounds.getLast? = some a ∧
      Coloring.run vars a.func a.graph (Affinity.ofFunc vars a.func) regs = c ∧ c.error = none ∧
      c.locs.verify a.func.name a.live.live.toList = .ok () ∧
      p = { func := a.func, live := a.live.live, meet := a.live.meet, locs := c.locs
            arrays := c.arrays, spillSize := c.spillSize } := by
  unfold Func.allocate at h
  split at h
  · cases h
  · cases h
  -- Pruning, coloring and the check all have to succeed.
  · next rounds hsettle =>
    obtain ⟨a, hlast, -⟩ := Func.settle_last hsettle
    rw [hlast] at h
    simp only at h
    split at h
    · simp only [Coloring.place] at h
      split at h
      · cases h
      · next herr =>
        split at h
        · cases h
        · next hverify =>
          cases h
          exact ⟨rounds, a, _, hsettle, hlast, rfl, herr, hverify, rfl⟩
    · cases h

/-- What stands behind the placement of a function: the analysis of its statements, nothing left to
prune, a colouring without error and its check. -/
structure Placement.Allocated (vars : VarTable) (regs : List Reg) (f : Func) (p : Placement)
    (a : Analysis) (c : Coloring) : Prop where
  analyzed : p.func.analyze vars = .ok a
  clean : (a.prune vars).removed = []
  name_eq : p.func.name = f.name
  params_eq : p.func.params = f.params
  locals_eq : p.func.locals = f.locals
  run_eq : Coloring.run vars p.func a.graph (Affinity.ofFunc vars p.func) regs = c
  no_error : c.error = none
  verified : c.locs.verify p.func.name a.live.live.toList = .ok ()
  live_eq : p.live = a.live.live
  meet_eq : p.meet = a.live.meet
  locs_eq : p.locs = c.locs
  arrays_eq : p.arrays = c.arrays
  spillSize_eq : p.spillSize = c.spillSize

/-- What a successful allocation consists of. -/
theorem Func.allocated_of_ok {vars : VarTable} {regs : List Reg} {f : Func} {p : Placement}
    (h : (f.allocate vars regs).outcome = .ok p) : ∃ a c, Placement.Allocated vars regs f p a c := by
  obtain ⟨rounds, a, c, hsettle, hlast, hrun, herr, hverify, rfl⟩ := Func.allocate_parts h
  obtain ⟨b, hlast', ha, hclean, hname, hparams, hlocals⟩ := Func.settle_last hsettle
  obtain rfl : a = b := Option.some.inj (hlast.symm.trans hlast')
  exact ⟨a, c, ⟨ha, hclean, hname, hparams, hlocals, hrun, herr, hverify, rfl, rfl, rfl, rfl, rfl⟩⟩

/-- Values that the check saw live together are apart in the placement. -/
theorem Placement.Allocated.separates {vars : VarTable} {regs : List Reg} {f : Func} {p : Placement}
    {a : Analysis} {c : Coloring} (h : p.Allocated vars regs f a c) (i : Nat) :
    p.locs.Separates (p.live.getD i BitSet.empty) := by
  rw [h.locs_eq, h.live_eq, Array.getD_eq_getD_getElem?]
  cases hi : a.live.live[i]? with
  | none => exact ⟨fun u hu => by simp at hu, fun u v l m hu => by simp at hu⟩
  | some s =>
    have hmem : s ∈ a.live.live.toList := by
      rw [Array.mem_toList_iff]
      exact Array.mem_of_getElem? hi
    exact (Locs.verify_eq_ok_iff _ _ _).1 h.verified s hmem

/-! ## Parameters on entry -/

/-- Different parameters are different registers. -/
theorem VReg.param_injective {i j : Nat} (h : VReg.param i = VReg.param j) : i = j := by
  have hnum : 3 * i + 2 = 3 * j + 2 := h
  omega

/-- A parameter live on entry is in the register that passes it exactly when no later parameter
shares its location; a later parameter that does is not live on entry.  Both are placed, but the
swap for the later one carries the earlier one along. -/
theorem Placement.param_placed_iff {vars : VarTable} {regs : List Reg} {f : Func} {p : Placement}
    (hok : (f.allocate vars regs).outcome = .ok p) {i : Nat} (hi : i < f.params.length)
    (hlive : VReg.param i ∈ p.liveAt 0) :
    (p.locs[VReg.param i]? = some (.reg (Reg.a i)) ↔
      ∀ j, i < j → j < f.params.length → p.locs[VReg.param j]? ≠ p.locs[VReg.param i]?) ∧
    ∀ j, i < j → j < f.params.length → p.locs[VReg.param j]? = p.locs[VReg.param i]? →
      VReg.param j ∉ p.liveAt 0 := by
  obtain ⟨a, c, ha⟩ := Func.allocated_of_ok hok
  have hsep := ha.separates 0
  have hmem : ∀ u, u ∈ p.liveAt 0 ↔ (p.live.getD 0 BitSet.empty).contains u = true := fun u =>
    BitSet.mem_toList _ u
  obtain ⟨l, hl⟩ := hsep.located _ ((hmem _).1 hlive)
  -- the locations are those after all swaps
  have hrun := ha.run_eq
  have hnone := ha.no_error
  subst hrun
  obtain ⟨_, _, _, locs, _, hplace⟩ := Coloring.run_phases hnone
  rw [ha.params_eq, ← ha.locs_eq] at hplace
  obtain ⟨σ, hplaced⟩ := Coloring.placeParams_spec _ 0 hplace
  rw [zero_add] at hplaced
  obtain ⟨m, him, hmn, rfl, hshare, hlast⟩ := hplaced.last_sharer hi hl
  rw [hl]
  refine ⟨⟨fun heq j hj hjn hsame => ?_, fun hnone => ?_⟩, fun j hj hjn hsame hjlive => ?_⟩
  · -- it is in the register of the last sharer, so it is the last sharer itself
    have hmi : m = i := Reg.a_injective (Loc.reg.inj (Option.some.inj heq))
    exact hlast j (by omega) hjn hsame
  · have hmi : m = i := by
      by_contra hne
      exact hnone m (by omega) hmn hshare
    rw [hmi]
  · have hne : VReg.param i ≠ VReg.param j := fun h => by
      have := VReg.param_injective h
      omega
    have hapart := hsep.apart _ _ _ _ ((hmem _).1 hlive) ((hmem _).1 hjlive) hne hl hsame
    simp [Loc.clashes] at hapart

/-- A function whose first analysis prunes nothing is settled at once. -/
theorem Func.settle_of_clean {vars : VarTable} {f : Func} {a : Analysis}
    (h : f.analyze vars = .ok a) (hclean : (a.prune vars).removed = []) :
    f.settle vars = ([a], none) := by
  unfold Func.settle
  split
  · next e he =>
    rw [h] at he
    cases he
  · next b hb =>
    rw [h] at hb
    cases hb
    rw [dif_pos hclean]

/-- Two parameters. -/
def sharedVars : VarTable := #[⟨"a", .arg, 0, none⟩, ⟨"b", .arg, 1, none⟩]

/-- The first parameter is live on entry; the second is written before it is read, when the first is
no longer needed, so the two may share a register. -/
def sharedFunc : Func where
  name := "f"
  void := false
  params := [0, 1]
  stmts := [.binary (.temp 8) (.var 0) .add (.const 1), .binary (.temp 9) (.var 0) .add (.const 2),
    .call none "g" [.temp 8, .temp 9], .move (.var 1) (.const 7),
    .binary (.temp 10) (.var 1) .add (.const 1), .binary (.temp 11) (.var 1) .add (.const 2),
    .call none "g" [.temp 11, .temp 10], .ret (some (.const 0))]

/-- The first parameter of `sharedFunc` is not in `a0` although it is live on entry. -/
theorem Placement.param_not_placed_shared : ∃ p,
    (sharedFunc.allocate sharedVars Reg.allocatable).outcome = .ok p ∧
      VReg.param 0 ∈ p.liveAt 0 ∧ p.locs[VReg.param 0]? = some (.reg (Reg.a 1)) ∧
      p.locs[VReg.param 0]? ≠ some (.reg (Reg.a 0)) ∧ VReg.param 1 ∉ p.liveAt 0 := by
  have htest : (sharedFunc.analyze sharedVars).toOption.any (fun a =>
      decide ((a.prune sharedVars).removed = []) &&
      ((Coloring.run sharedVars a.func a.graph (Affinity.ofFunc sharedVars a.func)
        Reg.allocatable).place a).toOption.any fun p =>
          decide (VReg.param 0 ∈ p.liveAt 0) &&
          decide (p.locs[VReg.param 0]? = some (.reg (Reg.a 1))) &&
          decide (p.locs[VReg.param 1]? = some (.reg (Reg.a 1)))) = true := by
    simp only [Func.analyze, Liveness.analyze_eq_solveList]
    decide +kernel
  obtain ⟨a, ha, hp⟩ := exists_ok_of_any htest
  rw [Bool.and_eq_true] at hp
  obtain ⟨hclean, hp⟩ := hp
  obtain ⟨p, hplace, hp⟩ := exists_ok_of_any hp
  simp only [Bool.and_eq_true, decide_eq_true_eq] at hp
  obtain ⟨⟨hlive, h0⟩, h1⟩ := hp
  -- one round suffices, so the placement is that of the first colouring
  have hok : (sharedFunc.allocate sharedVars Reg.allocatable).outcome = .ok p := by
    rw [Func.allocate, Func.settle_of_clean ha (of_decide_eq_true hclean)]
    exact hplace
  have hiff := Placement.param_placed_iff hok (i := 0) (by decide) hlive
  refine ⟨p, hok, hlive, h0, fun heq => ?_, hiff.2 1 (by decide) (by decide) (by rw [h0, h1])⟩
  exact hiff.1.1 heq 1 (by decide) (by decide) (by rw [h0, h1])

end Tac
