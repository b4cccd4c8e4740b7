import Tac.Affinity
import Tac.Interference

/-!
# Colouring an interference graph

Registers are given out in three phases.

* *Taking out.*  As long as nodes are left, the lowest node with fewer neighbours than there are
  registers leaves the graph and waits on a stack.  If there is none, the lowest of the
  non-parameters with the most neighbours is spilled to a stack slot.  If only parameters are left,
  the lowest leaves.
* *Giving registers.*  Nodes come back last in, first out; each takes a register that no former
  neighbour holds, a preferred one if possible.  A parameter may also take the register that passes
  it.
* *Placing parameters.*  Each parameter is put into the register that passes it by swapping the two
  registers in all locations.
-/

namespace Tac

/-- A value that lives in a stack slot because too many values interfere with it. -/
structure Spill where
  node : VReg
  degree : Nat
  slot : Int
deriving DecidableEq, Repr

/-- What became of a parameter. -/
inductive ParamFate where
  /-- No location: nothing reads it. -/
  | unused (param : Nat)
  /-- It was already in place. -/
  | kept (param : Nat)
  /-- It was put in place by swapping two registers everywhere. -/
  | swapped (param : Nat) (have_ want : Reg)
deriving DecidableEq, Repr

/-- Why colouring failed. -/
inductive ColorError where
  | noRegister (func : String) (node : VReg)
  | tooManyParameters (func : String) (count : Nat)
  | parameterSpilled (func : String) (node : VReg)
deriving DecidableEq, Repr

/-- The wording of a colouring error. -/
def ColorError.text : ColorError → String
  | noRegister f u => "func " ++ f ++ ": no register for " ++ VReg.text u
  | tooManyParameters f n => "func " ++ f ++ ": too many parameters: " ++ Text.decimal n
  | parameterSpilled f u => "func " ++ f ++ ": parameter " ++ VReg.text u ++ " spilled"

/-- The message of a colouring error. -/
def ColorError.message (e : ColorError) : String := "internal error: " ++ e.text

/-- The outcome of colouring; after an error it holds what was decided before. -/
structure Coloring where
  /-- The number of nodes at the start. -/
  nodes : Nat
  spills : List Spill
  locs : Locs
  arrays : Std.TreeMap Int Loc
  /-- The words of the frame taken by arrays and spilled values. -/
  spillSize : Int
  params : List ParamFate
  error : Option ColorError

namespace Coloring

/-- The number of register swaps. -/
def swaps (c : Coloring) : Nat :=
  c.params.countP fun | .swapped .. => true | _ => false

/-! ## Frame words of arrays -/

/-- Lays out local arrays one after the other from word `slot`. -/
def layoutArrays (vars : VarTable) (slot : Int) (arrays : Std.TreeMap Int Loc) :
    List VarId → Std.TreeMap Int Loc × Int
  | [] => (arrays, slot)
  | id :: ids =>
    match vars.get? id with
    | some v =>
      if v.isArray then
        layoutArrays vars (wrap64 (slot + v.elems)) (arrays.insert id (Loc.inStack slot v.elems)) ids
      else layoutArrays vars slot arrays ids
    | none => layoutArrays vars slot arrays ids

/-! ## Taking nodes out -/

/-- The state while nodes are taken out. -/
structure Taking where
  graph : Graph
  /-- Nodes to be coloured, the latest first. -/
  stack : List VReg := []
  /-- Spilled nodes, the latest first. -/
  spills : List Spill := []
  locs : Locs := {}
  slot : Int

/-- The lowest node with fewer than `k` neighbours. -/
def easiest? (g : Graph) (k : Nat) : Option VReg := g.nodes.toList.find? fun u => g.degree u < k

/-- The lowest of the nodes with the most neighbours among `us`. -/
def busiest? (g : Graph) : List VReg → Option VReg
  | [] => none
  | u :: us =>
    match busiest? g us with
    | none => some u
    | some v => if g.degree u < g.degree v then some v else some u

/-- The node to spill: the lowest non-parameter with the most neighbours. -/
def spillCandidate? (g : Graph) : Option VReg :=
  busiest? g (g.nodes.toList.filter fun u => (VReg.paramIndex? u).isNone)

/-- Takes one node out. -/
def takeOne (k : Nat) (t : Taking) : Taking :=
  let push (u : VReg) := { t with graph := t.graph.remove u, stack := u :: t.stack }
  match easiest? t.graph k with
  | some u => push u
  | none =>
    match spillCandidate? t.graph with
    | some u =>
      { t with graph := t.graph.remove u
               spills := { node := u, degree := t.graph.degree u, slot := t.slot } :: t.spills
               locs := t.locs.insert u (Loc.inStack t.slot 1)
               slot := wrap64 (t.slot + 1) }
    | none =>
      match t.graph.nodes.toList.head? with
      | some u => push u
      | none => t

/-- Takes out the given number of nodes. -/
def takeAll (k : Nat) : Nat → Taking → Taking
  | 0, t => t
  | n + 1, t => takeAll k n (takeOne k t)

/-! ## Giving registers -/

/-- The registers that a node may take; a parameter may take the one that passes it. -/
def candidates (regs : List Reg) (u : VReg) : List Reg :=
  match (VReg.paramIndex? u).bind fun i => Reg.arg? i with
  | some a => if a ∈ regs then regs else regs ++ [a]
  | none => regs

/-- The registers that former neighbours of a node hold. -/
def busy (g : Graph) (locs : Locs) (u : VReg) : RegSet :=
  RegSet.ofList ((g.lost u).toList.filterMap fun v => (locs[v]?).bind Loc.reg?)

/-- The first preferred register that is allowed and free, otherwise the first free one. -/
def choose (regs : List Reg) (taken : RegSet) (hints : List Reg) : Option Reg :=
  let allowed := RegSet.ofList regs
  (hints.find? fun r => allowed.contains r && !taken.contains r).or
    (regs.find? fun r => !taken.contains r)

/-- Gives registers to the nodes of a stack; on failure the node that got none. -/
def giveAll (regs : List Reg) (g : Graph) (h : Affinity) : Locs → List VReg → Locs × Option VReg
  | locs, [] => (locs, none)
  | locs, u :: us =>
    match choose (candidates regs u) (busy g locs u) (h.recommend u locs) with
    | some r => giveAll regs g h (locs.insert u (.reg r)) us
    | none => (locs, some u)

/-! ## Placing parameters -/

/-- Exchanges two registers in a location. -/
def swapLoc (a b : Reg) : Loc → Loc
  | .reg r => .reg (if r = a then b else if r = b then a else r)
  | l => l

/-- Exchanges two registers in all locations. -/
def swapAll (a b : Reg) (locs : Locs) : Locs := locs.map fun _ l => swapLoc a b l

/-- Puts the parameters from number `i` on into the registers that pass them; `left` is how many
there are from there. -/
def placeParams (func : String) (count : Nat) :
    Nat → Nat → Locs → List ParamFate → Locs × List ParamFate × Option ColorError
  | 0, _, locs, fates => (locs, fates.reverse, none)
  | left + 1, i, locs, fates =>
    match locs[VReg.param i]? with
    | none => placeParams func count left (i + 1) locs (.unused i :: fates)
    | some l =>
      match Reg.arg? i, l with
      | none, _ => (locs, fates.reverse, some (.tooManyParameters func count))
      | some _, .stack .. => (locs, fates.reverse, some (.parameterSpilled func (VReg.param i)))
      | some want, .reg r =>
        if r = want then placeParams func count left (i + 1) locs (.kept i :: fates)
        else placeParams func count left (i + 1) (swapAll r want locs) (.swapped i r want :: fates)

/-- Colours the graph of a function with the registers `regs`; no registers means all that are
allocatable. -/
def run (vars : VarTable) (f : Func) (g : Graph) (h : Affinity) (regs : List Reg) : Coloring :=
  let regs := if regs.isEmpty then Reg.allocatable else regs
  let (arrays, slot) := layoutArrays vars 0 {} f.locals
  let t := takeAll regs.length g.size { graph := g, slot }
  let spills := t.spills.reverse
  match giveAll regs t.graph h t.locs t.stack with
  | (locs, some u) =>
    { nodes := g.size, spills, locs, arrays, spillSize := t.slot, params := []
      error := some (.noRegister f.name u) }
  | (locs, none) =>
    let (locs, params, error) := placeParams f.name f.params.length f.params.length 0 locs []
    { nodes := g.size, spills, locs, arrays, spillSize := t.slot, params, error }

end Coloring

end Tac
