import Std.Data.TreeMap
import Tac.Liveness

/-!
# Interference graphs

Two virtual registers interfere when they are live before the same reachable statement.  Nodes leave
the graph one by one; the edges of a node that left are remembered on both ends, so that the
registers given to its former neighbours can be avoided later.
-/

namespace Tac

/-- A graph over virtual registers, with the edges of nodes that were taken out. -/
structure Graph where
  /-- The nodes present. -/
  nodes : BitSet := BitSet.empty
  /-- The present neighbours of each node. -/
  edges : Std.TreeMap Nat BitSet := {}
  /-- The neighbours that each node lost, by their leaving or its own. -/
  removed : Std.TreeMap Nat BitSet := {}
  /-- The number of present neighbours. -/
  deg : Std.TreeMap Nat Nat := {}

namespace Graph

/-- The graph without nodes. -/
def empty : Graph := {}

/-- The number of nodes present. -/
def size (g : Graph) : Nat := g.nodes.size

/-- The present neighbours of a node. -/
def neighbours (g : Graph) (u : VReg) : BitSet := g.edges.getD u BitSet.empty

/-- The neighbours that a node lost; none if the node was never added. -/
def removed? (g : Graph) (u : VReg) : Option BitSet := g.removed[u]?

/-- The neighbours that a node lost. -/
def lost (g : Graph) (u : VReg) : BitSet := g.removed.getD u BitSet.empty

/-- The number of present neighbours of a node. -/
def degree (g : Graph) (u : VReg) : Nat := g.deg.getD u 0

/-- Adds a node without edges, unless it is present. -/
def addNode (g : Graph) (u : VReg) : Graph :=
  if g.nodes.contains u then g
  else
    { g with nodes := g.nodes.insert u
             edges := g.edges.insert u BitSet.empty
             removed := g.removed.insert u BitSet.empty }

/-- Joins two different nodes, adding them if needed. -/
def addEdge (g : Graph) (a b : VReg) : Graph :=
  if a = b then g
  else
    let g := (g.addNode a).addNode b
    if (g.neighbours a).contains b then g
    else
      let edges := g.edges.insert a ((g.neighbours a).insert b)
      { g with edges := edges.insert b ((edges.getD b BitSet.empty).insert a)
               deg := (g.deg.insert a (g.degree a + 1)).insert b (g.degree b + 1) }

/-- Joins each of the listed nodes with all that follow it. -/
def joinAll (g : Graph) : List VReg → Graph
  | [] => g
  | a :: us => (us.foldl (fun g b => g.addEdge a b) (g.addNode a)).joinAll us

/-- Joins every two members of a set. -/
def clique (g : Graph) (s : BitSet) : Graph := g.joinAll s.toList

/-- Whether two nodes are or were joined. -/
def interferes (g : Graph) (a b : VReg) : Bool :=
  (g.neighbours a).contains b || (g.lost a).contains b

/-- Moves the edge from `v` to the leaving node `u` to the lost ones of `v`. -/
def detach (u : VReg) (g : Graph) (v : VReg) : Graph :=
  { g with edges := g.edges.insert v ((g.neighbours v).erase u)
           removed := g.removed.insert v ((g.lost v).insert u)
           deg := g.deg.insert v (g.degree v - 1) }

/-- Takes a node out; none if it is not there. -/
def remove? (g : Graph) (u : VReg) : Option Graph :=
  if g.nodes.contains u then
    let e := g.neighbours u
    let g := e.toList.foldl (detach u) g
    some { nodes := g.nodes.erase u
           edges := g.edges.insert u BitSet.empty
           removed := g.removed.insert u ((g.lost u).union e)
           deg := g.deg.insert u 0 }
  else none

/-- Takes a node out if it is there. -/
def remove (g : Graph) (u : VReg) : Graph := (g.remove? u).getD g

/-- The interference graph: a clique for the live set of each reachable statement. -/
def build (live : Liveness) (reachable : BitSet) : Graph :=
  reachable.toList.foldl (fun g i => g.clique (live.liveAt i)) empty

end Graph

end Tac
