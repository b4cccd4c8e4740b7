import Tac.Interference
import Tac.Session.Sets

/-!
# Working with a graph

Requests on one interference graph.  Nodes come as integers; a negative one names no virtual
register and is refused where it is looked up, after what came before it was done.
-/

namespace Tac.Session

/-- A request on a graph. -/
inductive GraphRequest where
  | node (u : Int)
  | edge (a b : Int)
  | clique (us : List Int)
  | remove (u : Int)
  | degree (u : Int)
  | interferes (a b : Int)
  | removed (u : Int)

/-- The answer to a request. -/
inductive GraphReply where
  /-- The graph was changed; its new state is to be shown. -/
  | changed
  | nat (n : Nat)
  | bool (b : Bool)
  | nodes (us : List VReg)
  /-- A negative node, or one that is not there. -/
  | fault

/-- The node of an integer. -/
def node? (u : Int) : Option VReg := if 0 ≤ u then some u.toNat else none

/-- Joins two nodes. -/
def joinNodes (g : Graph) (a b : Int) : Graph × GraphReply :=
  if a = b then (g, .changed)
  else match node? a, node? b with
    | some a, some b => (g.addEdge a b, .changed)
    | some a, none => (g.addNode a, .fault)
    | none, _ => (g, .fault)

/-- Whether two nodes interfere. -/
def interferesReply (g : Graph) (a b : Int) : GraphReply :=
  match node? a, node? b with
  | some a, some b => .bool (g.interferes a b)
  | some a, none => if g.edges.contains a then .fault else .bool false
  | none, _ => .bool false

/-- Carries out a request. -/
def handleGraph (g : Graph) : GraphRequest → Graph × GraphReply
  | .node u =>
    match node? u with
    | some u => (g.addNode u, .changed)
    | none => (g, .fault)
  | .edge a b => joinNodes g a b
  | .clique us =>
    match addKeys BitSet.empty us with
    | (s, true) => (g.clique s, .changed)
    | (_, false) => (g, .fault)
  | .remove u =>
    match (node? u).bind g.remove? with
    | some g => (g, .changed)
    | none => (g, .fault)
  | .degree u => (g, .nat (((node? u).map g.degree).getD 0))
  | .interferes a b => (g, interferesReply g a b)
  | .removed u =>
    match (node? u).bind g.removed? with
    | some s => (g, .nodes s.toList)
    | none => (g, .fault)

/-- The graph with the given nodes and cliques; none if a node is negative. -/
def graphOf? (nodes : List Int) (cliques : List (List Int)) : Option Graph := do
  let g ← nodes.foldlM (fun g u => (node? u).map g.addNode) Graph.empty
  cliques.foldlM
    (fun g us => match addKeys BitSet.empty us with
      | (s, true) => some (g.clique s)
      | (_, false) => none)
    g

/-- Every node with its degree and its neighbours, ascending. -/
def graphRows (g : Graph) : List (VReg × Nat × List VReg) :=
  g.nodes.toList.map fun u => (u, g.degree u, (g.neighbours u).toList)

end Tac.Session
