import Tac.Compiler

/-!
# The log of a compilation

Every stage can tell what it did.  Most events belong to a topic and are told only when the topic is
asked for; warnings are always told.  The log of a compilation lists the events in the order of the
stages and ends at the first error.

The stages themselves keep no log: events are read off what they compute.
-/

namespace Tac.Trace

/-- A logged value. -/
inductive Value where
  | int (n : Int)
  | text (s : String)
  | list (vs : List Value)
  | record (fields : List (String × Value))
deriving Inhabited

/-- A logged message with its values. -/
structure Event where
  /-- The topic under which the event is told; none for events that are always told. -/
  topic : Option String
  message : String
  fields : List (String × Value)

/-- Events and the error that ended them, if any. -/
structure Log (ε : Type) where
  events : List Event
  error : Option ε

/-- A whole number as a logged value. -/
def nat (n : Nat) : Value := .int n

/-- Whole numbers as a logged value. -/
def nats (ns : List Nat) : Value := .list (ns.map nat)

/-- A virtual register by name. -/
def vreg (u : VReg) : Value := .text (VReg.text u)

/-- Keeps the events that are told under the given topics. -/
def told (topics : List String) (es : List Event) : List Event :=
  es.filter fun e => match e.topic with | none => true | some t => topics.contains t

/-- The kind of a statement, as the log names it. -/
def stmtKind : Stmt → String
  | .binary .. => "*ir.Binary"
  | .unary .. => "*ir.Unary"
  | .move .. => "*ir.Mov"
  | .store .. => "*ir.ArraySet"
  | .load .. => "*ir.ArrayGet"
  | .branch .. => "*ir.CondGoto"
  | .jump _ => "*ir.Goto"
  | .label _ => "*ir.Label"
  | .call none .. => "*ir.CallVoid"
  | .call (some _) .. => "*ir.Call"
  | .ret none => "*ir.ReturnVoid"
  | .ret (some _) => "*ir.Return"
  | .zeroFill _ => "*ir.FillZero"

/-- An operand: its kind by number, and its number. -/
def operand : Val → Value
  | .const n => .record [("Kind", .int 0), ("N", .int n)]
  | .temp n => .record [("Kind", .int 1), ("N", .int n)]
  | .var n => .record [("Kind", .int 2), ("N", .int n)]

/-- A field of an instruction. -/
def field : Field → Value
  | .reg r => .text r.name
  | .regs l r => .list [.text l.name, .text r.name]
  | .binOp op => .text op.text
  | .unOp op => .text op.text
  | .rel r => .text r.text
  | .int n => .int n
  | .text s => .text s

/-! ## Generation -/

/-- The events of generating functions after the given progress. -/
def generateFuncs (builtins : Bool) (decls : Tree.Decls) :
    Tree.Generate.Progress → List Tree.FuncDef → Log Tree.GenError × Tree.Generate.Progress
  | p, [] => ({ events := [], error := none }, p)
  | p, f :: fs =>
    let matched := match Tree.Generate.replacement builtins decls f with
      | some b =>
        [{ topic := none, message := "builtin pattern matched"
           fields := [("func", .text f.name), ("pattern", .text b)] : Event }]
      | none => []
    let matched := if Reg.argCount < f.params.length then [] else matched
    match Tree.Generate.addFunc builtins decls p f with
    | .error e => ({ events := matched, error := some e }, p)
    | .ok q =>
      let made := match q.program.funcs.getLast? with
        | some g =>
          [{ topic := some "dump_irgen", message := "generated"
             fields := [("func", .text f.name), ("stmts", nat g.stmts.length),
               ("temps", nat g.temps.length)] : Event }]
        | none => []
      let (rest, last) := generateFuncs builtins decls q fs
      ({ rest with events := matched ++ made ++ rest.events }, last)

/-- The events of generating a program from a tree, and the program. -/
def generate (builtins : Bool) (u : Tree.CompUnit) : Log Tree.GenError × Program :=
  match Tree.Generate.withGlobals u with
  | .error e => ({ events := [], error := some e }, {})
  | .ok p =>
    let (log, q) := generateFuncs builtins u.decls p u.funcs
    (log, q.program)

/-! ## Optimisation and analysis -/

/-- The events of optimising a program. -/
def optimize (p : Program) : List Event :=
  (p.funcs.zip p.optimize.2).map fun (f, n) =>
    { topic := some "peephole", message := "peephole done"
      fields := [("func", .text f.name), ("rewrites", nat n)] }

/-- The events of one round of analysis. -/
def round (vars : VarTable) (a : Analysis) : List Event :=
  let name := Value.text a.func.name
  let stmts := a.func.stmts.zipIdx
  let flow := stmts.map fun (s, i) =>
    { topic := some "dump_cfg", message := "cfg"
      fields := [("func", name), ("i", nat i), ("typ", .text (stmtKind s)),
        ("next", nats (a.flow.nextOf i)), ("prev", nats (a.flow.prevOf i))] : Event }
  let liveDone : Event :=
    { topic := some "live_stats", message := "liveness done"
      fields := [("stmts", nat stmts.length), ("steps", nat a.live.steps)] }
  let live := stmts.map fun (s, i) =>
    { topic := some "dump_live", message := "live"
      fields := [("i", nat i), ("typ", .text (stmtKind s)), ("live", nats (a.live.liveAt i).toList),
        ("meet", nats (a.live.meetAt i).toList)] : Event }
  let nodes := a.graph.nodes.toList.map fun u =>
    { topic := some "dump_graph", message := "graph node"
      fields := [("func", name), ("node", vreg u), ("deg", nat (a.graph.degree u)),
        ("edges", nats (a.graph.neighbours u).toList)] : Event }
  let graph : Event :=
    { topic := some "graph_stats", message := "interference graph"
      fields := [("func", name), ("nodes", nat a.graph.size), ("cliques", nat a.reachable.size)] }
  let removed := (a.prune vars).removed.map fun (i, s) =>
    { topic := none, message := "unreachable statement removed"
      fields := [("func", name), ("i", nat i), ("typ", .text (stmtKind s))] : Event }
  flow ++ [liveDone] ++ live ++ nodes ++ [graph] ++ removed

/-! ## Allocation -/

/-- The events of a colouring. -/
def coloring (func : String) (c : Coloring) : List Event :=
  let spills := c.spills.map fun s =>
    { topic := none, message := "spill"
      fields := [("func", .text func), ("node", vreg s.node), ("degree", nat s.degree),
        ("slot", .int s.slot)] : Event }
  let params := c.params.filterMap fun
    | .unused i => some
      { topic := none, message := "warning: parameter is not used"
        fields := [("func", .text func), ("param", nat i)] : Event }
    | .kept _ => none
    | .swapped i a b => some
      { topic := some "regalloc_swap", message := "swap registers"
        fields := [("func", .text func), ("param", nat i), ("a", .text a.name),
          ("b", .text b.name)] }
  spills ++ params

/-- The events that list locations. -/
def locations (locs : Locs) : List Event :=
  locs.toList.map fun (u, l) =>
    { topic := some "dump_regalloc", message := "location"
      fields := [("node", vreg u), ("loc", .text l.text)] }

/-- The events of allocating functions until one fails, and the placed functions. -/
def allocate (vars : VarTable) (regs : List Reg) : List Func → Log StageError × List Placement
  | [] => ({ events := [], error := none }, [])
  | f :: fs =>
    let al := f.allocate vars regs
    let before := al.rounds.flatMap (round vars) ++
      (match al.coloring with | some c => coloring f.name c | none => [])
    match al.outcome, al.coloring with
    | .error e, _ => ({ events := before, error := some (.allocate f.name e) }, [])
    | .ok p, c =>
      let done : Event :=
        { topic := some "regalloc_stats", message := "allocated"
          fields := [("func", .text f.name), ("nodes", nat ((c.map Coloring.nodes).getD 0)),
            ("spills", nat ((c.map fun c => c.spills.length).getD 0)),
            ("swaps", nat ((c.map Coloring.swaps).getD 0)), ("spill_size", .int p.spillSize)] }
      let (rest, ps) := allocate vars regs fs
      ({ rest with events := before ++ locations p.locs ++ [done] ++ rest.events }, p :: ps)

/-- The events of finding what calls destroy. -/
def clobber (r : Clobber.Result) (ps : List Placement) : List Event :=
  { topic := some "clobber_stats", message := "fixpoint reached"
    fields := [("iterations", nat r.sweeps)] } ::
  ps.map fun p =>
    { topic := some "clobber", message := "destroy set"
      fields := [("func", .text p.func.name),
        ("set", .list ((r.sets.getD p.func.name RegSet.empty).toList.map fun x => .text x.name)),
        ("caller_save", nat (Clobber.callerSave r.sets p))] }

/-! ## Lowering -/

/-- The warnings of the first `count` statements of a function. -/
def elisions (cx : Lowering.Context) (count : Nat) : List Event :=
  (cx.placed.func.stmts.take count).zipIdx.filterMap fun (s, i) =>
    if Lowering.elided cx i s then
      s.dst?.map fun d =>
        { topic := none, message := "warning: value is never used, store elided"
          fields := [("func", .text cx.placed.func.name), ("i", nat i), ("dst", operand d)] }
    else none

/-- The events that list the code of a function. -/
def code (f : CodeFunc) : List Event :=
  f.body.zipIdx.map fun (x, i) =>
    { topic := some "dump_func_after", message := "instr"
      fields := [("i", nat i), ("typ", .text ("asm." ++ x.record.name)),
        ("val", .record (x.record.fields.map fun (k, v) => (k, field v)))] }

/-- The events of lowering functions until one fails. -/
def lower (vars : VarTable) (sets : ClobberSets) : Counters → List Placement → List Event
  | _, [] => []
  | c, p :: ps =>
    let cx : Lowering.Context := { vars, sets, placed := p }
    match Lowering.funcOrBuiltin cx c with
    | .error (.stmt _ i _) => elisions cx i
    | .error _ => []
    | .ok (f, c) =>
      let own := if p.func.builtin.isSome then [] else elisions cx p.func.stmts.length ++ code f
      own ++ lower vars sets c ps

/-- The events of the stages from a program to its code. -/
def compile (o : Options) (p : Program) : Log StageError :=
  let first := if o.peephole then optimize p else []
  let p := p.prepare o
  let (log, ps) := allocate p.vars o.regs p.funcs
  match log.error with
  | some e => { events := first ++ log.events, error := some e }
  | none =>
    match Program.clobber ps with
    | .error e => { events := first ++ log.events, error := some (.clobber e) }
    | .ok r =>
      let events := first ++ log.events ++ clobber r ps
      match Lowering.globals? p with
      | none => { events, error := some (.lower .malformed) }
      | some _ =>
        { events := events ++ lower p.vars r.sets p.counters ps
          error := match Lowering.program p r.sets ps with
            | .error e => some (.lower e)
            | .ok _ => none }

/-! ## Listing

Locations have no order of their own, so a run of them is listed by the text of its lines. -/

/-- The line of a location: by where it is, then by what is there.  The bracket ends the name. -/
def locationLine? (e : Event) : Option String :=
  match e.message, e.fields with
  | "location", [(_, .text node), (_, .text loc)] => some (loc ++ " node:" ++ node ++ "]")
  | _, _ => none

/-- Lists events after a run of locations that has been read but not listed yet. -/
def arrangeAfter (run : List (String × Event)) : List Event → List Event
  | [] => sorted
  | e :: es =>
    match locationLine? e with
    | some line => arrangeAfter ((line, e) :: run) es
    | none => sorted ++ e :: arrangeAfter [] es
where
  sorted : List Event :=
    (run.reverse.mergeSort fun a b => !decide (b.1 < a.1)).map Prod.snd

/-- Puts every run of locations in the order of its lines. -/
def arrange (es : List Event) : List Event := arrangeAfter [] es

/-- The log as it is listed under the given topics. -/
def listing (topics : List String) (es : List Event) : List Event := arrange (told topics es)

end Tac.Trace
