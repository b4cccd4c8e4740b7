import Tac.Text.Printable
import Tac.Text.Blank
import Tac.Text.Decimal
import Tac.Text.Quoted
import Tac.Word
import Tac.Wire
import Tac.BitSet
import Tac.Reg
import Tac.Operator
import Tac.Program
import Tac.VReg
import Tac.Program.Printer
import Tac.Program.Reader
import Tac.Peephole
import Tac.Flow
import Tac.Liveness
import Tac.Interference
import Tac.Forest
import Tac.Affinity
import Tac.Coloring
import Tac.Allocation
import Tac.Clobber
import Tac.Tree
import Tac.Tree.Dump
import Tac.Tree.Fold
import Tac.Arithmetic
import Tac.Code
import Tac.Builtin
import Tac.Tree.Generate
import Tac.Storage
import Tac.Lowering
import Tac.Code.Printer
import Tac.Riscv
import Tac.Machine
import Tac.Machine.Run
import Tac.Folder
import Tac.Compiler
import Tac.CommandLine
import Tac.Main
import Tac.Session.Sets
import Tac.Session.Graphs
import Tac.Session.Machines
import Tac.Trace
import Tac.Proofs.BitSet
import Tac.Proofs.RegSet
import Tac.Proofs.Flow
import Tac.Proofs.Liveness
import Tac.Proofs.LivePaths
import Tac.Proofs.Interference
import Tac.Proofs.Coloring
import Tac.Proofs.Parameters
import Tac.Proofs.Allocation
import Tac.Proofs.Pruning
import Tac.Proofs.Colorable
import Tac.Proofs.Machine
import Tac.Proofs.Semantics
import Tac.Proofs.Operands
import Tac.Proofs.Lowering
import Tac.Proofs.Statements
import Tac.Proofs.Places
import Tac.Proofs.Simulation
import Tac.Proofs.Passing
import Tac.Proofs.Calls
import Tac.Proofs.Effects
import Tac.Proofs.Hart
import Tac.Proofs.Emission
import Tac.Proofs.Clobber
import Tac.Proofs.CallClosure
import Tac.Proofs.Preserved
import Tac.Proofs.Unwinding
import Tac.Proofs.Initialization
import Tac.Proofs.Slots
import Tac.Proofs.ZeroFills
import Tac.Proofs.Frames
import Tac.Proofs.Execution
import Tac.Proofs.Peephole
import Tac.Proofs.Bodies
import Tac.Proofs.Units
import Tac.Proofs.Assignment
import Tac.Proofs.Shape
import Tac.Proofs.WellFormed
import Tac.Proofs.Assembly
import Tac.Proofs.Relaid
import Tac.Proofs.Names
import Tac.Proofs.Rereading
import Tac.Proofs.RoundTrip
import Tac.Proofs.Alike
import Tac.Proofs.Layout
import Tac.Proofs.ThroughText
import Tac.Proofs.Constants
import Tac.Proofs.Constructs
import Tac.Proofs.Sexps
import Tac.Proofs.Dumps
import Tac.Proofs.Sameness
import Tac.Proofs.CopyLoop
import Tac.Proofs.Copying
import Tac.Proofs.Halving
import Tac.Proofs.FiniteSets
import Tac.Proofs.GraphHistory
import Tac.Proofs.Numbering
import Tac.Proofs.Sealing
import Tac.Proofs.Addressing
import Tac.Proofs.Forest
import Tac.Proofs.Affinity
import Tac.Proofs.Emittable
import Tac.Proofs.Ranges
import Tac.Proofs.Meanings
import Tac.Proofs.Realized
import Tac.Proofs.Pipeline
