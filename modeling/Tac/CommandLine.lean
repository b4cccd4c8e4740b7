import Tac.Compiler

/-!
# The command line

Flags are a name after one or two dashes, with a value after an equal sign or a blank; a flag that
takes text may have it in the next argument.  Flags and file names may be mixed; after a double dash
all are file names, and so is a single dash.  One input file is compiled to standard output or to the
file that `-o` names.
-/

namespace Tac.CommandLine

/-- What the flags say. -/
structure Settings where
  ir : Bool := false
  annotated : Bool := false
  abstract : Bool := false
  assembly : Bool := false
  noPeephole : Bool := false
  noBuiltins : Bool := false
  output : String := ""
  files : List String := []

/-- What is wrong with an argument. -/
inductive FlagError where
  | unknown
  | noValue
  | notBool
deriving DecidableEq, Repr

/-- Why the command failed. -/
inductive Error where
  | flag (arg : String) (e : FlagError)
  | fileCount (n : Nat)
  | manyModes
  | compile (file : String) (e : CompileError)
  | write (e : FileError)
deriving DecidableEq, Repr

/-- The message of a failed command. -/
def Error.message : Error → String
  | flag arg e => "parse flag: " ++ arg ++ ": " ++ (match e with
    | .unknown => "no such flag"
    | .noValue => "flag value is required"
    | .notBool => "not a bool value")
  | fileCount n => "expected one input file, got " ++ Text.decimal n
  | manyModes => "more than one output mode"
  | compile f e => "compile " ++ f ++ ": " ++ e.message
  | write e => "write output: " ++ e.text

/-- Whether the command broke off, so that it has nothing to say. -/
def Error.isFault : Error → Bool
  | compile _ e => e.cls = .fault
  | _ => false

/-- The exit code of a failed command. -/
def Error.exitCode (e : Error) : Nat := if e.isFault then 2 else 1

/-- A truth value, in any case; none at all means true. -/
def readBool? (s : String) : Option Bool :=
  let s := s.map Char.toLower
  if s ∈ ["", "true", "t", "yes", "y", "1"] then some true
  else if s ∈ ["false", "f", "no", "n", "0"] then some false
  else none

/-- How a flag is stored. -/
inductive Flag where
  | bool (set : Bool → Settings → Settings)
  | text (set : String → Settings → Settings)

/-- The flag of a name. -/
def flag? (name : String) : Option Flag :=
  match name with
  | "S" => some (.bool fun _ s => s)
  | "e" => some (.bool fun b s => { s with ir := b })
  | "a" => some (.bool fun b s => { s with annotated := b })
  | "t" => some (.bool fun b s => { s with abstract := b })
  | "m" => some (.bool fun b s => { s with assembly := b })
  | "no-peephole" => some (.bool fun b s => { s with noPeephole := b })
  | "no-builtins" => some (.bool fun b s => { s with noBuiltins := b })
  | "o" => some (.text fun v s => { s with output := v })
  | "v" => some (.text fun _ s => s)
  | "verbosity" => some (.text fun _ s => s)
  | _ => none

/-- Whether a character ends the name of a flag. -/
def endsName (c : Char) : Bool := c = '=' || c = ' '

/-- A flag argument: its name, and the value if there is one.  Nothing for file names. -/
def splitFlag? (arg : String) : Option (String × Option String) :=
  match arg.toList with
  | '-' :: c :: cs =>
    let body := if c = '-' then cs else c :: cs
    let name := body.takeWhile (!endsName ·)
    let value := match body.dropWhile (!endsName ·) with
      | [] => none
      | _ :: v => some (String.ofList v)
    some (String.ofList name, value)
  | _ => none

/-- Reads arguments. -/
def parse (s : Settings) : List String → Except Error Settings
  | [] => .ok s
  | "--" :: rest => .ok { s with files := s.files ++ rest }
  | arg :: rest =>
    match splitFlag? arg with
    | none => parse { s with files := s.files ++ [arg] } rest
    | some (name, value) =>
      match flag? name, value, rest with
      | none, _, _ => .error (.flag arg .unknown)
      | some (.bool set), none, rest => parse (set true s) rest
      | some (.bool set), some v, rest =>
        match readBool? v with
        | some b => parse (set b s) rest
        | none => .error (.flag arg .notBool)
      | some (.text set), some v, rest => parse (set v s) rest
      | some (.text set), none, v :: rest => parse (set v s) rest
      | some (.text _), none, [] => .error (.flag arg .noValue)

/-- The modes that were asked for. -/
def Settings.modes (s : Settings) : List Mode :=
  (if s.ir then [.ir] else []) ++ (if s.annotated then [.annotated] else []) ++
    (if s.abstract then [.abstract] else []) ++ (if s.assembly then [.assembly] else [])

/-- A command: what to compile, how, and where to put the result. -/
structure Command where
  input : String
  mode : Mode
  options : Options
  /-- The file to write; none means standard output. -/
  output : Option String

/-- The command that arguments give. -/
def Command.parse (args : List String) : Except Error Command := do
  let s ← CommandLine.parse {} args
  match s.files with
  | [input] =>
    match s.modes with
    | _ :: _ :: _ => .error .manyModes
    | modes =>
      pure { input, mode := modes.headD .assembly
             options := { peephole := !s.noPeephole, builtins := !s.noBuiltins }
             output := if s.output.isEmpty then none else some s.output }
  | files => .error (.fileCount files.length)

/-- The output of a command, given what was read from its input file. -/
def Command.compile (c : Command) (contents : Except FileError String) : Except Error String :=
  match compileFile c.options c.mode c.input contents with
  | .error e => .error (.compile c.input e)
  | .ok text => .ok text

/-- What a command says on standard output, and the folder that it leaves. -/
structure Result where
  output : String
  folder : Folder

/-- Runs the command in a folder. -/
def run (d : Folder) (args : List String) : Except Error Result := do
  let c ← Command.parse args
  let text ← c.compile (d.read c.input)
  match c.output with
  | none => pure { output := text, folder := d }
  | some file =>
    match d.write file text with
    | .error e => .error (.write e)
    | .ok d => pure { output := "", folder := d }

end Tac.CommandLine
