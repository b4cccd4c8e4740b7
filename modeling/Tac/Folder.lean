/-!
# Files by path

A command runs in a folder that holds files and no folders.  A path is walked name by name: a point
stays, two points leave the folder, and any other name is an entry that may hold a file.  Outside
the folder only the null device is known; what else is written there is not seen again.
-/

namespace Tac

/-- Why a path does not lead to a file. -/
inductive PathError where
  | missing
  | isFolder
  | notFolder
  | nameTooLong
deriving DecidableEq, Repr

/-- The wording of a path error. -/
def PathError.text : PathError → String
  | missing => "no such file or directory"
  | isFolder => "is a directory"
  | notFolder => "not a directory"
  | nameTooLong => "file name too long"

/-- What was tried with a file. -/
inductive FileAction where
  | opening
  | reading
deriving DecidableEq, Repr

/-- The word for an action in messages. -/
def FileAction.text : FileAction → String
  | opening => "open"
  | reading => "read"

/-- A failed action on the file of a path. -/
structure FileError where
  action : FileAction
  path : String
  cause : PathError
deriving DecidableEq, Repr

/-- The wording of a failed action. -/
def FileError.text (e : FileError) : String :=
  e.action.text ++ " " ++ e.path ++ ": " ++ e.cause.text

/-- A folder: its files by name. -/
structure Folder where
  files : List (String × String) := []
deriving Repr

namespace Folder

/-- Where a path leads. -/
inductive Place where
  /-- The folder itself. -/
  | inside
  /-- A folder around it. -/
  | around
  /-- The top folder. -/
  | top
  /-- The folder of devices. -/
  | devices
  /-- The device that is empty to read and drops what is written. -/
  | null
  /-- An entry of the folder, whether or not there is a file. -/
  | entry (name : String)
  /-- An unknown entry of another folder. -/
  | beyond
deriving DecidableEq, Repr

/-- Whether a place is a folder. -/
def Place.isFolder : Place → Bool
  | inside | around | top | devices => true
  | null | entry _ | beyond => false

/-- The folder that holds a folder. -/
def Place.parent : Place → Place
  | inside | around => around
  | _ => top

/-- The entry of a name in a folder. -/
def Place.child (p : Place) (name : String) : Place :=
  match p with
  | inside => entry name
  | top => if name = "dev" then devices else beyond
  | devices => if name = "null" then null else beyond
  | _ => beyond

/-- Names have at most this many bytes. -/
def nameLimit : Nat := 255

/-- Paths have fewer bytes than this. -/
def pathLimit : Nat := 4096

/-- Whether a place is known to hold something. -/
def holds (d : Folder) : Place → Bool
  | .entry name => (d.files.lookup name).isSome
  | .beyond => false
  | _ => true

/-- The place of a name, seen from a place. -/
def step (d : Folder) (p : Place) (name : String) : Except PathError Place :=
  if !p.isFolder then .error (if d.holds p then .notFolder else .missing)
  else if name = "." then .ok p
  else if name = ".." then .ok p.parent
  else if nameLimit < name.utf8ByteSize then .error .nameTooLong
  else .ok (p.child name)

/-- The place of a path. -/
def resolve (d : Folder) (path : String) : Except PathError Place :=
  if path.isEmpty then .error .missing
  else if pathLimit ≤ path.utf8ByteSize then .error .nameTooLong
  else
    let names := (path.splitOn "/").filter fun name => !name.isEmpty
    names.foldlM d.step (if path.startsWith "/" then .top else .inside)

/-- What a place holds, if it can be read. -/
def contents? (d : Folder) : Place → Option String
  | .entry name => d.files.lookup name
  | .null => some ""
  | _ => none

/-- The text of the file of a path.  A path that ends in a slash means a folder. -/
def read (d : Folder) (path : String) : Except FileError String :=
  match d.resolve path with
  | .error e => .error ⟨.opening, path, e⟩
  | .ok place =>
    if place.isFolder then .error ⟨.reading, path, .isFolder⟩
    else match d.contents? place with
      | none => .error ⟨.opening, path, .missing⟩
      | some text =>
        if path.endsWith "/" then .error ⟨.opening, path, .notFolder⟩ else .ok text

/-- The folder with a text at a place. -/
def put (d : Folder) (place : Place) (text : String) : Folder :=
  match place with
  | .entry name => { files := (name, text) :: d.files.filter fun f => f.1 ≠ name }
  | _ => d

/-- The folder after a text is written to the file of a path, which is made if it is not there. -/
def write (d : Folder) (path text : String) : Except FileError Folder :=
  match d.resolve path with
  | .error e => .error ⟨.opening, path, e⟩
  | .ok place =>
    if place.isFolder ∨ path.endsWith "/" then .error ⟨.opening, path, .isFolder⟩
    else .ok (d.put place text)

/-- What was written to an entry is there. -/
theorem contents?_put (d : Folder) (name text : String) :
    (d.put (.entry name) text).contents? (.entry name) = some text := by
  simp [put, contents?]

end Folder

end Tac
