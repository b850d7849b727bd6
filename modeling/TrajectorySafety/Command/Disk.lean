import Std.Data.HashMap
import TrajectorySafety.Command.Path
import TrajectorySafety.Command.Run

/-!
A model of a machine: a tree of files and folders, and a clock that stands still. `Disk.host`
carries commands out on it.

Folders have numbers, and a disk says what each name in each folder stands for. A path is walked
name by name through folders that exist, so `a/../b` needs a folder `a`.
-/

namespace TrajectorySafety

/-- A name in a folder. -/
structure Slot where
  folder : Nat
  name : String
deriving Repr, DecidableEq, Hashable

/-- What a name stands for. -/
inductive Entry where
  | file (content : String)
  | folder (number : Nat)
deriving Repr

/-- The folders between the root, which has the number 0, and a place, the innermost first. -/
abbrev Way := List Nat

/-- What the names in the folders stand for, and the number of the next folder. Commands run in the
folder with the number 1; it lies in the root under a name that no path spells. -/
structure Disk where
  entries : Std.HashMap Slot Entry := {}
  next : Nat := 2

namespace Disk

/-- What a name stands for in the folder at the end of a way. -/
def entry? (d : Disk) (way : Way) (name : String) : Option Entry :=
  d.entries[(⟨way.headD 0, name⟩ : Slot)]?

/-- Whether a name stands for a folder. -/
def isFolder (d : Disk) (way : Way) (name : String) : Bool :=
  match d.entry? way name with
  | some (.folder _) => true
  | _ => false

/-- The folder in which a path starts. -/
def start (p : Path) : Way := if p.isRooted then [] else [1]

/-- A name that is looked up must not be too long. -/
def checkName (name : String) : Except FileFault Unit :=
  if Path.nameLimit < name.utf8ByteSize then .error .tooLong else .ok ()

/-- A step from a folder into a folder: one dot stays, two dots go back. -/
def enter (d : Disk) (way : Way) (name : String) : Except FileFault Way :=
  if name = "." then .ok way
  else if name = ".." then .ok way.tail
  else do
    checkName name
    match d.entry? way name with
    | some (.folder number) => return number :: way
    | some (.file _) => throw .notFolder
    | none => throw .missing

/-- Where a path leads. -/
inductive Goal where
  /-- A folder, by dots or as the root. -/
  | folder (way : Way)
  /-- A name in a folder, which need not be there. -/
  | entry (way : Way) (name : String)

/-- Walks a path up to its last name. -/
def walk (d : Disk) (p : Path) : Except FileFault Goal := do
  p.check
  match p.names.getLast? with
  | none => return .folder (start p)
  | some name => do
    let way ← p.names.dropLast.foldlM d.enter (start p)
    if name = "." || name = ".." then return .folder (← d.enter way name)
    else return .entry way name

/-- The content of a file. -/
def read (d : Disk) (path : String) : Except FileFault String := do
  let p := Path.ofText path
  match ← d.walk p with
  | .folder _ => throw .isFolder
  | .entry way name => do
    checkName name
    match d.entry? way name with
    | some (.folder _) => throw .isFolder
    | some (.file content) => if p.endsInSlash then throw .notFolder else return content
    | none => throw .missing

/-- Whether a path leads to a folder. -/
def leadsToFolder (d : Disk) (p : Path) : Bool :=
  match d.walk p with
  | .ok (.folder _) => true
  | .ok (.entry way name) => d.isFolder way name
  | .error _ => false

/-- Lets a name stand for something. -/
def put (d : Disk) (way : Way) (name : String) (e : Entry) : Disk :=
  { d with entries := d.entries.insert ⟨way.headD 0, name⟩ e }

/-- Makes one folder. -/
def makeFolder (d : Disk) (p : Path) : Except FileFault Disk := do
  match ← d.walk p with
  | .folder _ => throw .exists
  | .entry way name => do
    checkName name
    if (d.entry? way name).isSome then throw .exists
    return { d.put way name (.folder d.next) with next := d.next + 1 }

/-- Makes a folder, with those around it that are missing. What has been made stays when a later
step fails. -/
def makeFolders (d : Disk) (p : Path) : Disk × Except FileFault Unit :=
  let settle := fun (d : Disk) (fault : FileFault) =>
    (d, if d.leadsToFolder p then .ok () else .error fault)
  match d.makeFolder p with
  | .ok d => (d, .ok ())
  | .error .missing =>
    let (d, made) := match h : p.around? with
      | some folder =>
        have := Path.length_lt_of_around? h
        d.makeFolders folder
      | none => (d, .ok ())
    match made with
    | .error fault => (d, .error fault)
    | .ok () =>
      match d.makeFolder p with
      | .ok d => (d, .ok ())
      | .error fault => settle d fault
  | .error fault => settle d fault
termination_by p.pieces.length

/-- Writes a file into a folder that is there. -/
def writeFile (d : Disk) (p : Path) (content : String) : Except FileFault Disk := do
  match ← d.walk p with
  | .folder _ => throw .isFolder
  | .entry way name => do
    if p.endsInSlash then throw .isFolder
    checkName name
    if d.isFolder way name then throw .isFolder
    return d.put way name (.file content)

/-- Writes a file, with the folders around it. -/
def write (d : Disk) (path content : String) : Disk × Except FileFault Unit :=
  let p := Path.ofText path
  let (d, made) := match p.around? with
    | some folder => d.makeFolders folder
    | none => (d, .ok ())
  match made with
  | .error fault => (d, .error fault)
  | .ok () =>
    match d.writeFile p content with
    | .ok d => (d, .ok ())
    | .error fault => (d, .error fault)

/-- The disk with the given files in the folder that commands run in. -/
def ofFiles (files : List (String × String)) : Disk :=
  files.foldl (fun d (path, content) => (d.write path content).1) {}

/-- A report of an engine on a machine whose clock stands still. -/
def verify (e : Engine Unit) : Except Error Report :=
  (e.run e.stillClock { memory := () }).result

/-- The machine that commands are carried out on. -/
def host : Host (StateM Disk) where
  read path := do
    let d ← get
    return d.read path
  write path content := do
    let d ← get
    let (d, result) := d.write path content
    set d
    return result
  verify e := return verify e

end Disk

end TrajectorySafety
