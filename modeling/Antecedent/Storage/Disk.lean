import Antecedent.Fault
import Antecedent.Storage.Path

/-!
# Files and folders

A disk is a finite map from paths to files and folders, with a folder where names that do not start
at the root begin.  A name ends before a null character, so none may hold one; a part of a path has
a longest length, and so has a name.
-/

namespace Antecedent

inductive DiskEntry where
  | file (bytes : ByteArray)
  | folder

inductive DiskFault where
  /-- There is nothing at the path, or no folder above it. -/
  | missing
  /-- Something above the path is a file. -/
  | notFolder
  | isFolder
  | isFile
  | tooLong
  | holdsNul
deriving DecidableEq, Repr, Inhabited

def DiskFault.fault : DiskFault → Fault
  | missing => .missingFolder
  | notFolder => .notFolder
  | isFolder => .isFolder
  | isFile => .isFile
  | tooLong => .longName
  | holdsNul => .nulInName

/-- Files and folders by path, each path at most once.  The working folder and those above it are
always there. -/
structure Disk where
  working : Path := []
  entries : List (Path × DiskEntry) := []

namespace Disk

def longestPart : Nat := 255

def longestName : Nat := 4095

def checkName (name : String) : Except DiskFault Unit :=
  if name.toList.contains '\x00' then .error .holdsNul
  else if name.isEmpty then .error .missing
  else if longestName < name.utf8ByteSize then .error .tooLong
  else .ok ()

/-- What stands at a path, whatever is above it. -/
def entry? (d : Disk) (p : Path) : Except DiskFault (Option DiskEntry) :=
  if p == d.working.take p.length then .ok (some .folder)
  else if longestPart < ((p.getLast?).getD "").utf8ByteSize then .error .tooLong
  else .ok (d.entries.lookup p)

def checkFolder (d : Disk) (p : Path) : Except DiskFault Unit := do
  match ← d.entry? p with
  | some .folder => .ok ()
  | some (.file _) => .error .notFolder
  | none => .error .missing

def checkAbove (d : Disk) (p : Path) : Except DiskFault Unit :=
  (List.range p.length).forM fun n => d.checkFolder (p.take n)

def start (d : Disk) (name : String) : Path :=
  if Path.isAbsolute name then [] else d.working

/-- The path of a name.  A part that leads up must stand after a folder. -/
def locate (d : Disk) (name : String) : Except DiskFault Path := do
  checkName name
  (Path.parts name).foldlM
    (fun p part =>
      if part == ".." then do
        d.checkAbove p
        d.checkFolder p
        return p.dropLast
      else return p ++ [part])
    (d.start name)

def read (d : Disk) (p : Path) : Except DiskFault ByteArray := do
  d.checkAbove p
  match ← d.entry? p with
  | some (.file bytes) => .ok bytes
  | some .folder => .error .isFolder
  | none => .error .missing

/-- The bytes of the file of a name; a name that ends in a stroke is that of a folder. -/
def readFile (d : Disk) (name : String) : Except DiskFault ByteArray := do
  let bytes ← d.read (← d.locate name)
  if name.endsWith "/" then throw .notFolder
  return bytes

def put (d : Disk) (p : Path) (e : DiskEntry) : Disk :=
  { d with entries := (p, e) :: d.entries.filter (·.1 != p) }

def write (d : Disk) (p : Path) (bytes : ByteArray) : Except DiskFault Disk := do
  d.checkAbove p
  match ← d.entry? p with
  | some .folder => .error .isFolder
  | _ => .ok (d.put p (.file bytes))

def removeFile (d : Disk) (name : String) : Except DiskFault Disk := do
  let p ← d.locate name
  let _ ← d.read p
  if name.endsWith "/" then throw .notFolder
  return { d with entries := d.entries.filter (·.1 != p) }

/-- The parts below a folder of the paths of all entries of a kind below it, in the order of their
text. -/
def pathsBelow (d : Disk) (folder : Path) (keep : DiskEntry → Bool) : List (List String) :=
  (d.entries.filterMap fun (p, e) =>
    if keep e && Path.isBelow folder p then some (p.drop folder.length) else none).mergeSort
      fun a b => decide (Path.text a ≤ Path.text b)

/-- The parts below a folder of the paths of all files below it, in the order of their text. -/
def filesBelow (d : Disk) (folder : Path) : List (List String) :=
  d.pathsBelow folder fun
    | .file _ => true
    | .folder => false

/-! ## §1 Steps -/

/-- Steps on a disk that may fail; what was done before a failure stays. -/
abbrev Run := ExceptT DiskFault (StateM Disk)

/-- A step that does nothing when it fails. -/
def change (f : Disk → Except DiskFault Disk) : Run Unit := do
  match f (← get) with
  | .ok d => set d
  | .error e => throw e

def writeFile (name : String) (bytes : ByteArray) : Run Unit :=
  change fun d => do d.write (← d.locate name) bytes

def makeFolder (p : Path) : Run Unit :=
  change fun d => do
    d.checkAbove p
    match ← d.entry? p with
    | some .folder => return d
    | some (.file _) => throw .isFile
    | none => return d.put p .folder

/-- Makes the folders above the path of a name, the highest first. -/
def makeAbove (name : String) : Run Unit := do
  let d ← get
  match checkName name with
  | .error e => throw e
  | .ok _ =>
    let _ ← (Path.parts name).dropLast.foldlM
      (fun p part => do
        if part == ".." then return p.dropLast
        else
          makeFolder (p ++ [part])
          return p ++ [part])
      (d.start name)

end Disk

class HasDisk (σ : Type) where
  disk : σ → Disk
  withDisk : Disk → σ → σ

instance : HasDisk Disk where
  disk := id
  withDisk d _ := d

def onDisk {σ α : Type} [HasDisk σ] (act : Disk.Run α) : StateM σ (Except DiskFault α) := do
  let s ← get
  let (r, d) := act.run.run (HasDisk.disk s)
  set (HasDisk.withDisk d s)
  return r

end Antecedent
