import Antecedent.Cache.Basic
import Antecedent.Storage.Disk

/-!
# Where entries are kept

Entries are kept in files below a folder, or on a server.  The lifter for documents reads programs
that are lifted already.
-/

namespace Antecedent

/-! ## §1 Requests to a server

The part of HTTP that a remote cache needs.  How requests are sent is left to the caller. -/

inductive Verb where
  | get | put
deriving DecidableEq, Repr, Inhabited

def Verb.text : Verb → String
  | .get => "GET"
  | .put => "PUT"

structure Request where
  verb : Verb
  url : String
  timeout : Int
  headers : List (String × String) := []
  body : ByteArray := .empty

/-- What comes of a request: a failure on the way, or an answer with a status. -/
inductive Reply where
  | failed (reason : String)
  | answered (status : Int) (body : ByteArray)

abbrev Transport (σ : Type) := Request → StateM σ Reply

namespace Cache

variable {σ : Type}

/-! ## §2 Files -/

def readFile [HasDisk σ] (name : String) : StateM σ (Except DiskFault ByteArray) := do
  return (HasDisk.disk (← get)).readFile name

/-- The fault of a file that cannot be used: a name that none can have is told as such. -/
def fileFault (otherwise : Fault) : DiskFault → Fault
  | .holdsNul => .nulInName
  | _ => otherwise

def entryName (root area digest : String) : String :=
  Path.joined [root, area, digest ++ ".json"]

/-- Entries in files below a folder, one file each. -/
def fileBackend [HasDisk σ] (root : String) : Backend σ where
  load area digest := ExceptT.mk do
    let name := entryName root area digest
    match ← readFile name with
    | .ok bytes => return .ok (some bytes)
    | .error .missing => return .ok none
    | .error e => return .error (fileFault (.unreadableEntry name) e)
  save area digest bytes := ExceptT.mk do
    let name := entryName root area digest
    match ← onDisk (do Disk.makeAbove name; Disk.writeFile name bytes) with
    | .ok _ => return .ok ()
    | .error e => return .error (fileFault (.unwritableEntry name) e)

/-! ## §3 Servers -/

/-- An address without the strokes at its end. -/
def baseUrl (url : String) : String :=
  String.ofList (url.toList.reverse.dropWhile (· == '/')).reverse

def entryUrl (base area digest : String) : String :=
  base ++ "/" ++ area ++ "/" ++ digest

def savedStatuses : List Int :=
  [200, 201, 204]

/-- Entries on a server; that an entry is not there is no failure. -/
def remoteBackend (base : String) (timeout : Int) (send : Transport σ) : Backend σ where
  load area digest := ExceptT.mk do
    let url := entryUrl base area digest
    match ← send { verb := .get, url, timeout } with
    | .failed reason => return .error (.unreachable Verb.get.text url reason)
    | .answered status body =>
      if status = 404 then return .ok none
      else if status = 200 then return .ok (some body)
      else return .error (.refused Verb.get.text url status)
  save area digest bytes := ExceptT.mk do
    let url := entryUrl base area digest
    let headers := [("Content-Type", "application/json")]
    match ← send { verb := .put, url, timeout, headers, body := bytes } with
    | .failed reason => return .error (.unreachable Verb.put.text url reason)
    | .answered status _ =>
      if savedStatuses.contains status then return .ok ()
      else return .error (.refused Verb.put.text url status)

/-! ## §4 Sources -/

def contentsOnDisk [HasDisk σ] (file : String) : Run σ ByteArray :=
  ExceptT.mk do
    match ← readFile file with
    | .ok bytes => return .ok bytes
    | .error e => return .error (fileFault (.unreadableFile file) e)

def documentLoader : String := "json"

def liftDocument [HasDisk σ] (file : String) : Run σ Json :=
  ExceptT.mk do
    match ← readFile file with
    | .error e => return .error (fileFault (.unreadableProgram file) e)
    | .ok bytes =>
      match String.fromUTF8? bytes with
      | none => return .error .notText
      | some text =>
        match Json.parse text with
        | .ok j => return .ok j
        | .error .notJson => return .error (.unreadableProgram file)
        | .error f => return .error f

end Cache

end Antecedent
