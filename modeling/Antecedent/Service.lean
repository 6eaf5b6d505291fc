import Antecedent.Analysis.Run
import Antecedent.Settings

/-!
# The service

Requests to analyse programs, and a request whether the service is there.  What is wrong with a
request is said in full before anything runs; replay files are confined to one folder.
-/

namespace Antecedent.Service

/-- A request to the service; a body that is null is none. -/
structure Call where
  method : String
  path : String
  body : Json := .null

inductive Answer where
  | document (status : Nat) (body : Json)
  | invalid (issues : List Options.Issue)
  | report (r : Report)
  | text (status : Nat) (s : String)

/-! ## §1 Requests -/

structure Work where
  files : List String
  options : Options

def readMembers : Options.Reader (List (Label × Json))
  | .obj ms => .ok ms
  | _ => Options.fail .notAnObject

/-- The members of a body; a body that is null is missing. -/
def readBody : Options.Reader (List (Label × Json))
  | .null => Options.fail .missing
  | j => readMembers j

def readFiles (j : Json) : Except (List Options.Issue) (List String) := do
  let files ← Options.readTexts j
  if files.isEmpty then Options.fail .tooShort else pure files

def readOptions (j : Json) : Except (List Options.Issue) Options := do
  Options.ofMembers (← readMembers j)

/-- Reads a field that must be there; its issues are given with its name. -/
def readField {α : Type} (ms : List (Label × Json)) (name : String) (read : Options.Reader α) :
    Except (List Options.Issue) α :=
  let value : Except (List Options.Issue) α := match Json.findMember? name ms with
    | some j => read j
    | none => Options.fail .missing
  value.mapError fun is => is.map (Options.Issue.within (.field name))

def readWork (body : Json) : Except (List Options.Issue) Work :=
  let read : Except (List Options.Issue) Work := do
    let ms ← readBody body
    match readField ms "files" readFiles, readField ms "flags" readOptions with
    | .ok files, .ok options => pure { files, options }
    | files, options => .error (issues files ++ issues options)
  read.mapError fun is => is.map (Options.Issue.within (.field "body"))
where
  issues {α : Type} : Except (List Options.Issue) α → List Options.Issue
    | .ok _ => []
    | .error is => is

/-! ## §2 Answers -/

def detail (status : Nat) (message : String) : Answer :=
  .document status (.obj [("detail", .str message)])

/-- The answer to a fault that is not announced. -/
def breakdown : Answer :=
  .text 500 "Internal Server Error"

/-- The answer to a fault: the caller's faults and those of the analysis are told. -/
def faultAnswer (f : Fault) : Answer :=
  let message := f.message?.getD ""
  if f.isRequest then detail 400 message
  else if f.isAnnounced then detail 500 ("Analysis error: " ++ message)
  else breakdown

structure Host (σ : Type) where
  settings : Settings
  /-- The home folder, below which the default folders are. -/
  home : String
  send : Transport σ
  solver : Solver

variable {σ : Type} [HasDisk σ]

def makeReplayFolder (name? : Option String) : Cache.Run σ Unit :=
  ExceptT.mk do
    match name? with
    | none => return .ok ()
    | some name =>
      match ← onDisk (Disk.makeAbove name) with
      | .ok _ => return .ok ()
      | .error e => return .error e.fault

/-- Does work: places the replay files, makes their folders and runs the analysis. -/
def perform (h : Host σ) (w : Work) : Cache.Run σ Report := do
  let working := (HasDisk.disk (← get)).working
  let root := Path.resolve working (h.settings.outputName h.home)
  let o ← w.options.confined (Path.text root)
  makeReplayFolder o.debuggerFile
  makeReplayFolder o.replayFile
  let ctx ← h.settings.context h.home h.send
  let defaults : Defaults := { unroll := h.settings.unroll, stack := h.settings.stack }
  o.run defaults h.solver ctx w.files

/-- The answer to a request that was carried out; the names of loops must be texts. -/
def reportAnswer (r : Report) : Answer :=
  let isText : Label → Bool
    | .text _ => true
    | _ => false
  if r.truncated.all isText then .report r else breakdown

def analyze (h : Host σ) (body : Json) : StateM σ Answer := do
  match readWork body with
  | .error is => return .invalid is
  | .ok w =>
    match w.options.problem? w.files.length with
    | some f => return detail 400 (f.message?.getD "")
    | none =>
      match ← (perform h w).run with
      | .ok r => return reportAnswer r
      | .error f => return faultAnswer f

def health : Answer :=
  .document 200 (.obj [("status", .str "ok"), ("version", .str engineVersion)])

/-- An answer without its body, as a request for the head alone gets it. -/
def Answer.head : Answer → Answer
  | .document status _ => .text status ""
  | a => a

/-- A path without its query; a host before it does not matter. -/
def plainPath (path : String) : List Char :=
  let plain := path.toList.takeWhile fun c => c != '?' && c != '#'
  match plain with
  | '/' :: '/' :: rest => rest.dropWhile (· != '/')
  | plain => plain

def hexDigit? (c : Char) : Option Nat :=
  if '0' ≤ c ∧ c ≤ '9' then some (c.toNat - '0'.toNat)
  else if 'a' ≤ c ∧ c ≤ 'f' then some (c.toNat - 'a'.toNat + 10)
  else if 'A' ≤ c ∧ c ≤ 'F' then some (c.toNat - 'A'.toNat + 10)
  else none

/-- A path with its escapes resolved.  Routes are ASCII, so bytes of other characters need not be
put together. -/
def unescape : List Char → List Char
  | '%' :: a :: b :: rest =>
    match hexDigit? a, hexDigit? b with
    | some m, some n => Char.ofNat (16 * m + n) :: unescape rest
    | _, _ => '%' :: unescape (a :: b :: rest)
  | c :: rest => c :: unescape rest
  | [] => []

/-- Takes a part of a path: one that leads up takes back the part before it. -/
def addPart (parts : List String) (part : String) : List String :=
  if part == "." then parts
  else if part == ".." then (if parts == [""] then parts else parts.dropLast)
  else parts ++ [part]

/-- The route that a path names: parts that stay or lead up are followed, escapes are resolved, by
the sender and again by the receiver, and strokes at the end do not matter. -/
def route (path : String) : String :=
  let parts := ((String.ofList (plainPath path)).splitOn "/").foldl addPart []
  let plain := unescape (unescape ("/".intercalate parts).toList)
  String.ofList (plain.reverse.dropWhile (· == '/')).reverse

def dispatch (h : Host σ) (c : Call) : StateM σ Answer := do
  match route c.path with
  | "/analyze" =>
    if c.method == "POST" then analyze h c.body else return detail 405 "Method Not Allowed"
  | "/health" =>
    if c.method == "GET" then return health else return detail 405 "Method Not Allowed"
  | _ => return detail 404 "Not Found"

def handle (h : Host σ) (c : Call) : StateM σ Answer := do
  let a ← dispatch h c
  return if c.method == "HEAD" then a.head else a

end Antecedent.Service
