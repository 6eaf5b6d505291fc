import Antecedent.Cache.Backend
import Antecedent.Digest
import Antecedent.Environment
import Antecedent.Text.Integer

/-!
# Settings

What can be set from outside by variables with a text: bounds, the stack, and where programs, their
cache and replay files are.
-/

namespace Antecedent

def engineVersion : String := "binwp-0.3.0"

structure Settings where
  unroll : Int := 5
  stack : StackRange := {}
  /-- Milliseconds for the solver; zero is no limit. -/
  solverTimeout : Int := 0
  /-- The folder of the cache, by default below the home folder. -/
  cacheFolder : Option String := none
  cacheUrl : String := ""
  cacheTimeout : Int := 30
  loader : String := Cache.documentLoader
  /-- The folder of replay files, by default below the home folder. -/
  outputFolder : Option String := none
deriving DecidableEq, Repr, Inhabited

namespace Settings

def decimal (text : String) : Except Fault Int :=
  (Text.readDecimal text).mapError (Fault.ofInteger 10 text)

/-- An integer whose base is marked at its start. -/
def marked (text : String) : Except Fault Int :=
  (Text.readMarked text).mapError (Fault.ofInteger 0 text)

def intOf (setting? : String → Option String) (read : String → Except Fault Int) (name : String)
    (default : Int) : Except Fault Int :=
  match setting? name with
  | some text => read text
  | none => .ok default

/-- The settings that variables give; the first one that cannot be read is reported. -/
def ofVariables (setting? : String → Option String) : Except Fault Settings := do
  let default : Settings := {}
  let unroll ← intOf setting? decimal "BINWP_NUM_UNROLL" default.unroll
  let base ← intOf setting? marked "BINWP_STACK_BASE" default.stack.base
  let size ← intOf setting? marked "BINWP_STACK_SIZE" default.stack.size
  let solverTimeout ← intOf setting? decimal "BINWP_Z3_TIMEOUT_MS" default.solverTimeout
  let cacheTimeout ← intOf setting? decimal "BINWP_CACHE_TIMEOUT_S" default.cacheTimeout
  return {
    unroll, stack := { base, size }, solverTimeout, cacheTimeout
    cacheFolder := setting? "BINWP_CACHE_DIR"
    cacheUrl := (setting? "BINWP_CACHE_URL").getD default.cacheUrl
    loader := (setting? "BINWP_LOADER").getD default.loader
    outputFolder := setting? "BINWP_OUTPUT_DIR" }

/-- The digest of everything that changes what a lifter produces. -/
def digest (s : Settings) : String :=
  Digest.ofText (engineVersion ++ "|" ++ s.loader)

inductive CachePlace where
  | folder (path : Option String)
  | server (base : String)
deriving DecidableEq, Repr, Inhabited

/-- Where entries are kept: on a server if there is an address. -/
def cachePlace (s : Settings) : CachePlace :=
  if s.cacheUrl.isEmpty then .folder s.cacheFolder else .server (Cache.baseUrl s.cacheUrl)

/-- The name of the lifter, which must be known. -/
def lifter (s : Settings) : Except Fault String :=
  if s.loader == Cache.documentLoader then .ok s.loader else .error (.unknownLoader s.loader)

def cacheName (home : String) : Option String → String
  | some name => name
  | none => Path.joined [home, ".cache", "binwp"]

def outputName (s : Settings) (home : String) : String :=
  s.outputFolder.getD (Path.joined [home, ".cache", "binwp", "replay"])

/-- The context for programs on a disk, with a cache in a folder of it or on a server. -/
def context {σ : Type} [HasDisk σ] (s : Settings) (home : String) (send : Transport σ) :
    Except Fault (Cache.Context σ) := do
  let loader ← s.lifter
  let backend : Cache.Backend σ := match s.cachePlace with
    | .folder path => Cache.fileBackend (cacheName home path)
    | .server base => Cache.remoteBackend base s.cacheTimeout send
  return {
    backend, loader, lift := Cache.liftDocument, contents := Cache.contentsOnDisk
    digest := Digest.ofBytes, configuration := s.digest }

end Settings

end Antecedent
