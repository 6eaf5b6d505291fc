import Antecedent.Json.Reader
import Antecedent.Json.Writer
import Antecedent.Program.Decode
import Antecedent.Program.Encode
import Antecedent.Text.Encoding

/-!
# Programs through a cache

Lifting a file to a program is expensive, so the result is kept under digests of the configuration,
the contents and the loader: once as it came from the lifter and once stripped, which is what the
analysis uses.  A second reading of the same contents does not lift again.

The digest function, the store of entries and the lifter are parameters.
-/

namespace Antecedent.Cache

/-- Steps with a state that may fail; what was done to the state before a failure stays. -/
abbrev Run (σ : Type) := ExceptT Fault (StateM σ)

def projectArea : String := "project"

def knowledgeArea : String := "knowledge"

structure Backend (σ : Type) where
  load : String → String → Run σ (Option ByteArray)
  save : String → String → ByteArray → Run σ Unit

structure Context (σ : Type) where
  backend : Backend σ
  loader : String
  lift : String → Run σ Json
  contents : String → Run σ ByteArray
  digest : List UInt8 → String
  configuration : String

/-! ## §1 Digests -/

def fileDigest {σ : Type} (ctx : Context σ) (file : String) : Run σ String := do
  return ctx.digest (← ctx.contents file).toList

def areaDigest {σ : Type} (ctx : Context σ) (subject area : String) : String :=
  ctx.digest (area ++ ":" ++ subject).toUTF8.toList

def subject {σ : Type} (ctx : Context σ) (file : String) : Run σ String := do
  return ctx.configuration ++ (← fileDigest ctx file) ++ ctx.loader

/-! ## §2 Entries -/

/-- What a fault says about a document: faults in its form, its fields and its values. -/
def documentDetail? (f : Fault) : Option String :=
  match f.family with
  | .value | .missingKey => some (f.message?.getD "")
  | .type => some ""
  | _ => none

def decode (area : String) (bytes : ByteArray) : Except Fault Program :=
  let read : Except Fault Program := do
    match Text.decode? bytes with
    | none => .error .notText
    | some text => Decode.program (← Json.parse text)
  match read with
  | .ok p => .ok p
  | .error f =>
    match documentDetail? f with
    | some detail => .error (.corruptEntry area detail)
    | none => .error f

/-- The entry of a program; the keys of every object must have an order. -/
def encode (p : Program) : Except Fault ByteArray := do
  return (← (Encode.program p).sortKeys).compact.toUTF8

/-! ## §3 Reading -/

def lifted {σ : Type} (ctx : Context σ) (file : String) : Run σ Program :=
  ExceptT.mk do
    match ← (do Decode.program (← ctx.lift file) : Run σ Program).run with
    | .ok p => return .ok p
    | .error f =>
      match documentDetail? f with
      | some detail => return .error (.notAProgram file detail)
      | none => return .error f

/-- The stripped program of a file: from the cache, from the unstripped entry in the cache, or
lifted.  What was not in the cache is kept there. -/
def readProgram {σ : Type} (ctx : Context σ) (file : String) : Run σ Program := do
  let subject ← subject ctx file
  let knowledge := areaDigest ctx subject knowledgeArea
  match ← ctx.backend.load knowledgeArea knowledge with
  | some bytes => decode knowledgeArea bytes
  | none =>
    let project := areaDigest ctx subject projectArea
    let raw ← match ← ctx.backend.load projectArea project with
      | some bytes => decode projectArea bytes
      | none => do
        let raw ← lifted ctx file
        ctx.backend.save projectArea project (← encode raw)
        pure raw
    let p := raw.strip
    ctx.backend.save knowledgeArea knowledge (← encode p)
    return p

end Antecedent.Cache
