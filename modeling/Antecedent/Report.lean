import Antecedent.Constraint.Refute
import Antecedent.Environment
import Antecedent.Json.Writer
import Antecedent.Term.Text

/-!
# Reports

The outcome of a check, the counterexample that a model gives, and the texts made of them: a summary
for readers, a debugger script and a document for replay.
-/

namespace Antecedent

/-! ## §1 Outcomes -/

inductive Verdict where
  | proved | refuted | unknown
deriving DecidableEq, Repr, Inhabited

def Verdict.text : Verdict → String
  | .proved => "PROVED"
  | .refuted => "REFUTED"
  | .unknown => "UNKNOWN"

def Verdict.ofText (s : String) : Except Fault Verdict :=
  match [Verdict.proved, .refuted, .unknown].find? (·.text == s) with
  | some v => .ok v
  | none => .error (.badVerdict s)

/-- A state together with the names that it speaks about. -/
structure Model where
  state : State
  declared : List String

/-- The outcome of a check.  A proof that is not exact covers only the runs within the unrolling
bound. -/
inductive Outcome where
  | proved (exact : Bool)
  | refuted (model : Model)
  | unknown (reason : String)

def Outcome.verdict : Outcome → Verdict
  | .proved _ => .proved
  | .refuted _ => .refuted
  | .unknown _ => .unknown

/-- Whether the outcome holds without regard to the unrolling bound. -/
def Outcome.exact : Outcome → Bool
  | .proved exact => exact
  | .refuted _ => true
  | .unknown _ => false

/-! ## §2 Counterexamples -/

/-- A counterexample: values of registers and of memory bytes on entry. -/
structure Counterexample where
  regs : List (String × Int) := []
  mem : List (Int × Int) := []
deriving DecidableEq, Repr, Inhabited

namespace Counterexample

/-- Entries by ascending key; the last entry of a key counts. -/
def sortEntries {α β : Type} [BEq α] (le : α → α → Bool) (entries : List (α × β)) : List (α × β) :=
  let kept := entries.foldr
    (fun e (kept : List (α × β)) => if kept.any (·.1 == e.1) then kept else e :: kept) []
  kept.mergeSort fun a b => le a.1 b.1

def sortedRegs (c : Counterexample) : List (String × Int) :=
  sortEntries (fun a b => decide (a ≤ b)) c.regs

def sortedMem (c : Counterexample) : List (Int × Int) :=
  sortEntries (fun a b => decide (a ≤ b)) c.mem

/-- The bytes that a memory lists, at addresses of a width; the latest one of an address counts. -/
def memoryEntries (addressWidth : Nat) (m : Memory) : List (Int × Int) :=
  m.cells.reverse.map fun (a, b) =>
    (((a % Nat.pow 2 addressWidth : Nat) : Int), ((b % 256 : Nat) : Int))

/-- The values that a model gives to the variables of an environment.  Only constants that the model
speaks about count, and the names of the variables must have an order. -/
def ofModel (m : Model) (e : Environment) : Except Fault Counterexample := do
  let vars ← Label.sortBy (fun a b => a.1.before b.1) e.vars
  let regs := vars.filterMap fun (name, t) =>
    match name, t with
    | .text name, .const symbol (.bits w) =>
      if name != e.arch.memoryName && m.declared.contains symbol.shown then
        some (name, ((m.state.const symbol (.bits w)).toNat : Int))
      else none
    | _, _ => none
  let mem := match e.findVar? e.arch.memoryName with
    | some (.const symbol (.memory a)) =>
      if m.declared.contains symbol.shown then memoryEntries a (m.state.memory symbol a) else []
    | _ => []
  return { regs, mem }

def toJson (c : Counterexample) : Json :=
  .obj [
    ("regs", .obj (c.sortedRegs.map fun (n, v) => (n, .str (Text.hex v)))),
    ("mem", .obj (c.sortedMem.map fun (a, b) => (Text.hex a, .str (Text.hex b))))]

def replayText (c : Counterexample) : String :=
  c.toJson.spread 0 ++ "\n"

/-- A debugger script that starts a function from the counterexample.  Only registers of more than
one bit are set. -/
def debuggerScript (c : Counterexample) (func : String) (arch : Arch) : String :=
  let regs := c.sortedRegs.filterMap fun (n, v) =>
    if 1 < (arch.width? n).getD 0 then
      some ("set $" ++ Text.lower n ++ " = " ++ Text.hex v)
    else none
  let mem := c.sortedMem.map fun (a, b) =>
    "set \x7bchar\x7d " ++ Text.hex a ++ " = " ++ Text.hex b
  "\n".intercalate (("break *" ++ func) :: "run" :: regs ++ mem) ++ "\n"

end Counterexample

/-! ## §3 Summaries for readers -/

def goalLines (r : Constraint.Refutation) : List String :=
  "Refuted goals:" :: r.goals.map fun g => "  " ++ g.name ++ ": " ++ g.formula.text

def pathLines (r : Constraint.Refutation) : List String :=
  "Path:" :: r.path.map fun p =>
    "  " ++ p.jump.inText ++ ": " ++ (if p.taken then "taken" else "not taken")

/-- The summary of a refutation; goals and path are shown on demand. -/
def refutationText (r : Constraint.Refutation) (shown : List String) : String :=
  "\n".intercalate ("SAT!" ::
    ((if shown.contains "refuted-goals" then goalLines r else [])
      ++ if shown.contains "paths" then pathLines r else []))

/-- The summary of an outcome, and what is refuted. -/
def Outcome.describe (o : Outcome) (c : Constraint) (shown : List String) :
    String × Constraint.Refutation :=
  match o with
  | .proved exact => (if exact then "UNSAT!" else "UNSAT! (up to the loop unrolling bound)", {})
  | .unknown reason => ("UNKNOWN: " ++ reason, {})
  | .refuted m =>
    let r := c.refutation m.state
    (refutationText r shown, r)

end Antecedent
