import Antecedent.Analysis.Question
import Antecedent.Cache.Backend
import Antecedent.Decide.Solve
import Antecedent.Program.Text

/-!
# Running an analysis

Programs are read through the cache, the question of the run is put to a solver, and the answer is
reported.  A refutation is also written to the replay files that the options name.
-/

namespace Antecedent

/-! ## §1 Reports -/

/-- Something shown on demand.  Formulas and numbers are kept as they are and turned into text only
where it is needed. -/
inductive Detail where
  | text (s : String)
  | assertion (formula : Term)
  | statistics (queries : Nat)

def Detail.render : Detail → String
  | .text s => s
  | .assertion formula => "(assert " ++ formula.text ++ ")\n"
  | .statistics queries => s!"(:queries {queries})"

structure Report where
  outcome : Outcome
  message : String
  refutation : Constraint.Refutation := {}
  counterexample : Option Counterexample := none
  /-- The headers of loops that were cut, in order. -/
  truncated : List Label := []
  details : List (String × Detail) := []
  warnings : List String := []

def Question.details (q : Question) (o : Options) (subs : List Sub) :
    Except Fault (List (String × Detail)) := do
  let body ← if o.shown.contains "bir" then do
      let texts ← subs.mapM Sub.text
      pure [("bir", Detail.text ("\n\n".intercalate texts))]
    else pure []
  let stats := if o.debug.contains "constraint-stats" then
    [("constraint-stats", Detail.text q.condition.stats.text)] else []
  let tree := if o.shown.contains "precond-internal" then
    [("precond-internal", Detail.text q.condition.text)] else []
  return body ++ stats ++ tree

def Question.solverDetails (q : Question) (o : Options) : List (String × Detail) :=
  let sizes := if o.debug.contains "eval-constraint-stats" then
    [("eval-constraint-stats", Detail.text (Constraint.sizesText q.condition.substSizes))] else []
  let formula := if o.shown.contains "precond-smtlib" then
    [("precond-smtlib", Detail.assertion (.app .not [q.condition.flatten true]))] else []
  let statistics := if o.debug.contains "z3-solver-stats" then
    [("z3-solver-stats", Detail.statistics 1)] else []
  sizes ++ formula ++ statistics

def Question.answer (q : Question) (solver : Solver) (o : Options) (subs : List Sub)
    (warnings : List String) : Except Fault Report := do
  let details ← q.details o subs
  let _ ← q.condition.flatten? true
  let outcome := check solver q.condition
  let (message, refutation) := outcome.describe q.condition o.shown
  let truncated ← Label.sorted (q.first.truncated ++ q.second.truncated)
  let counterexample ← match outcome with
    | .refuted m => do pure (some (← Counterexample.ofModel m q.second))
    | _ => pure none
  return {
    outcome, message, refutation, counterexample, truncated, warnings
    details := details ++ q.solverDetails o }

/-! ## §2 Programs -/

def Program.subNamed (p : Program) (name : String) : Except Fault Sub :=
  match p.findSub? (.str name) with
  | some s => .ok s
  | none => .error (.missingFunction name)

/-- The question about programs, the subroutines asked about, and the warnings given while it is
made. -/
def Options.question (o : Options) (d : Defaults) (programs : List Program) :
    Except Fault (Question × List Sub × List String) := do
  let subs ← programs.mapM fun p => p.subNamed o.func
  let act : Setup Question ← match programs, subs with
    | [p], [s] => pure (o.single d p s)
    | [p1, p2], [s1, s2] => pure (o.comparative d p1 p2 s1 s2)
    | _, _ => throw (.fileCount programs.length)
  let (q, supply) := act.run.run {}
  return (← q, subs, supply.warnings.reverse)

/-! ## §3 Runs -/

variable {σ : Type}

/-- Writes a replay file; no name and an empty one ask for none. -/
def writeReplay [HasDisk σ] (name? : Option String) (text : String) : Cache.Run σ Unit :=
  ExceptT.mk do
    match name? with
    | none | some "" => return .ok ()
    | some name =>
      match ← onDisk (Disk.writeFile name text.toUTF8) with
      | .ok _ => return .ok ()
      | .error e => return .error e.fault

def writeReplays [HasDisk σ] (o : Options) (arch : Arch) (c : Counterexample) :
    Cache.Run σ Unit := do
  writeReplay o.debuggerFile (c.debuggerScript o.func arch)
  writeReplay o.replayFile c.replayText

def Options.run [HasDisk σ] (o : Options) (d : Defaults) (solver : Solver) (ctx : Cache.Context σ)
    (files : List String) : Cache.Run σ Report := do
  if let some problem := o.problem? files.length then throw problem
  let programs ← files.mapM (Cache.readProgram ctx)
  let (q, subs, warnings) ← o.question d programs
  let report ← q.answer solver o subs warnings
  if let some c := report.counterexample then writeReplays o q.second.arch c
  return report

end Antecedent
