import Antecedent.Analysis.Setup

/-!
# What an analysis asks

A question is a condition that is to hold in all states, together with the environments it was built
in.  The analysis of one program asks whether the hypotheses on entry imply the precondition of a
subroutine; that of two programs asks the same of both in sequence.
-/

namespace Antecedent

namespace Setup

def build {α : Type} (e : Environment) (act : Build α) : Setup (α × Environment) :=
  ExceptT.mk fun supply =>
    let (r, s) := act.run.run { supply, env := e }
    (r.map fun a => (a, s.env), s.supply)

def buildBoth {α : Type} (first second : Environment) (act : Compare α) :
    Setup (α × Environment × Environment) :=
  ExceptT.mk fun supply =>
    let (r, t) := act.run.run { supply, first, second }
    (r.map fun a => (a, t.first, t.second), t.supply)

end Setup

/-- What is asked, and the environments of the first and the second program; of one program they are
the same. -/
structure Question where
  condition : Constraint
  first : Environment
  second : Environment

def Build.entryHypotheses (s : Sub) : Build (List Constraint) := do
  entryValues (← (← env).relevantVars s)

/-- The question about one subroutine: the stack pointer is in range, entry values have names and
the user's precondition holds; then the user's postcondition holds on exit. -/
def Build.single (o : Options) (s : Sub) : Build Constraint := do
  let inits ← entryHypotheses s
  let range ← stackInRange
  let post ← if o.postcond.isEmpty then trivial else conditionOn "postcondition" o.postcond
  let pre ← precondition post s
  let given ← conditionOn "precondition" o.precond
  clause (range :: inits) [← clause [given] [pre]]

namespace Options

def single (o : Options) (d : Defaults) (p : Program) (s : Sub) : Setup Question := do
  let e ← o.environment d p o.verifiedHooks
  let (condition, e) ← Setup.build e (Build.single o s)
  return { condition, first := e, second := e }

/-- The conditions on the accesses of the first of two programs: what it loads is what the second
one's memory holds at the mapped address. -/
def firstHooks (o : Options) (first second : Program) (memory : Option Term) :
    Setup (List Hook) := do
  let map ← if o.memoryOffset then Setup.addressMap first.symbols second.symbols else pure []
  return o.assumedHooks ++ (memory.map fun m => Hook.sameAs m map).toList

def comparative (o : Options) (d : Defaults) (first second : Program) (s1 s2 : Sub) :
    Setup Question := do
  let e2 ← (← o.environment d second o.verifiedHooks).freshen
  let (inits2, e2) ← Setup.build e2 (Build.entryHypotheses s2)
  let hooks ← o.firstHooks first second (e2.findVar? e2.arch.memoryName)
  let e1 ← o.environment d first hooks
  let (inits1, e1) ← Setup.build e1 (Build.entryHypotheses s1)
  let (condition, e1, e2) ← Setup.buildBoth e1 e2 do
    let cs ← o.comparators s1 s2
    let posts := cs.map (Comparator.postcondition s1 s2)
    let hyps := cs.map (Comparator.hypothesis s1 s2)
    let c ← compareSubs posts hyps s1 s2
    onFirst (Build.clause (inits1 ++ inits2) [c])
  return { condition, first := e1, second := e2 }

end Options

end Antecedent
