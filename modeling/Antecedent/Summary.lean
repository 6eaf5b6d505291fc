import Antecedent.Flow
import Antecedent.Session

/-!
# Meanings of calls

Which callees a summary covers, and what it makes of a call: the condition before the call from the
condition after it.  The body of an inlined callee is walked elsewhere.
-/

namespace Antecedent

namespace Summary

def name : Summary → String
  | .error => "spec_verifier_error"
  | .assume => "spec_verifier_assume"
  | .nondet => "spec_verifier_nondet"
  | .instrumentation => "spec_afl_maybe_log"
  | .inline _ => "spec_inline"
  | .empty => "spec_empty"
  | .arguments => "spec_arg_terms"
  | .clobber => "spec_chaos_caller_saved"
  | .result => "spec_rax_out"

def errorNames : List String :=
  ["__VERIFIER_error", "__assert_fail"]

/-- The callee whose argument may be taken to be nonzero. -/
def assumeName : String :=
  "__VERIFIER_assume"

/-- The first part of the names of callees with an arbitrary result. -/
def nondetMark : String :=
  "__VERIFIER_nondet_"

def instrumentationName : String :=
  "__afl_maybe_log"

/-- The registers that the instrumentation clobbers. -/
def instrumentationRegisters : List String :=
  ["RAX", "RCX", "RDX"]

/-- Whether a subroutine is one block that only returns. -/
def isEmptyBody (s : Sub) : Bool :=
  match s.blks with
  | [b] => b.defs.isEmpty && b.jmps.all (·.kind == .ret)
  | _ => false

def covers (e : Environment) (callee : Sub) : Summary → Except Fault Bool
  | .error => .ok ((callee.name.str?.map errorNames.contains).getD false)
  | .assume => .ok (callee.name.str? == some assumeName && !e.arch.inputRegisters.isEmpty)
  | .nondet =>
    match callee.name with
    | .str name => .ok (name.startsWith nondetMark && e.arch.returnRegister.isSome)
    | _ => .error .notAnObject
  | .instrumentation => .ok (callee.name.str? == some instrumentationName)
  | .inline names => do
    let label ← callee.name.label
    if label.isAmong names && !callee.blks.isEmpty then boundAbove e.unroll (e.depth label)
    else return false
  | .empty => .ok (isEmptyBody callee)
  | .arguments => .ok !callee.args.isEmpty
  | .clobber => .ok !e.arch.callerSaved.isEmpty
  | .result => .ok true

/-- The summaries of an analysis, in the order in which they are tried. -/
def standard (inlined : List Label) (tripAsserts : Bool) : List Summary :=
  (if tripAsserts then [.error] else []) ++
    [.assume, .nondet, .instrumentation, .inline inlined, .empty, .arguments, .clobber, .result]

/-- The names that a list of summaries inlines, each once. -/
def inlinedNames (summaries : List Summary) : List Label :=
  Label.distinct (summaries.flatMap fun
    | .inline names => names
    | _ => [])

end Summary

/-- The first summary of a list that covers a callee. -/
def Environment.firstCovering (e : Environment) (callee : Sub) :
    List Summary → Except Fault Summary
  | [] => .error (.noSummary callee.name.inText (e.summaries.map Summary.name))
  | s :: ss => do if ← s.covers e callee then return s else e.firstCovering callee ss

/-- The first summary that covers a callee. -/
def Environment.resolve (e : Environment) (callee : Sub) : Except Fault Summary :=
  e.firstCovering callee e.summaries

namespace Build

/-- The input registers, as far as call results depend on them. -/
def inputValues : Build (List Term) := do
  let e ← env
  if e.useInputs then e.arch.inputRegisters.mapM getRegister else return []

/-- The return register, if the target has one with a name. -/
def returnRegisters : Build (List String) := do
  return (← env).arch.returnRegister.toList.filter (!·.isEmpty)

/-- Gives registers unknown values after a call.  Those listed as functional become functions of the
input registers, and names that are no registers are passed over. -/
def havoc (post : Constraint) (callee : Sub) (registers functional : List String) :
    Build Constraint := do
  let inputs ← inputValues
  let pairs ← registers.filterMapM fun r => do
    match (← env).arch.width? r with
    | none => return none
    | some w =>
      let old ← getRegister r
      let symbol := callee.name.inText ++ "_" ++ r
      let new ←
        if functional.contains r then callResult symbol inputs (.int w) else fresh symbol (.int w)
      return some (old, new)
  substitution post (pairs.map (·.1)) (pairs.map (·.2))

/-- The first argument of a call is taken to be nonzero. -/
def assumeArgument (post : Constraint) (callee : Sub) (tid : Json) : Build Constraint := do
  match (← env).arch.inputRegisters with
  | [] => return post
  | r :: _ =>
    let arg ← getRegister r
    let nonzero ← Term.mkDistinct arg (.num (← arg.width) 0)
    let hyp ← goal (callee.name.inText ++ " argument at " ++ tid.inText) nonzero
    clause [hyp] [post]

def isInput (a : Arg) : Bool :=
  a.intent.str? == some "in" || a.intent.str? == some "both"

def isOutput (a : Arg) : Bool :=
  a.intent.str? == some "out" || a.intent.str? == some "both"

/-- The outputs of a call are functions of its inputs. -/
def argumentTerms (post : Constraint) (callee : Sub) : Build Constraint := do
  let inputs ← (callee.args.filter isInput).mapM fun a => getVar a.var
  let inputs := if (← env).useInputs then inputs else []
  let pairs ← (callee.args.filter isOutput).mapM fun a => do
    let old ← getVar a.var
    let new ← callResult (callee.name.inText ++ "_" ++ a.var.name.inText) inputs a.var.width
    return (old, new)
  substitution post (pairs.map (·.1)) (pairs.map (·.2))

/-- The condition before a call by a summary; `walk` gives the condition before an inlined body. -/
def summarize (walk : Constraint → Sub → Build Constraint) (post : Constraint) (callee : Sub)
    (tid : Json) : Summary → Build Constraint
  | .error => goal (callee.name.inText ++ " reached at " ++ tid.inText) (.lit false)
  | .assume => assumeArgument post callee tid
  | .nondet => do havoc post callee (← returnRegisters) []
  | .instrumentation => havoc post callee Summary.instrumentationRegisters []
  | .inline _ => do
    let label ← callee.name.label
    modifyEnv fun e => e.setDepth label (e.depth label + 1)
    -- The activation is closed again also when the walk ends in a fault.
    ExceptT.mk do
      let r ← (walk post callee).run
      modify fun s =>
        { s with env := s.env.setDepth label (s.env.depth label - 1) }
      return r
  | .empty => return post
  | .arguments => argumentTerms post callee
  | .clobber => do havoc post callee (← env).arch.callerSaved (← returnRegisters)
  | .result => do
    let rs ← returnRegisters
    havoc post callee rs rs

end Build

end Antecedent
