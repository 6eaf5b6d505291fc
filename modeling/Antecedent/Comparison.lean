import Antecedent.Hypotheses

/-!
# Comparing two subroutines

Two subroutines are compared in sequence: the second one runs after the first one on constants of
its own, and a comparator says what the two states have in common on entry and on exit.
-/

namespace Antecedent

/-- What is compared: nothing, the stack pointer, the functions called, registers, or a user's
conditions. -/
inductive Comparator where
  | nothing
  | stackPointer (sp : Var)
  | calls
  | registers (pre post : List Var)
  | conditions (pre post : String)

namespace Comparator

def name : Comparator → String
  | .nothing => "empty"
  | .stackPointer _ => "sp"
  | .calls => "func_calls"
  | .registers _ _ => "post_reg_values"
  | .conditions _ _ => "smtlib"

/-- The comparator of a target's stack pointer; without one there is a warning instead. -/
def ofStackPointer (arch : Arch) : Compare (Option Comparator) := do
  match arch.stackPointer with
  | some sp =>
    return some (.stackPointer { name := .str sp, width := .int (← arch.width sp) })
  | none =>
    onFirst (Build.warn (s!"Architecture {arch.name} has no stack pointer; skipping the "
      ++ "stack pointer comparator."))
    return none

def sameValue (v : Var) : Compare Term := do
  let a ← onFirst (Build.getVar v)
  let b ← onSecond (Build.getVar v)
  Term.mkEq a b

def sameValues (vs : List Var) : Compare (List Term) := do
  (← Var.sortByName (← Var.distinct vs)).mapM sameValue

/-- The goal of a conjunction; an empty one is trivial. -/
def conjunctionGoal (name : String) (ts : List Term) : Compare Constraint :=
  match ts with
  | [] => onFirst Build.trivial
  | [t] => onFirst (Build.goal name t)
  | ts => onFirst (Build.goal name (.app .and ts))

/-- The functions that either subroutine reaches, by name.  The names must be texts. -/
def calledNames (first second : Sub) : Compare (List String) := do
  let t ← get
  let mine ← t.first.reachableCallees first
  let others ← t.second.reachableCallees second
  (← Label.sorted (mine ++ others)).mapM fun
    | .text s => return s
    | _ => throw .wrongType

def hypothesis (first second : Sub) : Comparator → Compare Constraint
  | .nothing => onFirst Build.trivial
  | .stackPointer sp => do
    let same ← sameValue sp
    let g ← onFirst (Build.goal "stack pointers equal" same)
    let r ← onFirst Build.stackInRange
    onFirst (Build.clause [] [g, r])
  | .calls => do
    let ts ← (← calledNames first second).mapM fun f => do
      let a ← onFirst (Build.callFlag f)
      let b ← onSecond (Build.callFlag f)
      return Term.app .and [.app .not [a], .app .not [b]]
    conjunctionGoal "no function called on entry" ts
  | .registers pre _ => do
    conjunctionGoal "registers equal on entry" (← sameValues pre)
  | .conditions pre _ => conditionOnBoth "precondition" pre

def postcondition (first second : Sub) : Comparator → Compare Constraint
  | .nothing => onFirst Build.trivial
  | .stackPointer sp => do
    let same ← sameValue sp
    onFirst (Build.goal "stack pointers equal on exit" same)
  | .calls => do
    let ts ← (← calledNames first second).mapM fun f => do
      let b ← onSecond (Build.callFlag f)
      let a ← onFirst (Build.callFlag f)
      return Term.app .implies [b, a]
    conjunctionGoal "modified calls a subset of original calls" ts
  | .registers _ post => do
    conjunctionGoal "registers equal on exit" (← sameValues post)
  | .conditions _ post => conditionOnBoth "postcondition" post

end Comparator

/-- The condition under which two subroutines agree: the hypotheses imply the precondition of the
first subroutine for the precondition of the second one for the postconditions.  One side must have
constants of its own; if neither has, the second one is freshened. -/
def compareSubs (posts hyps : List (Compare Constraint)) (first second : Sub) :
    Compare Constraint := do
  let t ← get
  if t.first.freshened && t.second.freshened then throw .bothFreshened
  if !(t.first.freshened || t.second.freshened) then
    let e ← t.second.freshen
    modify fun t => { t with second := e }
  let ps ← posts.mapM id
  let post ← onFirst (Build.clause [] ps)
  let inner ← onSecond (precondition post second)
  let outer ← onFirst (precondition inner first)
  let hs ← hyps.mapM id
  onFirst (Build.clause hs [outer])

end Antecedent
