import Antecedent.Walk

/-!
# Hypotheses on entry

The variables that matter to a subroutine, and what may be taken for granted on entry: entry values
have names, and the stack pointer lies in the stack.

A user's condition is the conjunction of what a text asserts over the constants of one environment,
or of two under comparison, where the names of each side have a suffix.
-/

namespace Antecedent

/-- The callees that are reached from a list of names through the bodies of an environment, added to
those found before.  The bound is on the length of a chain of calls. -/
def Environment.reach (e : Environment) :
    Nat → List Json → List Label → Except Fault (List Label)
  | 0, _, found => .ok found
  | bound + 1, names, found =>
    names.foldlM
      (fun found name => do
        let label ← name.label
        if label.isAmong found then return found
        else e.reach bound (((e.findSub? label).map Sub.callees).getD []) (label :: found))
      found

def Environment.reachableCallees (e : Environment) (s : Sub) : Except Fault (List Label) :=
  e.reach (e.subs.length + 2) s.callees []

/-- The variables that matter to a subroutine: those of all reachable bodies, the input registers if
call results depend on them, the stack pointer, the return register and the memory. -/
def Environment.relevantVars (e : Environment) (s : Sub) : Except Fault (List Var) := do
  let own ← Var.distinct s.vars
  let bodies := (← e.reachableCallees s).filterMap e.findSub?
  let known ← Var.distinct (own ++ bodies.flatMap Sub.vars)
  let inputs ← if e.useInputs then e.arch.inputRegisters.mapM e.regVar else pure []
  let special ← (e.arch.stackPointer.toList ++ e.arch.returnRegister.toList).mapM e.regVar
  Var.distinct (known ++ inputs ++ special ++ [e.memVar])

def Var.sortByName (vs : List Var) : Except Fault (List Var) :=
  Label.sortBy (fun v w => v.name.before w.name) vs

namespace Build

/-- The hypotheses that tie the names of entry values to the variables, in the order of the
names. -/
def entryValues (vs : List Var) : Build (List Constraint) := do
  (← Var.sortByName vs).mapM fun v => do
    let init ← getInit v
    let t ← Term.mkEq init (← getVar v)
    goal (Environment.initMark ++ v.name.inText) t

def stackInRange : Build Constraint := do
  let e ← env
  match e.arch.stackPointer with
  | none => trivial
  | some name =>
    let sp ← getRegister name
    let w ← sp.width
    let top ← Term.mk (.order .ule) [sp, Term.numeral w e.stack.base]
    let bottom ← Term.mk (.order .ugt) [sp, Term.numeral w (e.stack.base - e.stack.size)]
    goal "stack pointer in range" (← Term.mk .and [top, bottom])

/-! ## Conditions of the user -/

/-- The goal of a text over some constants; a blank text asks for nothing. -/
def condition (name text : String) (consts : List (String × Term)) : Build Constraint := do
  if (Text.trim text).isEmpty then trivial
  else
    match (← env).logic.read consts text with
    | none => throw (.badCondition text)
    | some [] => trivial
    | some [t] => goal name t
    | some ts => goal name (.app .and ts)

/-- The goal of a condition over the constants of the environment. -/
def conditionOn (name text : String) : Build Constraint := do
  condition name text (← (← env).declarations "")

end Build

/-- The suffix of the first environment's names in a condition over two. -/
def firstSuffix : String := "_orig"

/-- The suffix of the second environment's names in a condition over two. -/
def secondSuffix : String := "_mod"

/-- The goal of a condition over the constants of two environments. -/
def conditionOnBoth (name text : String) : Compare Constraint := do
  let t ← get
  let first ← t.first.declarations firstSuffix
  let second ← t.second.declarations secondSuffix
  onFirst (Build.condition name text (Environment.overlay first second))

end Antecedent
