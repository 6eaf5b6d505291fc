import Antecedent.Comparison
import Antecedent.Options.Basic
import Antecedent.Pattern.Reader

/-!
# Setting up an analysis

From the options of a run to environments and comparators.
-/

namespace Antecedent

/-- Steps before an environment exists: they may fail and give warnings. -/
abbrev Setup := ExceptT Fault (StateM Supply)

def Setup.warnAll (messages : List String) : Setup Unit :=
  modify fun s => { s with warnings := messages.reverse ++ s.warnings }

/-! ## §1 Environments -/

def Fault.ofPattern (text : String) : Pattern.Flaw → Fault
  | .malformed => .badPattern text
  | .largeCount => .largeRepetition
  | .longCount digits => .longInteger digits
  | .mixedScripts => .mixedScripts
  | .farLook => .farLook

/-- Whether a pattern selects a label, which must be a text. -/
def Pattern.selects (p : Pattern) : Json → Except Fault Bool
  | .str s =>
    match p.search? s with
    | some trail => if trail.isCrossed then .error .crossedGroup else .ok true
    | none => .ok false
  | _ => .error .wrongType

/-- The names that a pattern selects; no pattern selects none, and one that selects none gives a
warning. -/
def Setup.selectLabels (pattern? : Option String) (names : List Json) : Setup (List Label) := do
  match pattern? with
  | none | some "" => return []
  | some text =>
    let p ← (Pattern.parse text).mapError (Fault.ofPattern text)
    let selected ← names.filterMapM fun name => do
      return if ← p.selects name then name.label? else none
    if selected.isEmpty then
      Setup.warnAll ["No functions matched the inline pattern " ++ Text.quoted text]
    return selected

/-- The map from the addresses of one program's symbols to those of another's; symbols that have
changed their size give warnings. -/
def Setup.addressMap (old new : List DataSymbol) : Setup AddressMap := do
  let moved ← movedSymbols old new
  Setup.warnAll (moved.filterMap Moved.warning?)
  return moved

/-- What is not among the options of a run: values for options that are not given, and the library
of formulas. -/
structure Defaults where
  unroll : Int := 5
  stack : StackRange := {}
  logic : Logic := {}

namespace Options

def verifiedHooks (o : Options) : List Hook :=
  if o.checkNull then [.nonNull .load .verify, .nonNull .store .verify] else []

/-- The conditions on the accesses of a program that another one is compared with: they are taken
for granted. -/
def assumedHooks (o : Options) : List Hook :=
  if o.checkNull then [.nonNull .load .assume, .nonNull .store .assume] else []

def environment (o : Options) (d : Defaults) (p : Program) (hooks : List Hook) :
    Setup Environment := do
  let inlined ← Setup.selectLabels o.inline (p.subs.map Sub.name)
  let e : Environment := {
    arch := p.arch, logic := d.logic, subs := p.subs,
    summaries := Summary.standard inlined o.tripAsserts, hooks := hooks, stack := o.stack d.stack,
    useInputs := o.useInputs, unroll := .int (o.unroll.getD d.unroll) }
  e.seeded

end Options

/-! ## §2 Comparators -/

def eitherVars (first second : Sub) : Compare (List Var) := do
  let t ← get
  Var.distinct ((← t.first.relevantVars first) ++ (← t.second.relevantVars second))

def registerComparator (pre : List Var) (post : List String) : Compare Comparator := do
  let e := (← get).first
  let vs : List Var ← post.mapM fun r => do return ← e.regVar r
  return .registers pre vs

/-- The comparators that the options ask for: functions called, registers, conditions and the stack
pointer; if there are none, nothing is compared. -/
def Options.comparators (o : Options) (first second : Sub) : Compare (List Comparator) := do
  let calls := if o.compareCalls then [Comparator.calls] else []
  let registers ←
    if o.compareRegisters.isEmpty then pure []
    else do
      let vs ← eitherVars first second
      let c ← registerComparator vs o.compareRegisters
      let _ ← Var.sortByName vs
      pure [c]
  let conditions :=
    if o.precond.isEmpty && o.postcond.isEmpty then []
    else [Comparator.conditions o.precond o.postcond]
  let sp ← Comparator.ofStackPointer (← get).first.arch
  let all := calls ++ registers ++ conditions ++ sp.toList
  return if all.isEmpty then [.nothing] else all

end Antecedent
