import Antecedent.Constraint.Basic
import Antecedent.Smtlib.Script
import Antecedent.Symbols
import Antecedent.Term.Simplifier

/-!
# Environments

What the analysis of one subroutine knows: the target, the subroutines and their summaries, the
conditions attached to memory accesses, and the constants introduced so far.

Of two programs under comparison one is *freshened*: every constant that it introduces carries a
suffix, so that the two programs talk about different constants.
-/

namespace Antecedent

/-- The stack: it grows down from `base` and holds the addresses above `base - size` up to
`base`. -/
structure StackRange where
  base : Int := 0x40000000
  size : Int := 0x800000
deriving DecidableEq, Repr, Inhabited

inductive AccessKind where
  | load | store
deriving DecidableEq, Repr, Inhabited

def AccessKind.text : AccessKind → String
  | .load => "load"
  | .store => "store"

/-- A load or store met in an expression. -/
structure Access where
  kind : AccessKind
  addr : Term
  size : Json
  tid : Json

/-- Whether a condition on an access has to be shown or may be used. -/
inductive Duty where
  | verify | assume
deriving DecidableEq, Repr, Inhabited

/-- Conditions on memory accesses: an address is not zero, or a load reads what another memory holds
at the mapped address. -/
inductive Hook where
  | nonNull (kind : AccessKind) (duty : Duty)
  | sameAs (memory : Term) (map : AddressMap)

/-- Meanings of calls.  Every call takes the first one in the environment that covers the callee. -/
inductive Summary where
  /-- Reaching the callee is a failure. -/
  | error
  /-- The first argument may be taken to be nonzero. -/
  | assume
  /-- The result is arbitrary. -/
  | nondet
  /-- Instrumentation that clobbers three registers. -/
  | instrumentation
  /-- The callee's body, for callees of these names. -/
  | inline (names : List Label)
  /-- A body that does nothing. -/
  | empty
  /-- Outputs that are functions of the declared inputs. -/
  | arguments
  /-- Arbitrary caller-saved registers and a result that is a function of the inputs. -/
  | clobber
  /-- A result that is a function of the inputs. -/
  | result
deriving DecidableEq, Repr, Inhabited

/-- What is left to a library of formulas: simplifying conditions, and reading the formulas that a
text asserts over named constants. -/
structure Logic where
  simplifier : Simplifier := .ground
  read : List (String × Term) → String → Option (List Term) := Smtlib.assertions?

structure Environment where
  arch : Arch
  logic : Logic := {}
  subs : List Sub := []
  summaries : List Summary := []
  hooks : List Hook := []
  stack : StackRange := {}
  /-- Whether call results depend on the input registers. -/
  useInputs : Bool := true
  /-- How often the body of a loop and a recursive callee are repeated. -/
  unroll : Json := .int 5
  freshened : Bool := false
  /-- The constants of variables in the order of their first use. -/
  vars : List (Label × Term) := []
  /-- The constants of entry values in the order of their first use. -/
  inits : List (String × Term) := []
  /-- The flags of called functions in the order of their first use. -/
  calls : List (String × Term) := []
  /-- All names introduced, the latest first. -/
  introduced : List Label := []
  /-- The headers of loops that were cut, the latest first. -/
  truncated : List Label := []
  /-- How many inlined activations of a callee are open. -/
  depths : List (Label × Nat) := []

namespace Environment

def freshSuffix : String := "_mod"

/-- The first part of the name of an entry value. -/
def initMark : String := "init_"

/-- The first part of the name of a call flag. -/
def calledMark : String := "called_"

/-- The name that a base name stands for; only a text can take the suffix. -/
def localName (e : Environment) (base : Label) : Except Fault Label :=
  if e.freshened then
    match base with
    | .text s => .ok (.text (s ++ freshSuffix))
    | _ => .error .wrongType
  else .ok base

/-- The subroutine of a name; of several the last one. -/
def findSub? (e : Environment) (name : Label) : Option Sub :=
  e.subs.reverse.find? fun s => (s.name.label?.map (Label.same name)).getD false

def findVar? (e : Environment) (name : Label) : Option Term :=
  (e.vars.find? (·.1.same name)).map (·.2)

def memVar (e : Environment) : Var :=
  { name := .str e.arch.memoryName, width := .int 0, isMem := .bool true }

def regVar (e : Environment) (name : String) : Except Fault Var := do
  pure { name := .str name, width := .int (← e.arch.width name) }

def sortOf (e : Environment) (v : Var) : Except Fault Srt := do
  if v.isMem.truthy then pure (.memory (← Term.checkWidth e.arch.addressWidth))
  else pure (.bits (← Term.fieldWidth v.width))

def depth (e : Environment) (name : Label) : Nat :=
  ((e.depths.find? (·.1.same name)).map (·.2)).getD 0

def setDepth (e : Environment) (name : Label) (n : Nat) : Environment :=
  { e with depths := (name, n) :: e.depths.filter (!·.1.same name) }

/-- The symbol of a plain constant whose freshened constant has a symbol. -/
def plainSymbol (s : Symbol) : Symbol :=
  Symbol.ofText ((s.shown.dropEnd freshSuffix.length).toString)

/-- Pairs of a plain constant and the constant of this environment that stands for it. -/
def freshPairs (e : Environment) : Replacement :=
  if e.freshened then
    (e.vars.map (·.2) ++ e.inits.map (·.2) ++ e.calls.map (·.2)).map fun t =>
      match t with
      | .const name s => (.const (plainSymbol name) s, t)
      | t => (t, t)
  else []

/-- Sets an entry: an old key keeps its place, a new one goes last. -/
def setEntry (key : String) (t : Term) : List (String × Term) → List (String × Term)
  | [] => [(key, t)]
  | (k, u) :: es => if k == key then (key, t) :: es else (k, u) :: setEntry key t es

/-- The entries of both lists, those of the second counting where both have a key. -/
def overlay (first second : List (String × Term)) : List (String × Term) :=
  second.foldl (fun es (k, t) => setEntry k t es) first

/-- The names that a condition may mention, with the constants they stand for; all names must be
texts. -/
def declarations (e : Environment) (suffix : String) : Except Fault (List (String × Term)) := do
  let vars ← e.vars.mapM fun (n, t) =>
    match n with
    | .text s => .ok (s ++ suffix, t)
    | _ => .error .wrongType
  return overlay vars (e.inits.map fun (n, t) => (initMark ++ n ++ suffix, t))

end Environment

end Antecedent
