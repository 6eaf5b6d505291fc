import Antecedent.Smtlib.Builtin
import Antecedent.Smtlib.Sexp
import Antecedent.Term.Subst

/-!
# SMT-LIB scripts

A script asserts formulas over given constants and those that it declares.  Definitions and local
names are expanded where they are used.

A term can be given a name where it stands, and the name can be used from there on; so reading a
term can change what names mean.
-/

namespace Antecedent.Smtlib

/-- A defined function: its parameters, as the constants that stand for them in the body. -/
structure Definition where
  name : String
  params : List Term
  body : Term

/-- What names mean: definitions before constants before operators. -/
structure Scope where
  defs : List Definition := []
  consts : List (Symbol × Term) := []

abbrev Reader := StateT Scope Option

/-- Local names, the innermost first. -/
abbrev Locals := List (String × Term)

namespace Scope

def definition? (c : Scope) (name : String) (domain : List Srt) : Option Definition :=
  c.defs.find? fun m => m.name == name && m.params.map Term.sort == domain

/-- The meaning of a name without arguments.  A name of several constants has none. -/
def find? (c : Scope) (name : String) : Option Term :=
  match c.definition? name [] with
  | some m => some m.body
  | none =>
    match c.consts.filter (·.1 == .text name) with
    | [(_, t)] => some t
    | _ :: _ => none
    | [] =>
      if name == "true" then some (.lit true)
      else if name == "false" then some (.lit false)
      else none

def applied? (c : Scope) (name : String) (args : List Term) : Option Term :=
  match c.definition? name (args.map Term.sort) with
  | some m => some (m.body.subst (m.params.zip args))
  | none => operator? name args

/-- Gives a name a definition.  An operator keeps its meaning, and so does a definition with the
same parameters or a constant of the same sort. -/
def define (name : String) (params : List Term) (body : Term) : Reader Unit := do
  let c ← get
  if isBuiltin name || (c.definition? name (params.map Term.sort)).isSome
      || params.isEmpty && c.consts.any (fun (n, t) => n == .text name && t.sort == body.sort) then
    failure
  set { c with defs := ⟨name, params, body⟩ :: c.defs }

/-- Adds a constant under a name; the same constant can have a name only once. -/
def declare (name : Symbol) (t : Term) : Reader Unit := do
  let c ← get
  if c.consts.contains (name, t) then failure
  set { c with consts := (name, t) :: c.consts }

end Scope

/-! ## §1 Terms -/

def indexedNumeral? (name : String) (width : Nat) : Option Term :=
  match name.toList with
  | 'b' :: 'v' :: d :: ds =>
    if (d :: ds).all Char.isDigit && 0 < width then
      some (Term.numeral width (digitsValue 10 (d :: ds)))
    else none
  | _ => none

def numerals? : List Sexp → Option (List Nat)
  | [] => some []
  | .numeral n :: ss => (numerals? ss).map (n :: ·)
  | _ => none

/-- Takes the attributes of a term; only those that name it matter. -/
def attributes (t : Term) : List Sexp → Reader Unit
  | [] => return
  | .keyword "named" :: .symbol name :: rest => do
    Scope.define name [] t
    attributes t rest
  | .keyword "named" :: _ => failure
  | .keyword _ :: _ :: rest => attributes t rest
  | _ => failure

/-- An application of a local name reads from the memory that it stands for. -/
def selectAll? (t : Term) : List Term → Option Term
  | [] => some t
  | a :: as => do selectAll? (← combine? .select [t, a]) as

def application (locals : Locals) (name : String) (args : List Term) : Reader Term := do
  match locals.lookup name with
  | some t => selectAll? t args
  | none => (← get).applied? name args

mutual
def term (locals : Locals) : Sexp → Reader Term
  | .symbol name => do
    match locals.lookup name with
    | some t => return t
    | none => (← get).find? name
  | .word w n => return .num w n
  | .list items =>
    match items with
    | [.symbol "_", .symbol name, .numeral width] => indexedNumeral? name width
    | [.symbol "let", .list bindings, body] => do
      let new ← bindingList locals bindings
      term (new.reverse ++ locals) body
    | .symbol "!" :: body :: rest => do
      let t ← term locals body
      attributes t rest
      return t
    | .symbol name :: arg :: args => do
      let t ← term locals arg
      application locals name (t :: (← termList locals args))
    | .list (.symbol "_" :: .symbol name :: indices) :: args => do
      let ts ← termList locals args
      indexed? name (← numerals? indices) ts
    | _ => failure
  | _ => failure
def termList (locals : Locals) : List Sexp → Reader (List Term)
  | [] => return []
  | s :: ss => do
    let t ← term locals s
    return t :: (← termList locals ss)
def bindingList (locals : Locals) : List Sexp → Reader Locals
  | [] => return []
  | .list [.symbol name, s] :: ss => do
    let t ← term locals s
    return (name, t) :: (← bindingList locals ss)
  | _ => failure
end

def sort? : Sexp → Option Srt
  | .symbol "Bool" => some .bool
  | .list [.symbol "_", .symbol "BitVec", .numeral w] => if 0 < w then some (.bits w) else none
  | .list [.symbol "Array", .list [.symbol "_", .symbol "BitVec", .numeral a],
      .list [.symbol "_", .symbol "BitVec", .numeral b]] =>
    if 0 < a ∧ b = 8 then some (.memory a) else none
  | _ => none

/-- The parameters of a definition from a number on: their names and the constants that stand for
them. -/
def params? (index : Nat) : List Sexp → Option Locals
  | [] => some []
  | .list [.symbol name, s] :: ss => do
    let srt ← sort? s
    pure ((name, .const (.hidden s!"parameter!{index}") srt) :: (← params? (index + 1) ss))
  | _ => none

/-! ## §2 Commands -/

/-- A script so far: its scope, the formulas asserted, the last first, the scopes and formulas kept
for later, and whether a logic is set. -/
structure Script where
  scope : Scope
  formulas : List Term := []
  kept : List (Scope × List Term) := []
  hasLogic : Bool := false

namespace Script

def reading {α : Type} (s : Script) (act : Reader α) : Option (α × Script) := do
  let (a, scope) ← act.run s.scope
  pure (a, { s with scope })

/-- The term of an S-expression, which must have a sort. -/
def termOf (s : Script) (locals : Locals) (srt : Srt) (e : Sexp) : Option (Term × Script) := do
  let (t, s) ← s.reading (term locals e)
  if t.sort == srt then pure (t, s) else none

/-- The logics that can be set; setting another one has no effect. -/
def logics : List String :=
  ["ALL", "QF_BV", "QF_ABV", "QF_UFBV", "QF_AUFBV", "BV", "ABV", "UFBV", "AUFBV", "QF_AX", "QF_UF",
    "UF", "QF_LIA", "QF_LRA", "QF_NIA", "QF_NRA", "QF_LIRA", "QF_NIRA", "QF_IDL", "QF_RDL",
    "QF_UFLIA", "QF_UFLRA", "QF_UFNIA", "QF_UFNRA", "QF_UFNIRA", "QF_UFIDL", "QF_UFRDL", "QF_ALIA",
    "QF_ANIA", "QF_AUFLIA", "QF_AUFLIRA", "QF_AUFNIA", "QF_AUFNIRA", "LIA", "LRA", "NIA", "NRA",
    "ALIA", "AUFLIA", "AUFLIRA", "AUFNIA", "AUFNIRA", "UFLIA", "UFLRA", "UFNIA", "UFNRA", "UFNIRA",
    "UFIDL", "QF_FP", "FP", "QF_FPBV", "QF_BVFP", "QF_FPLRA", "QF_BVRE", "QF_S", "QF_FD", "SAT",
    "HORN", "QF_DT", "QF_UFDT"]

/-- Sets the logic, which can be done once. -/
def setLogic (s : Script) (name : String) : Option Script :=
  if s.hasLogic then none else some { s with hasLogic := logics.contains name }

/-- Keeps the scope and the formulas a number of times. -/
def push (s : Script) (n : Nat) : Script :=
  { s with kept := List.replicate n (s.scope, s.formulas) ++ s.kept }

/-- Goes back to what was kept a number of times before. -/
def pop (s : Script) (n : Nat) : Option Script :=
  match n with
  | 0 => some s
  | n + 1 =>
    match s.kept.drop n with
    | (scope, formulas) :: kept => some { s with scope, formulas, kept }
    | [] => none

def command (s : Script) : Sexp → Option Script
  | .list [.symbol "assert", e] => do
    let (t, s) ← s.termOf [] .bool e
    pure { s with formulas := t :: s.formulas }
  | .list [.symbol "declare-const", .symbol name, e]
  | .list [.symbol "declare-fun", .symbol name, .list [], e] => do
    let srt ← sort? e
    pure (← s.reading (Scope.declare (.text name) (.const (.text name) srt))).2
  | .list [.symbol "define-fun", .symbol name, .list params, result, body] => do
    let ps ← params? 0 params
    let (t, s) ← s.termOf ps.reverse (← sort? result) body
    pure (← s.reading (Scope.define name (ps.map (·.2)) t)).2
  | .list [.symbol "define-const", .symbol name, result, body] => do
    let (t, s) ← s.termOf [] (← sort? result) body
    pure (← s.reading (Scope.define name [] t)).2
  | .list [.symbol "set-logic", .symbol name] => s.setLogic name
  | .list [.symbol "push"] => some (s.push 1)
  | .list [.symbol "push", .numeral n] => some (s.push n)
  | .list [.symbol "pop"] => s.pop 1
  | .list [.symbol "pop", .numeral n] => s.pop n
  | .list [.symbol "reset"] | .list [.symbol "reset-assertions"] => some { scope := {} }
  | .list [.symbol "check-sat"] => some s
  | .list [.symbol "check-sat-assuming", .list _] => some s
  | .list [.symbol "echo", .text] => some s
  | .list (.symbol "set-info" :: .keyword _ :: _) => some s
  | .list (.symbol "set-option" :: .keyword _ :: _) => some s
  | .list [.symbol "get-info", .keyword _] => some s
  | .list [.symbol "get-option", .keyword _] => some s
  | _ => none

/-- Takes commands up to the one that ends the script; without one, all of the text must have been
read. -/
def run (s : Script) (complete : Bool) : List Sexp → Option Script
  | [] => if complete then some s else none
  | .list [.symbol "exit"] :: _ => some s
  | c :: cs => do run (← s.command c) complete cs

end Script

def scopeOf (consts : List (String × Term)) : Option Scope := do
  let (_, scope) ← (consts.forM fun (name, t) => Scope.declare (Symbol.ofText name) t).run {}
  pure scope

/-- The formulas that a text asserts over given constants. -/
def assertions? (consts : List (String × Term)) (text : String) : Option (List Term) := do
  let (commands, complete) := read text
  let s ← Script.run { scope := ← scopeOf consts } complete commands
  pure s.formulas.reverse

end Antecedent.Smtlib
