import Antecedent.Environment

/-!
# Building in an environment

`Build` is the monad of everything that makes constants and constraint nodes: it has an environment
and a supply of numbers, and keeps what was done to them also when it ends in a fault.

A comparison has two environments and one supply; `Compare` builds in either with `onFirst` and
`onSecond`.
-/

namespace Antecedent

/-- Numbers used so far, for names and for nodes, and the warnings given, the latest first. -/
structure Supply where
  names : Nat := 0
  nodes : Nat := 0
  warnings : List String := []
deriving Repr, Inhabited

structure Session where
  supply : Supply := {}
  env : Environment

abbrev Build := ExceptT Fault (StateM Session)

structure Twin where
  supply : Supply := {}
  first : Environment
  second : Environment

abbrev Compare := ExceptT Fault (StateM Twin)

def onFirst {α : Type} (act : Build α) : Compare α :=
  ExceptT.mk fun t =>
    let (r, s) := act.run.run { supply := t.supply, env := t.first }
    (r, { t with supply := s.supply, first := s.env })

def onSecond {α : Type} (act : Build α) : Compare α :=
  ExceptT.mk fun t =>
    let (r, s) := act.run.run { supply := t.supply, env := t.second }
    (r, { t with supply := s.supply, second := s.env })

namespace Build

def env : Build Environment := do
  return (← get).env

def modifyEnv (f : Environment → Environment) : Build Unit :=
  modify fun s => { s with env := f s.env }

def warn (message : String) : Build Unit :=
  modify fun s => { s with supply := { s.supply with warnings := message :: s.supply.warnings } }

/-! ## §1 Constants -/

def name (base : Label) : Build Label := do
  let n ← (← env).localName base
  modifyEnv fun e => { e with introduced := n :: e.introduced }
  return n

def constant (base : Label) (v : Var) : Build Term := do
  let n ← name base
  let s ← (← env).sortOf v
  return .const (← Term.symbolOf n) s

/-- The constant of a variable, introduced on its first use. -/
def getVar (v : Var) : Build Term := do
  let label ← v.name.label
  match (← env).findVar? label with
  | some t => return t
  | none =>
    let t ← constant label v
    modifyEnv fun e => { e with vars := e.vars ++ [(label, t)] }
    return t

def getRegister (register : String) : Build Term := do
  getVar (← (← env).regVar register)

def getMemory : Build Term := do
  getVar (← env).memVar

/-- The constant of a variable's value on entry; the name of the variable must be a text. -/
def getInit (v : Var) : Build Term := do
  match v.name with
  | .str base =>
    match (← env).inits.lookup base with
    | some t => return t
    | none =>
      let t ← constant (Environment.initMark ++ base) v
      modifyEnv fun e => { e with inits := e.inits ++ [(base, t)] }
      return t
  | _ => throw .wrongType

def freshBase (stem : String) : Build String := do
  let s ← get
  let n := s.supply.names + 1
  set { s with supply := { s.supply with names := n } }
  return s!"{stem}_{n}"

def fresh (stem : String) (width : Json) : Build Term := do
  let n ← name (← freshBase stem)
  let w ← Term.fieldWidth width
  return .const (← Term.symbolOf n) (.bits w)

def freshMemory (stem : String) : Build Term := do
  let n ← name (← freshBase stem)
  let w ← Term.checkWidth (← env).arch.addressWidth
  return .const (← Term.symbolOf n) (.memory w)

def callFlag (callee : String) : Build Term := do
  match (← env).calls.lookup callee with
  | some t => return t
  | none =>
    let n ← name (Environment.calledMark ++ callee)
    let t := Term.const (← Term.symbolOf n) .bool
    modifyEnv fun e => { e with calls := e.calls ++ [(callee, t)] }
    return t

/-- The result of a call: an unknown function of the inputs, or an unknown value when there are
none.  The function is the same in all environments. -/
def callResult (symbol : String) (inputs : List Term) (width : Json) : Build Term := do
  if inputs.isEmpty then fresh symbol width
  else
    let w ← Term.fieldWidth width
    return .app (.apply (Symbol.ofText symbol) (inputs.map Term.sort) w) inputs

/-! ## §2 Nodes -/

def nodeId : Build Nat := do
  let s ← get
  set { s with supply := { s.supply with nodes := s.supply.nodes + 1 } }
  return s.supply.nodes

def goal (name : String) (formula : Term) : Build Constraint := do
  return .goal (← nodeId) name formula

def trivial : Build Constraint :=
  goal "true" (.lit true)

def cut (name : String) : Build Constraint :=
  goal name Term.loopCut

/-- A branch; one on a literal is the side taken. -/
def branch (name : Json) (cond : Term) (yes no : Constraint) : Build Constraint :=
  match cond with
  | .lit true => return yes
  | .lit false => return no
  | cond => return .ite (← nodeId) name cond yes no

def clause (hyps concls : List Constraint) : Build Constraint := do
  return .clause (← nodeId) hyps concls

/-- A substitution to be made; an empty one is none. -/
def substitution (body : Constraint) (olds news : List Term) : Build Constraint := do
  if olds.length ≠ news.length then throw (.replacementArity olds.length news.length)
  else if olds.isEmpty then return body
  else return .subst (← nodeId) body (olds.zip news)

/-! ## §3 Whole environments -/

/-- Introduces all registers, in the order of their names, and the memory. -/
def seed : Build Unit := do
  for r in (← env).arch.registerNames do
    let _ ← getRegister r
  let _ ← getMemory

end Build

namespace Environment

/-- The environment with all registers and the memory introduced.  The names of all subroutines must
be labels. -/
def seeded (e : Environment) : Except Fault Environment := do
  let _ ← e.subs.mapM fun s => s.name.label
  match Build.seed.run.run { env := e } with
  | (.ok _, s) => .ok s.env
  | (.error f, _) => .error f

/-- The environment with constants of its own, none of them used yet. -/
def freshen (e : Environment) : Except Fault Environment :=
  seeded { e with freshened := true, vars := [], inits := [], calls := [], introduced := [] }

end Environment

end Antecedent
