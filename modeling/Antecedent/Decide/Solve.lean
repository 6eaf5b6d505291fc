import Antecedent.Decide.Blast
import Antecedent.Decide.Flat
import Antecedent.Decide.Sat
import Antecedent.Report

/-!
# Deciding validity

A formula is valid if its negation cannot hold.  The negation is split into assumptions, taken apart
into truth values and bit vectors, and given to a search for truth values.  Laws between constants
that stand for loads and results are added only when a candidate breaks them.

A state that refutes the formula is checked by evaluation before it is given.
-/

namespace Antecedent

inductive Validity where
  | valid
  | invalid (model : Model)
  | unknown (reason : String)

abbrev Solver := Term → Validity

namespace Decide

/-! ## §1 Clauses of a circuit -/

def gateClauses (g : Wire) : Gate → List (List Wire)
  | .input => []
  | .and a b => [[g ^^^ 1, a], [g ^^^ 1, b], [g, a ^^^ 1, b ^^^ 1]]
  | .xor a b =>
    [[g ^^^ 1, a, b], [g ^^^ 1, a ^^^ 1, b ^^^ 1], [g, a ^^^ 1, b], [g, a, b ^^^ 1]]
  | .maj a b c =>
    [[g, a ^^^ 1, b ^^^ 1], [g, a ^^^ 1, c ^^^ 1], [g, b ^^^ 1, c ^^^ 1],
      [g ^^^ 1, a, b], [g ^^^ 1, a, c], [g ^^^ 1, b, c]]
  | .mux c a b =>
    [[c ^^^ 1, a ^^^ 1, g], [c ^^^ 1, a, g ^^^ 1], [c, b ^^^ 1, g], [c, b, g ^^^ 1],
      [a ^^^ 1, b ^^^ 1, g], [a, b, g ^^^ 1]]

structure Engine where
  plan : Plan := {}
  search : Search := {}

namespace Engine

/-- Gives the search the gates that it does not have yet; the bound is on their number. -/
def catchUp (gates : Array Gate) : Nat → Search → Search
  | 0, s => s
  | n + 1, s =>
    let v := s.size
    match gates[v]? with
    | some g =>
      let s := (gateClauses (2 * v) g).foldl Search.addClause s.newVariable
      catchUp gates n (if v == 0 then s.addClause [Wire.on] else s)
    | none => s

def demand (e : Engine) (t : Term) : Engine :=
  let (w, plan) := (Planning.formula t).run e.plan
  let search := catchUp plan.circuit.gates plan.circuit.gates.size (e.search.backTo 0)
  { plan, search := search.addClause [w] }

end Engine

/-! ## §2 States -/

def wordValue (s : Search) (w : Word) : Nat :=
  w.foldr (fun l n => 2 * n + if s.value l == 1 then 1 else 0) 0

abbrev Values := Std.HashMap (Symbol × Srt) Value

/-- The state with given values, zero elsewhere. -/
def stateOf (values : Values) (apply : Symbol → List Srt → Nat → List Value → Nat) : State where
  flag n := ((values[(n, Srt.bool)]?).map Value.isTrue).getD false
  word n w := ((values[(n, Srt.bits w)]?).map Value.toNat).getD 0
  memory n a :=
    match values[(n, Srt.memory a)]? with
    | some (.memory _ m) => m
    | _ => {}
  apply := apply

def inputValues (e : Engine) : Values :=
  e.plan.inputs.fold
    (fun values (name, s) word =>
      let n := wordValue e.search word
      values.insert (name, s) (match s with
        | .bool => .bool (n == 1)
        | s => .bits (match s with
          | .bits w => w
          | _ => 0) n))
    {}

def noFunctions : Symbol → List Srt → Nat → List Value → Nat :=
  fun _ _ _ _ => 0

def withLoads (loads : List Alias) (values : Values) : Values :=
  let s := stateOf values noFunctions
  loads.foldl
    (fun values a =>
      match a.term with
      | .app .select [.const name (.memory w), addr] =>
        let cell := ((addr.value s).toNat, (a.const.value s).toNat)
        let m : Memory := match values[(name, Srt.memory w)]? with
          | some (.memory _ m) => m
          | _ => {}
        -- Equal addresses have equal bytes, so one cell is enough.
        if (m.cells.lookup cell.1).isSome then values
        else values.insert (name, .memory w) (.memory w { m with cells := cell :: m.cells })
      | _ => values)
    values

structure Row where
  name : Symbol
  domain : List Srt
  width : Nat
  args : List Value
  result : Nat

def rowsOf (results : List Alias) (s : State) : List Row :=
  results.filterMap fun a =>
    match a.term with
    | .app (.apply name domain width) args =>
      some {
        name, domain, width
        args := args.map (Term.value s)
        result := (a.const.value s).toNat }
    | _ => none

/-- What a function symbol gives by a list of results, zero elsewhere. -/
def lookupRow (rows : List Row) (name : Symbol) (domain : List Srt) (width : Nat)
    (args : List Value) : Nat :=
  match rows.find? fun r =>
    r.name == name && r.domain == domain && r.width == width && r.args.length == args.length
      && (r.args.zip args).all fun (u, v) => u.same v with
  | some r => r.result
  | none => 0

/-- The state of a candidate: that of the search, extended to memories, function symbols and defined
constants. -/
def fullState (flat : Flat) (defs : List Definition) (e : Engine) : State :=
  let values := withLoads flat.loads (inputValues e)
  let table := lookupRow (rowsOf flat.results (stateOf values noFunctions))
  let s := stateOf values table
  let values := defs.foldl
    (fun values d =>
      match d.const with
      | .const name srt => values.insert (name, srt) (d.body.value s)
      | _ => values)
    values
  stateOf values table

/-! ## §3 Refinement -/

def brokenLaws (laws : List Term) (s : State) : List Term :=
  let values := (Term.foldKnownList s.step laws {}).1.1
  (laws.zip values).filterMap fun (law, v) => if v.isTrue then none else some law

/-- Searches, adding the laws that candidates break; the bound is on the number of rounds. -/
def refine (laws : List Term) : Nat → Engine → Search.Answer × Engine
  | 0, e => (.open_, e)
  | bound + 1, e =>
    match e.search.solve with
    | (.satisfied, search) =>
      let e := { e with search }
      match brokenLaws laws (stateOf (inputValues e) noFunctions) with
      | [] => (.satisfied, e)
      | broken => refine laws bound (broken.foldl Engine.demand e)
    | (answer, search) => (answer, { e with search })

def constantNames (t : Term) : List String :=
  (Term.constants [t]).filterMap fun
    | .const name _ => some name.shown
    | _ => none

def validity : Solver := fun t =>
  let split := splitNegation t
  if split.rest.contains (.lit false) then .valid
  else
    let flat := Flat.ofTerms split.rest
    let start := flat.terms.foldl Engine.demand {}
    match refine flat.laws (flat.laws.length + 1) start with
    | (.failed, _) => .valid
    | (.open_, _) => .unknown "canceled"
    | (.satisfied, e) =>
      let s := fullState flat split.defs e
      if (t.value s).isTrue then .unknown "incomplete"
      else .invalid { state := s, declared := constantNames t }

end Decide

/-! ## §4 Constraints -/

/-- Checks a constraint.  Cut paths count as true; a proof is exact if it does not need that. -/
def check (solver : Solver) (c : Constraint) : Outcome :=
  match solver (c.flatten true) with
  | .invalid m => .refuted m
  | .unknown reason => .unknown reason
  | .valid =>
    if c.hasCuts then
      match solver (c.flatten false) with
      | .valid => .proved true
      | _ => .proved false
    else .proved true

end Antecedent
