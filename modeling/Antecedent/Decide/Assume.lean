import Antecedent.Decide.Merge

/-!
# Assumptions

A formula that has to hold is a list of formulas that all have to hold.  One of the form `x = t` for
a constant `x` that `t` does not hold is a definition: `x` is replaced everywhere and its value
found from `t` in the end.
-/

namespace Antecedent.Decide

open Term

/-- The formulas that have to hold for a formula to hold, or to fail. -/
def assumptions (holds : Bool) : Term → List Term
  | .app .and ts => if holds then assumptionsList holds ts else [mkNot (.app .and ts)]
  | .app .or ts => if holds then [.app .or ts] else assumptionsList holds ts
  | .app .not [t] => assumptions (!holds) t
  | t => [if holds then t else mkNot t]
where
  assumptionsList (holds : Bool) : List Term → List Term
    | [] => []
    | t :: ts => assumptions holds t ++ assumptionsList holds ts

structure Definition where
  const : Term
  body : Term

def occursIn (c t : Term) : Bool :=
  (constants [t]).contains c

/-- The definition that `s = t` gives with `s` as the constant. -/
def defineBy? (s t : Term) : Option Definition :=
  if s.isConst && !occursIn s t then some ⟨s, t⟩ else none

/-- The definition of a constant that occurs once in a linear form that is zero; the parts before it
are given. -/
def solveFor? (d : Linear) : List (Term × Nat) → Option Definition
  | [] => none
  | (t, c) :: rest =>
    let others := d.parts.filter fun p => p.1 != t
    if t.isConst && (c == 1 || c == Linear.minusOne d.width)
        && !(others.any fun p => occursIn t p.1) then
      let remaining : Linear := { d with parts := others }
      some ⟨t, (if c == 1 then remaining.negate else remaining).toTerm⟩
    else solveFor? d rest

def definition? : Term → Option Definition
  | .const n .bool => some ⟨.const n .bool, .lit true⟩
  | .app .not [.const n .bool] => some ⟨.const n .bool, .lit false⟩
  | .app .eq [s, t] =>
    match defineBy? s t with
    | some d => some d
    | none =>
      match defineBy? t s with
      | some d => some d
      | none =>
        match s.sort with
        | .bits w =>
          let d := (Linear.ofTerm w s).sub (Linear.ofTerm w t)
          solveFor? d d.parts
        | _ => none
  | _ => none

def expand (defs : List Definition) (t : Term) : Term :=
  (t.subst (defs.map fun d => (d.const, d.body))).simplify

/-- Assumptions split into definitions, whose bodies hold no defined constant, and the rest. -/
structure Split where
  defs : List Definition := []
  rest : List Term := []

/-- Adds an assumption, with the definitions so far made use of. -/
def Split.add (s : Split) (t : Term) : Split :=
  let t := if s.defs.isEmpty then t else expand s.defs t
  match definition? t with
  | some d =>
    { s with defs := d :: s.defs.map fun e => { e with body := expand [d] e.body } }
  | none => { s with rest := t :: s.rest }

/-- Splits assumptions, and what is left again, as long as definitions are found; the bound is on
the number of rounds. -/
def splitWithin : Nat → List Definition → List Term → Split
  | 0, defs, ts => { defs, rest := ts }
  | bound + 1, defs, ts =>
    let s : Split := ts.foldl Split.add {}
    if s.defs.isEmpty then { defs, rest := ts }
    else
      let earlier := defs.map fun e => { e with body := expand s.defs e.body }
      let rest := s.rest.reverse.flatMap fun t => assumptions true (expand s.defs t)
      splitWithin bound (s.defs ++ earlier) (rest.filter (· != .lit true))

def splitNegation (t : Term) : Split :=
  let ts := assumptions false t.simplify.merged
  splitWithin (ts.length + 2) [] ts

end Antecedent.Decide
