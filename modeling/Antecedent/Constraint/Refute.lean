import Antecedent.Constraint.Flatten

/-!
# Refuted goals

A state selects a path through a tree: the side of every branch whose condition decides, and the
conclusions of a clause whose hypotheses all hold.  The goals on it that are false in the state are
the reasons why the tree is.
-/

namespace Antecedent.Constraint

/-- A goal that a state refutes, with all substitutions around it made. -/
structure RefutedGoal where
  name : String
  formula : Term

structure PathStep where
  jump : Json
  taken : Bool
deriving Repr, Inhabited

structure Refutation where
  goals : List RefutedGoal := []
  path : List PathStep := []

def Refutation.append (a b : Refutation) : Refutation :=
  { goals := a.goals ++ b.goals, path := a.path ++ b.path }

def inScope (scope : List Replacement) (t : Term) : Term :=
  scope.foldl (fun t pairs => t.subst pairs) t

/-- Whether a formula holds in a state, cut paths counting as true. -/
def holdsIn (s : State) (t : Term) : Bool :=
  ((resolveCuts true t).value s).isTrue

mutual
/-- The goals of a tree that a state refutes, and the branches it decides on the way. -/
def refute (s : State) (scope : List Replacement) : Constraint → Refutation
  | .goal _ name f =>
    let f := inScope scope f
    if holdsIn s f then {} else { goals := [⟨name, f⟩] }
  | .ite _ name cond yes no =>
    let taken := holdsIn s (inScope scope cond)
    let rest := if taken then refute s scope yes else refute s scope no
    Refutation.append { path := [⟨name, taken⟩] } rest
  | .clause _ hyps concls =>
    if hyps.all fun h => holdsIn s (inScope scope (h.flatten true)) then
      refuteList s scope concls
    else {}
  | .subst _ body pairs => refute s (pairs :: scope) body
def refuteList (s : State) (scope : List Replacement) : List Constraint → Refutation
  | [] => {}
  | c :: cs => (refute s scope c).append (refuteList s scope cs)
end

def refutation (c : Constraint) (s : State) : Refutation :=
  c.refute s []

end Antecedent.Constraint
