import Antecedent.Json.Basic
import Antecedent.Term.Subst
import Antecedent.Term.Text
import Std.Data.HashSet

/-!
# Constraints

A verification condition is kept as a tree, so that goals keep their names, branches the jump they
came from, and substitutions can wait until the tree is flattened.

Every node has a number, and nodes with one number are one node: a subtree may stand in many places
and is then treated once.  `Constraint.Coherent` says that the numbers are used in this way.

A path that loop unrolling cuts ends in a goal over `Term.loopCut`.
-/

namespace Antecedent

/-- A verification condition: a named formula, a branch on a condition under the name of its jump,
hypotheses that imply conclusions, or a body with a substitution to be made. -/
inductive Constraint where
  | goal (id : Nat) (name : String) (formula : Term)
  | ite (id : Nat) (name : Json) (cond : Term) (yes no : Constraint)
  | clause (id : Nat) (hyps concls : List Constraint)
  | subst (id : Nat) (body : Constraint) (pairs : Replacement)

namespace Constraint

instance : Inhabited Constraint := ⟨.goal 0 "true" (.lit true)⟩

def id : Constraint → Nat
  | .goal i _ _ => i
  | .ite i _ _ _ _ => i
  | .clause i _ _ => i
  | .subst i _ _ => i

def children : Constraint → List Constraint
  | .goal _ _ _ => []
  | .ite _ _ _ yes no => [yes, no]
  | .clause _ hyps concls => hyps ++ concls
  | .subst _ body _ => [body]

mutual
/-- All nodes of a tree, with repetitions. -/
def subtrees : Constraint → List Constraint
  | .goal i name f => [.goal i name f]
  | .ite i name c yes no => .ite i name c yes no :: (subtrees yes ++ subtrees no)
  | .clause i hyps concls => .clause i hyps concls :: (subtreesList hyps ++ subtreesList concls)
  | .subst i body pairs => .subst i body pairs :: subtrees body
def subtreesList : List Constraint → List Constraint
  | [] => []
  | c :: cs => subtrees c ++ subtreesList cs
end

def Coherent (c : Constraint) : Prop :=
  ∀ a ∈ c.subtrees, ∀ b ∈ c.subtrees, a.id = b.id → a = b

/-! ## §1 Distinct nodes -/

/-- The numbers seen so far, and the nodes seen, last first. -/
structure Census where
  seen : Std.HashSet Nat := {}
  nodes : List Constraint := []

mutual
/-- Adds the nodes of a tree that were not seen yet. -/
def census (k : Census) (c : Constraint) : Census :=
  if k.seen.contains c.id then k
  else
    match c with
    | .goal i name f => { seen := k.seen.insert i, nodes := .goal i name f :: k.nodes }
    | .ite i name cond yes no =>
      census
        (census { seen := k.seen.insert i, nodes := .ite i name cond yes no :: k.nodes } yes) no
    | .clause i hyps concls =>
      censusList
        (censusList { seen := k.seen.insert i, nodes := .clause i hyps concls :: k.nodes } hyps)
        concls
    | .subst i body pairs =>
      census { seen := k.seen.insert i, nodes := .subst i body pairs :: k.nodes } body
def censusList (k : Census) (cs : List Constraint) : Census :=
  match cs with
  | [] => k
  | c :: cs => censusList (census k c) cs
end

def nodes (c : Constraint) : List Constraint :=
  (census {} c).nodes

def isCut : Constraint → Bool
  | .goal _ _ f => f == Term.loopCut
  | _ => false

def hasCuts (c : Constraint) : Bool :=
  c.nodes.any isCut

def keepsSorts (c : Constraint) : Bool :=
  c.nodes.all fun
    | .subst _ _ pairs => pairs.keepsSorts
    | _ => true

/-! ## §2 Statistics -/

/-- How many different nodes of each kind a tree has. -/
structure Stats where
  goals : Nat := 0
  ites : Nat := 0
  clauses : Nat := 0
  substs : Nat := 0
deriving DecidableEq, Repr, Inhabited

def Stats.count (s : Stats) : Constraint → Stats
  | .goal _ _ _ => { s with goals := s.goals + 1 }
  | .ite _ _ _ _ _ => { s with ites := s.ites + 1 }
  | .clause _ _ _ => { s with clauses := s.clauses + 1 }
  | .subst _ _ _ => { s with substs := s.substs + 1 }

def stats (c : Constraint) : Stats :=
  c.nodes.foldl Stats.count {}

def Stats.text (s : Stats) : String :=
  s!"Goals: {s.goals} | ITEs: {s.ites} | Clauses: {s.clauses} | Substitutions: {s.substs}"

/-! ## §3 Text

A tree is shown with two blanks a level.  How the condition of a branch is shown is left open. -/

def indent (depth : Nat) : String :=
  String.ofList (List.replicate (2 * depth) ' ')

def pairsText (pairs : Replacement) : String :=
  ", ".intercalate (pairs.map fun (old, new) => old.text ++ " -> " ++ new.text)

mutual
def lines (showCond : Term → String) (depth : Nat) : Constraint → List String
  | .goal _ name f => [indent depth ++ name ++ ": " ++ f.text]
  | .ite _ name cond yes no =>
    (indent depth ++ "ITE " ++ name.inText ++ " (" ++ showCond cond ++ ")")
      :: (lines showCond (depth + 1) yes ++ (indent depth ++ "ELSE") ::
        lines showCond (depth + 1) no)
  | .clause _ hyps concls =>
    (indent depth ++ "CLAUSE")
      :: (linesList showCond (depth + 1) hyps ++ (indent depth ++ "=>") ::
        linesList showCond (depth + 1) concls)
  | .subst _ body pairs =>
    (indent depth ++ "LET [" ++ pairsText pairs ++ "] IN") :: lines showCond (depth + 1) body
def linesList (showCond : Term → String) (depth : Nat) : List Constraint → List String
  | [] => []
  | c :: cs => lines showCond depth c ++ linesList showCond depth cs
end

def text (c : Constraint) : String :=
  "\n".intercalate (c.lines Term.text 0)

end Constraint

end Antecedent
