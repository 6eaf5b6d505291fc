import Antecedent.Decide.Simplify
import Std.Data.HashSet

/-!
# Equal sums and products

Sums and products in a formula that are one polynomial are made one term, so that they agree also
where they are taken apart or stand inside other operations.  They are found by going through the
different subterms, each one after its own subterms.
-/

namespace Antecedent.Term

/-! ## §1 Subterms -/

/-- Subterms seen, and those of interest among them, the latest first. -/
structure Seen where
  all : Std.HashSet Term := {}
  found : List Term := []

mutual
def visit (p : Term → Bool) (t : Term) (seen : Seen) : Seen :=
  if seen.all.contains t then seen
  else
    match t with
    | .app op args =>
      let seen := visitList p args { seen with all := seen.all.insert (.app op args) }
      if p (.app op args) then { seen with found := .app op args :: seen.found } else seen
    | t =>
      { all := seen.all.insert t, found := if p t then t :: seen.found else seen.found }
def visitList (p : Term → Bool) (ts : List Term) (seen : Seen) : Seen :=
  match ts with
  | [] => seen
  | t :: ts => visitList p ts (visit p t seen)
end

/-- The subterms of interest, each once and after those below it. -/
def collect (p : Term → Bool) (ts : List Term) : List Term :=
  (visitList p ts {}).found.reverse

def isConst : Term → Bool
  | .const _ _ => true
  | _ => false

def constants (ts : List Term) : List Term :=
  collect isConst ts

/-! ## §2 Polynomials -/

/-- A sum or product together with what it is multiplied out. -/
structure Expanded where
  term : Term
  width : Nat
  value : Polynomial

def Expanded.same (a b : Expanded) : Bool :=
  a.width == b.width
    && (a.value.addMultiple a.width (Linear.minusOne a.width) b.value).isEmpty

def isSumOrProduct : Term → Bool
  | .app (.arith .add) _ | .app (.arith .sub) _ | .app (.arith .mul) _ | .app .neg _ => true
  | _ => false

/-- What a term is multiplied out, if that has a product of several factors. -/
def expanded? (t : Term) : Option Expanded :=
  match Polynomial.ofTerm? t.widthD [] t with
  | some p => if p.any fun (factors, _) => 2 ≤ factors.length then some ⟨t, t.widthD, p⟩ else none
  | none => none

def mostCompared : Nat := 64

/-- The replacements of terms by the first one with the same polynomial. -/
def mergers : List Expanded → List Expanded → List (Term × Term)
  | _, [] => []
  | firsts, e :: es =>
    match firsts.find? e.same with
    | some first => (e.term, first.term) :: mergers firsts es
    | none => mergers (firsts ++ [e]) es

def merged (t : Term) : Term :=
  let found := (collect isSumOrProduct [t]).filterMap expanded?
  if mostCompared < found.length then t
  else
    match mergers [] found with
    | [] => t
    | pairs => (t.subst pairs).simplify

end Antecedent.Term
