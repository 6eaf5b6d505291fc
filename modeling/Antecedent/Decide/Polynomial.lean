import Antecedent.Decide.Linear

/-!
# Polynomials

A bit vector as a sum of multiples of products, modulo the power of two of its width.  Products of
sums are multiplied out, so that terms that differ only by distribution have one form.  A remainder
is the dividend without its quotient times the divisor.  The lowest bits of a sum or product are
found from the lowest bits of its parts.  Where a choice stands among the factors, both ways are
compared.
-/

namespace Antecedent.Term

/-- A sum of multiples of products; the factors of a product have a fixed order. -/
abbrev Polynomial := List (List Term × Nat)

namespace Polynomial

/-- Adds a multiple of a product; multiples of zero are dropped. -/
def addProduct (width : Nat) (factors : List Term) (coefficient : Nat) : Polynomial → Polynomial
  | [] =>
    if coefficient % Nat.pow 2 width = 0 then [] else [(factors, coefficient % Nat.pow 2 width)]
  | (other, c) :: rest =>
    if other == factors then
      let sum := (c + coefficient) % Nat.pow 2 width
      if sum = 0 then rest else (other, sum) :: rest
    else (other, c) :: addProduct width factors coefficient rest

def addMultiple (width : Nat) (a : Polynomial) (k : Nat) (b : Polynomial) : Polynomial :=
  b.foldl (fun sum (factors, c) => addProduct width factors (k * c) sum) a

def ofNumber (width n : Nat) : Polynomial :=
  addProduct width [] n []

def joinFactors (a b : List Term) : List Term :=
  (a ++ b).mergeSort fun s t => decide (s.rank ≤ t.rank)

def mostProducts : Nat := 256

/-- The product of two polynomials, unless it may become too long. -/
def times? (width : Nat) (a b : Polynomial) : Option Polynomial :=
  if mostProducts < a.length * b.length then none
  else
    some (a.foldl
      (fun sum (factors, c) =>
        b.foldl (fun sum (more, d) => addProduct width (joinFactors factors more) (c * d) sum) sum)
      [])

def sumOf (width : Nat) : List Polynomial → Polynomial
  | [] => []
  | a :: rest => addMultiple width a 1 (sumOf width rest)

/-- The product of polynomials, unless it may become too long. -/
def productOf? (width : Nat) : List Polynomial → Option Polynomial
  | [] => some (ofNumber width 1)
  | a :: rest => do times? width a (← productOf? width rest)

def ofAtom (width : Nat) (t : Term) : Polynomial :=
  match t.lowest width with
  | .num _ n => ofNumber width n
  | t => [([t], 1)]

mutual
/-- The polynomial of the lowest bits of a bit vector in which some conditions are taken as true and
others as false. -/
def ofTerm? (width : Nat) (known : List (Term × Bool)) : Term → Option Polynomial
  | .num _ n => some (ofNumber width n)
  | .app op args =>
    match op, args with
    | .arith .add, args => do return sumOf width (← ofTerms? width known args)
    | .arith .sub, [a, b] => do
      return addMultiple width (← ofTerm? width known a) (Linear.minusOne width)
        (← ofTerm? width known b)
    | .neg, [a] => do
      return addMultiple width [] (Linear.minusOne width) (← ofTerm? width known a)
    | .complement, [a] => do
      return addMultiple width (ofNumber width (Linear.minusOne width)) (Linear.minusOne width)
        (← ofTerm? width known a)
    | .arith .mul, args => do productOf? width (← ofTerms? width known args)
    | .arith .shl, [a, .num _ k] => do
      return addMultiple width [] (if k < width then Nat.pow 2 k else 0) (← ofTerm? width known a)
    | .arith .urem, [a, b] => do
      let quotient := ofAtom width (.app (.arith .udiv) [a, b])
      return addMultiple width (← ofTerm? width known a) (Linear.minusOne width)
        (← times? width quotient (← ofTerm? width known b))
    | .arith .srem, [a, b] => do
      let quotient := ofAtom width (.app (.arith .sdiv) [a, b])
      return addMultiple width (← ofTerm? width known a) (Linear.minusOne width)
        (← times? width quotient (← ofTerm? width known b))
    | .extract _ 0, [a] => ofTerm? width known a
    | .ite, [c, a, b] =>
      match known.lookup c with
      | some true => ofTerm? width known a
      | some false => ofTerm? width known b
      | none => some (ofAtom width (.app .ite [c, a, b]))
    | op, args => some (ofAtom width (.app op args))
  | t => some (ofAtom width t)
def ofTerms? (width : Nat) (known : List (Term × Bool)) : List Term → Option (List Polynomial)
  | [] => some []
  | t :: ts => do return (← ofTerm? width known t) :: (← ofTerms? width known ts)
end

def condition? (p : Polynomial) : Option Term :=
  p.findSome? fun (factors, _) => factors.findSome? fun
    | .app .ite [c, _, _] | .app (.extract _ 0) [.app .ite [c, _, _]] => some c
    | _ => none

/-- Whether two bit vectors have the same polynomial whichever way choices go; the bound is on the
number of choices. -/
def agree (width : Nat) (s t : Term) : Nat → List (Term × Bool) → Bool
  | bound, known =>
    match ofTerm? width known s, ofTerm? width known t with
    | some a, some b =>
      let difference := addMultiple width a (Linear.minusOne width) b
      if difference.isEmpty then true
      else
        match condition? difference, bound with
        | some c, bound + 1 =>
          agree width s t bound ((c, true) :: known) && agree width s t bound ((c, false) :: known)
        | _, _ => false
    | _, _ => false

end Polynomial

/-- Whether a polynomial may tell more about a bit vector than that it is a part of a linear
form. -/
def isMultipliedOut : Term → Bool
  | .app (.arith .mul) _ | .app (.arith .urem) _ | .app (.arith .srem) _ => true
  | .app (.extract _ 0) [.app (.arith f) _] =>
    match f with
    | .add | .sub | .mul | .urem | .srem => true
    | _ => false
  | .app (.extract _ 0) [.app .neg _] => true
  | _ => false

/-- Whether two bit vectors agree when their products are multiplied out; without products and the
like the linear forms tell. -/
def agreeMultipliedOut (width : Nat) (s t : Term) : Bool :=
  ((Linear.ofTerm width s).sub (Linear.ofTerm width t)).parts.any (fun p => isMultipliedOut p.1)
    && Polynomial.agree width s t 4 []

end Antecedent.Term
