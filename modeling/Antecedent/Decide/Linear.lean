import Antecedent.Decide.Part

/-!
# Linear forms

A bit vector as a sum of multiples of other bit vectors and a number, modulo the power of two of its
width.  Sums that differ only in the order of their parts have one form, and differences of
addresses with a common base become numbers.
-/

namespace Antecedent.Term

/-- A sum of multiples and a number; every coefficient is reduced and not zero. -/
structure Linear where
  width : Nat
  number : Nat := 0
  parts : List (Term × Nat) := []

namespace Linear

def addPart (width : Nat) (t : Term) (coefficient : Nat) : List (Term × Nat) → List (Term × Nat)
  | [] => if coefficient % Nat.pow 2 width = 0 then [] else [(t, coefficient % Nat.pow 2 width)]
  | (u, c) :: rest =>
    if u == t then
      let sum := (c + coefficient) % Nat.pow 2 width
      if sum = 0 then rest else (u, sum) :: rest
    else (u, c) :: addPart width t coefficient rest

def addMultiple (a : Linear) (k : Nat) (b : Linear) : Linear where
  width := a.width
  number := (a.number + k * b.number) % Nat.pow 2 a.width
  parts := b.parts.foldl (fun ps (t, c) => addPart a.width t (k * c) ps) a.parts

def minusOne (width : Nat) : Nat :=
  Nat.pow 2 width - 1

def sub (a b : Linear) : Linear :=
  a.addMultiple (minusOne a.width) b

def ofNumber (width n : Nat) : Linear :=
  { width, number := n % Nat.pow 2 width }

def ofAtom (width : Nat) (t : Term) : Linear :=
  { width, parts := addPart width t 1 [] }

mutual
def ofTerm (width : Nat) : Term → Linear
  | .num _ n => ofNumber width n
  | .app op args =>
    match op, args with
    | .arith .add, args => sum width args
    | .arith .sub, [a, b] => (ofTerm width a).sub (ofTerm width b)
    | .neg, [a] => (ofNumber width 0).sub (ofTerm width a)
    | .complement, [a] => (ofNumber width (minusOne width)).sub (ofTerm width a)
    | .arith .mul, [.num _ k, a] => (ofNumber width 0).addMultiple k (ofTerm width a)
    | .arith .shl, [a, .num _ k] =>
      if k < width then (ofNumber width 0).addMultiple (Nat.pow 2 k) (ofTerm width a)
      else ofNumber width 0
    | op, args => ofAtom width (.app op args)
  | t => ofAtom width t
def sum (width : Nat) : List Term → Linear
  | [] => ofNumber width 0
  | t :: ts => (ofTerm width t).addMultiple 1 (sum width ts)
end

def sorted (a : Linear) : List (Term × Nat) :=
  a.parts.mergeSort fun p q => decide (p.1.rank ≤ q.1.rank)

/-- Whether a coefficient is closer to zero from below. -/
def isNegative (width coefficient : Nat) : Bool :=
  Nat.pow 2 (width - 1) < coefficient

def multiple (width : Nat) (t : Term) (coefficient : Nat) : Term :=
  if coefficient = 1 then t else .app (.arith .mul) [.num width coefficient, t]

def sumTerm (width : Nat) : List Term → Term
  | [] => .num width 0
  | [t] => t
  | ts => .app (.arith .add) ts

/-- The summands of parts, those to be added and those to be taken away. -/
def summands (width : Nat) (parts : List (Term × Nat)) : List Term × List Term :=
  let (minus, plus) := parts.partition fun p => isNegative width p.2
  (plus.map fun (t, c) => multiple width t c,
    minus.map fun (t, c) => multiple width t (Nat.pow 2 width - c))

def toTerm (a : Linear) : Term :=
  let (plus, minus) := summands a.width a.sorted
  let plus := if a.number = 0 then plus else plus ++ [.num a.width a.number]
  match plus, minus with
  | plus, [] => sumTerm a.width plus
  | [], minus => .app .neg [sumTerm a.width minus]
  | plus, minus => .app (.arith .sub) [sumTerm a.width plus, sumTerm a.width minus]

def negate (a : Linear) : Linear :=
  (ofNumber a.width 0).sub a

/-! ## §1 Odd factors -/

/-- The inverse of an odd number modulo a power of two.  The number is its own inverse modulo eight,
and every step doubles the number of right bits. -/
def inverse (width k : Nat) : Nat :=
  (List.range (width.log2 + 1)).foldl
    (fun x _ => x * (Nat.pow 2 width + 2 - x * k % Nat.pow 2 width) % Nat.pow 2 width)
    (k % Nat.pow 2 width)

/-- The greatest odd number that divides all coefficients, taken without sign. -/
def oddFactor (a : Linear) : Nat :=
  let common := a.parts.foldl
    (fun g (_, c) => g.gcd (if isNegative a.width c then Nat.pow 2 a.width - c else c)) 0
  common / common.gcd (Nat.pow 2 a.width)

def withoutOddFactor (a : Linear) : Linear :=
  let k := a.oddFactor
  if k ≤ 1 then a else (ofNumber a.width 0).addMultiple (inverse a.width k) a

end Linear

end Antecedent.Term
