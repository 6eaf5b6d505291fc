import Antecedent.Term.Build

/-!
# Parts of bit vectors

A bit vector is a row of pieces, the highest first.  Neighbouring pieces of one term are joined, so
that a word that was taken apart and put together again is that word.
-/

namespace Antecedent.Term

/-- The width of a bit vector, zero for others. -/
def widthD (t : Term) : Nat :=
  t.width?.getD 0

/-- A part of a bit vector that is no concatenation. -/
def mkPart (hi lo : Nat) (t : Term) : Term :=
  match t with
  | .num _ n => .num (hi - lo + 1) (n / Nat.pow 2 lo % Nat.pow 2 (hi - lo + 1))
  | .app (.extract _ l) [u] => .app (.extract (hi + l) (lo + l)) [u]
  | t => if lo = 0 ∧ hi + 1 = t.widthD then t else .app (.extract hi lo) [t]

def pieces : Term → List Term
  | .app .concat ts => ts
  | t => [t]

/-- Joins a piece with the one below it where both are numerals or neighbouring parts of one
term. -/
def joinPieces (high low : Term) : Option Term :=
  match high, low with
  | .num v m, .num w n => some (.num (v + w) (m * Nat.pow 2 w + n))
  | .app (.extract h l) [t], .app (.extract h' l') [u] =>
    if t == u && l == h' + 1 then some (mkPart h l' t) else none
  | _, _ => none

def consPiece (t : Term) : List Term → List Term
  | [] => [t]
  | u :: us =>
    match joinPieces t u with
    | some v => v :: us
    | none => t :: u :: us

def mkConcat (ts : List Term) : Term :=
  match (ts.flatMap pieces).foldr consPiece [] with
  | [t] => t
  | ts => .app .concat ts

/-- The pieces of a part of a concatenation, given the pieces lowest first and the place of the
first of them. -/
def partPieces (hi lo : Nat) : Nat → List Term → List Term
  | _, [] => []
  | start, t :: ts =>
    let w := t.widthD
    let rest := partPieces hi lo (start + w) ts
    if start + w ≤ lo ∨ hi < start then rest
    else mkPart (min hi (start + w - 1) - start) (max lo start - start) t :: rest

/-- A part of a bit vector, taken from the pieces of a concatenation. -/
def partOf (hi lo : Nat) (t : Term) : Term :=
  match t with
  | .app .concat ts => mkConcat (partPieces hi lo 0 ts.reverse).reverse
  | t => mkPart hi lo t

def mkZeroExtend (k : Nat) (t : Term) : Term :=
  if k = 0 then t else mkConcat [.num k 0, t]

def lowest (width : Nat) (t : Term) : Term :=
  if width < t.widthD then partOf (width - 1) 0 t else t

/-- A fixed place of a bit vector among others; parts and extensions of a term are placed as the
term itself. -/
def rank : Term → UInt64
  | .app (.extract _ _) [t] | .app .concat [.num _ _, t] | .app (.signExtend _) [t] => t.rank
  | t => t.hashCode

end Antecedent.Term
