import Antecedent.Decide.Circuit

/-!
# Words of wires

Bit vectors as lists of wires, the lowest bit first, and arithmetic on them.
-/

namespace Antecedent.Decide

/-- A bit vector of wires, the lowest bit first. -/
abbrev Word := List Wire

namespace Word

open Wiring

def ofNat (width n : Nat) : Word :=
  (List.range width).map fun i => Wire.ofBool (n.testBit i)

def not (a : Word) : Word :=
  a.map Wire.not

def zip (f : Wire → Wire → Wiring Wire) : Word → Word → Wiring Word
  | a :: as, b :: bs => do
    let r ← f a b
    return r :: (← zip f as bs)
  | _, _ => return []

def addCarry : Word → Word → Wire → Wiring Word
  | a :: as, b :: bs, c => do
    let s ← xor (← xor a b) c
    let carry ← maj a b c
    return s :: (← addCarry as bs carry)
  | _, _, _ => return []

def add (a b : Word) : Wiring Word :=
  addCarry a b Wire.off

def sub (a b : Word) : Wiring Word :=
  addCarry a (not b) Wire.on

def neg (a : Word) : Wiring Word :=
  sub (ofNat a.length 0) a

def mux (c : Wire) (a b : Word) : Wiring Word :=
  zip (Wiring.mux c) a b

def eq (a b : Word) : Wiring Wire := do
  all (← zip iff a b)

/-- Whether a word is below another one, given the answer for the lower bits. -/
def ltFrom : Word → Word → Wire → Wiring Wire
  | a :: as, b :: bs, lt => do ltFrom as bs (← maj (Wire.not a) b lt)
  | _, _, lt => return lt

def ult (a b : Word) : Wiring Wire :=
  ltFrom a b Wire.off

def flipSign (a : Word) : Word :=
  match a.reverse with
  | s :: rest => (Wire.not s :: rest).reverse
  | [] => []

def slt (a b : Word) : Wiring Wire :=
  ult (flipSign a) (flipSign b)

def sign (a : Word) : Wire :=
  a.getLastD Wire.off

def mul : Word → Word → Wiring Word
  | a, b :: bs => do
    let row ← a.mapM (Wiring.and b)
    let rest ← mul a.dropLast bs
    add row ((Wire.off :: rest).take a.length)
  | _, [] => return []

/-- Quotient, highest bit first, and remainder; the bits of the dividend come highest first, and the
remainder so far is given. -/
def divideFrom (divisor : Word) : List Wire → Word → Wiring (List Wire × Word)
  | [], r => return ([], r)
  | bit :: bits, r => do
    let doubled := bit :: r
    let wide := divisor ++ [Wire.off]
    let fits := Wire.not (← ult doubled wide)
    let r ← mux fits (← sub doubled wide) doubled
    let (q, r) ← divideFrom divisor bits (r.take divisor.length)
    return (fits :: q, r)

/-- Quotient and remainder without sign; division by zero gives all ones and the dividend. -/
def divide (a b : Word) : Wiring (Word × Word) := do
  let (q, r) ← divideFrom b a.reverse (ofNat b.length 0)
  return (q.reverse, r)

def abs (a : Word) : Wiring Word := do
  mux (sign a) (← neg a) a

def sdiv (a b : Word) : Wiring Word := do
  let (q, _) ← divide (← abs a) (← abs b)
  mux (← xor (sign a) (sign b)) (← neg q) q

def srem (a b : Word) : Wiring Word := do
  let (_, r) ← divide (← abs a) (← abs b)
  mux (sign a) (← neg r) r

def up (fill : Wire) (n : Nat) (a : Word) : Word :=
  (List.replicate n fill ++ a).take a.length

def down (fill : Wire) (n : Nat) (a : Word) : Word :=
  (a ++ List.replicate (min n a.length) fill).drop (min n a.length)

/-- Moves a word by an amount given in bits from the lowest on: `move` makes a move by a number.  A
bit that stands for the length of the word or more leaves only the fill. -/
def shiftBy (move : Nat → Word → Word) (fill : Wire) : Nat → List Wire → Word → Wiring Word
  | _, [], a => return a
  | place, b :: bs, a => do
    if a.length ≤ Nat.pow 2 place then mux (← any (b :: bs)) (a.map fun _ => fill) a
    else shiftBy move fill (place + 1) bs (← mux b (move (Nat.pow 2 place) a) a)

def shl (a amount : Word) : Wiring Word :=
  shiftBy (up Wire.off) Wire.off 0 amount a

def shr (fill : Wire) (a amount : Word) : Wiring Word :=
  shiftBy (down fill) fill 0 amount a

end Word

end Antecedent.Decide
