/-!
# Binary64 numbers

Double-precision numbers as exact data: a sign, a mantissa and a power of two.  Rounding, reading
and printing are integer arithmetic, so nothing depends on the machine's floating point.

* `Binary64.ofRatio` rounds a quotient to the nearest number, a tie going to the even mantissa.
* `Binary64.ofDecimal` reads a decimal, `Binary64.shortest` finds the fewest digits that read back.
* `Binary64.toText` writes those digits; `Binary64.toFixed` writes a fixed number of places.
-/

namespace Antecedent

/-- A double-precision number.  A finite one is `± mantissa * 2 ^ exponent`, kept in the one form
with `mantissa < 2 ^ 53`, `-1074 ≤ exponent`, and `2 ^ 52 ≤ mantissa` unless the exponent is
least. -/
inductive Binary64 where
  | nan
  | infinity (negative : Bool)
  | finite (negative : Bool) (mantissa : Nat) (exponent : Int)
deriving DecidableEq, Hashable, Repr, Inhabited

namespace Binary64

/-! ## §1 Rounding -/

/-- The quotient rounded to the nearest natural number, a tie going to the even neighbour. -/
def roundDiv (num den : Nat) : Nat :=
  let q := num / den
  let r := num % den
  if 2 * r < den then q
  else if den < 2 * r then q + 1
  else if q % 2 = 0 then q else q + 1

/-- The power of two `k` with `2 ^ k ≤ num / den < 2 ^ (k + 1)`, for positive arguments. -/
def log2Ratio (num den : Nat) : Int :=
  let k : Int := (num.log2 : Int) - (den.log2 : Int)
  let below := if 0 ≤ k then num < den * Nat.pow 2 k.toNat else num * Nat.pow 2 (-k).toNat < den
  if below then k - 1 else k

/-- The number nearest to `num / den`, a tie going to the even mantissa; too large a quotient is
infinite, and a zero denominator is read as an infinite quotient. -/
def ofRatio (negative : Bool) (num den : Nat) : Binary64 :=
  if num = 0 then .finite negative 0 (-1074)
  else if den = 0 then .infinity negative
  else
    let e := max (log2Ratio num den - 52) (-1074)
    let m :=
      if 0 ≤ e then roundDiv num (den * Nat.pow 2 e.toNat)
      else roundDiv (num * Nat.pow 2 (-e).toNat) den
    let (m, e) := if m = 0x20000000000000 then (0x10000000000000, e + 1) else (m, e)
    if 971 < e then .infinity negative else .finite negative m e

/-- The number nearest to `digits * 10 ^ exponent`.  Exponents far outside the range are answered
without forming the power. -/
def ofDecimal (negative : Bool) (digits : Nat) (exponent : Int) : Binary64 :=
  let magnitude : Int := (Nat.toDigits 10 digits).length + exponent
  if digits = 0 then .finite negative 0 (-1074)
  else if 400 < magnitude then .infinity negative
  else if magnitude < -400 then .finite negative 0 (-1074)
  else if 0 ≤ exponent then ofRatio negative (digits * Nat.pow 10 exponent.toNat) 1
  else ofRatio negative digits (Nat.pow 10 (-exponent).toNat)

def ofInt (n : Int) : Binary64 :=
  ofRatio (n < 0) n.natAbs 1

/-- The largest natural number whose square is at most `n`, by bisection on `bits` binary places. -/
def sqrtFloor (n : Nat) : Nat :=
  go (n.log2 / 2 + 1) 0
where
  go : Nat → Nat → Nat
    | 0, root => root
    | bits + 1, root =>
      let next := root + Nat.pow 2 bits
      go bits (if next * next ≤ n then next else root)

/-- The number nearest to the square root of `num / den`.  The root is taken with 64 extra places
and its last place is made odd when it is inexact, so that rounding it again is right. -/
def sqrtRatio (num den : Nat) : Binary64 :=
  let places := den.log2 + 64
  let scaled := num * Nat.pow 4 places / den
  let root := sqrtFloor scaled
  let exact := root * root * den = num * Nat.pow 4 places
  let root := if exact then root else if root % 2 = 0 then root + 1 else root
  ofRatio false root (Nat.pow 2 places)

/-! ## §2 Exact views -/

/-- The magnitude as a quotient of natural numbers; infinite and undefined numbers give `none`. -/
def magnitude? : Binary64 → Option (Nat × Nat)
  | .finite _ m e => some (if 0 ≤ e then (m * Nat.pow 2 e.toNat, 1) else (m, Nat.pow 2 (-e).toNat))
  | _ => none

/-- Whether the sign is minus (also for a minus zero). -/
def isNegative : Binary64 → Bool
  | .nan => false
  | .infinity s => s
  | .finite s _ _ => s

/-- The integer part, toward zero. -/
def truncate? (x : Binary64) : Option Int :=
  x.magnitude?.map fun (num, den) =>
    if x.isNegative then -((num / den : Nat) : Int) else ((num / den : Nat) : Int)

def toInt? (x : Binary64) : Option Int :=
  match x.magnitude? with
  | some (num, den) => if num % den = 0 then x.truncate? else none
  | none => none

/-! ## §3 Printing -/

/-- The power of ten `k` with `10 ^ k ≤ num / den < 10 ^ (k + 1)`, for positive arguments. -/
def log10Ratio (num den : Nat) : Int :=
  let guess : Int :=
    ((Nat.toDigits 10 num).length : Int) - ((Nat.toDigits 10 den).length : Int)
  let below :=
    if 0 ≤ guess then num < den * Nat.pow 10 guess.toNat
    else num * Nat.pow 10 (-guess).toNat < den
  if below then guess - 1 else guess

/-- The shortest decimal `digits * 10 ^ exponent` that reads back as the magnitude: the first grid
of one to seventeen digits on which a neighbour of the value reads back, and of two neighbours the
nearer one, a tie going to the even digit. -/
def shortest (mantissa : Nat) (exponent : Int) : Nat × Int :=
  let (num, den) :=
    if 0 ≤ exponent then (mantissa * Nat.pow 2 exponent.toNat, 1)
    else (mantissa, Nat.pow 2 (-exponent).toNat)
  let value := Binary64.finite false mantissa exponent
  let top := log10Ratio num den
  let rec search : Nat → Nat → Nat × Int
    | 0, _ => (0, 0)
    | more + 1, places =>
      let unit := top - places
      let (n, d) :=
        if 0 ≤ unit then (num, den * Nat.pow 10 unit.toNat)
        else (num * Nat.pow 10 (-unit).toNat, den)
      let low := n / d
      let lowHit := ofDecimal false low unit = value
      let highHit := ofDecimal false (low + 1) unit = value
      let lowNearer := 2 * (n % d) < d || (2 * (n % d) = d && low % 2 = 0)
      if lowHit && (!highHit || lowNearer) then (low, unit)
      else if highHit then (low + 1, unit)
      else search more (places + 1)
  if mantissa = 0 then (0, 0) else search 17 0

def dropZeros : Nat → Nat → Int → Nat × Int
  | 0, digits, exponent => (digits, exponent)
  | fuel + 1, digits, exponent =>
    if digits ≠ 0 ∧ digits % 10 = 0 then dropZeros fuel (digits / 10) (exponent + 1)
    else (digits, exponent)

/-- Shortest text of a number: positional from `0.0001` up to sixteen digits before the point, with
`.0` on a whole number; otherwise an exponent with a sign and at least two digits. -/
def toText : Binary64 → String
  | .nan => "NaN"
  | .infinity s => if s then "-Infinity" else "Infinity"
  | .finite s m e =>
    let (digits, exponent) := shortest m e
    let (digits, exponent) := dropZeros 20 digits exponent
    let text := (Nat.toDigits 10 digits)
    let point : Int := if digits = 0 then 1 else text.length + exponent
    let body :=
      if digits = 0 then "0.0"
      else if 16 < point ∨ point < -3 then
        let power := point - 1
        let tail := text.drop 1
        let shown := (Nat.toDigits 10 power.natAbs)
        let shown := if shown.length < 2 then '0' :: shown else shown
        String.ofList (text.take 1 ++ (if tail.isEmpty then [] else '.' :: tail)
          ++ ['e', if power < 0 then '-' else '+'] ++ shown)
      else if point ≤ 0 then
        "0." ++ String.ofList (List.replicate (-point).toNat '0' ++ text)
      else if (text.length : Int) ≤ point then
        String.ofList (text ++ List.replicate (point.toNat - text.length) '0') ++ ".0"
      else
        String.ofList (text.take point.toNat ++ '.' :: text.drop point.toNat)
    if s then "-" ++ body else body

/-- Text with a fixed number of places after the point, the exact value rounded to the nearest and a
tie to the even last place. -/
def toFixed (places : Nat) (x : Binary64) : String :=
  match x.magnitude? with
  | none => x.toText
  | some (num, den) =>
    let scaled := roundDiv (num * Nat.pow 10 places) den
    let text := Nat.toDigits 10 scaled
    let text := List.replicate (places + 1 - text.length) '0' ++ text
    let whole := text.take (text.length - places)
    let rest := text.drop (text.length - places)
    (if x.isNegative then "-" else "") ++ String.ofList whole
      ++ (if places = 0 then "" else "." ++ String.ofList rest)

end Binary64

end Antecedent
