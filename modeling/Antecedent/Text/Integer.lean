import Antecedent.Text.CharClass

/-!
# Reading integers

An integer is an optional sign and digits, with blanks around it and single underscores between
digits.  Decimal digits of any script are read as those of ASCII.  With a free base the digits may
carry a mark (`0x`, `0o`, `0b`), and a decimal other than zero has no leading zero.

A decimal has a greatest number of digits, leading zeros included.  A row of digits that exceeds it
is told before what follows the row.
-/

namespace Antecedent.Text

inductive IntegerFlaw where
  | malformed
  | tooLong (digits : Nat)
deriving DecidableEq, Repr, Inhabited

def longestDecimal : Nat := 4300

/-- Decimal digits of any script in ASCII; all other characters stay. -/
def asciiDigit (c : Char) : Char :=
  match digitValue? c with
  | some d => Char.ofNat ('0'.toNat + d)
  | none => c

def baseDigit? (c : Char) : Option Nat :=
  if '0' ≤ c ∧ c ≤ '9' then some (c.toNat - '0'.toNat)
  else if 'a' ≤ c ∧ c ≤ 'z' then some (c.toNat - 'a'.toNat + 10)
  else if 'A' ≤ c ∧ c ≤ 'Z' then some (c.toNat - 'A'.toNat + 10)
  else none

/-- A row of digits of a base with single underscores between them, and what follows the row;
`joined` says that a digit came right before. -/
def digitRow (base : Nat) (joined : Bool) : List Char → Option (List Nat × List Char)
  | [] => if joined then some ([], []) else none
  | c :: cs =>
    if c == '_' then
      if joined then digitRow base false cs else none
    else
      match (baseDigit? c).filter (· < base) with
      | some d => (digitRow base true cs).map fun (ds, rest) => (d :: ds, rest)
      | none => if joined then some ([], c :: cs) else none

def rowValue (base : Nat) (ds : List Nat) : Nat :=
  ds.foldl (fun n d => n * base + d) 0

def decimal (cs : List Char) : Except IntegerFlaw Nat :=
  match digitRow 10 false cs with
  | none => .error .malformed
  | some (ds, rest) =>
    if longestDecimal < ds.length then .error (.tooLong ds.length)
    else if rest.isEmpty then .ok (rowValue 10 ds)
    else .error .malformed

/-- The digits after the mark of a base; an underscore may stand right after the mark. -/
def afterMark (base : Nat) (cs : List Char) : Except IntegerFlaw Nat :=
  let digits := if cs.head? == some '_' then cs.drop 1 else cs
  match digitRow base false digits with
  | some (ds, []) => .ok (rowValue base ds)
  | _ => .error .malformed

/-- A number without a sign whose base shows in its mark. -/
def marked (cs : List Char) : Except IntegerFlaw Nat :=
  match cs with
  | '0' :: m :: rest =>
    if m == 'x' || m == 'X' then afterMark 16 rest
    else if m == 'o' || m == 'O' then afterMark 8 rest
    else if m == 'b' || m == 'B' then afterMark 2 rest
    else
      match decimal cs with
      | .ok 0 => .ok 0
      | .ok _ => .error .malformed
      | .error flaw => .error flaw
  | cs => decimal cs

def splitSign : List Char → Bool × List Char
  | '-' :: cs => (true, cs)
  | '+' :: cs => (false, cs)
  | cs => (false, cs)

/-- Reads a sign, and a number after it, between blanks. -/
def signed (read : List Char → Except IntegerFlaw Nat) (s : String) : Except IntegerFlaw Int := do
  let (negative, cs) := splitSign ((trimSpace s.toList).map asciiDigit)
  let n ← read cs
  return if negative then -(n : Int) else (n : Int)

def readDecimal (s : String) : Except IntegerFlaw Int :=
  signed decimal s

def readMarked (s : String) : Except IntegerFlaw Int :=
  signed marked s

end Antecedent.Text
