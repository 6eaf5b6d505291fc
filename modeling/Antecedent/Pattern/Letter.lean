import Antecedent.Pattern.Basic
import Antecedent.Text.Case

/-!
# Tests of one character

What a single character of a pattern accepts, with letter case or without.  Without letter case a
character is brought to its lower case, and so are the members of a class; a class that has no cased
member is tested as it stands.
-/

namespace Antecedent.Pattern

/-! ## §1 Categories -/

def Category.holds (k : Category) (asciiOnly : Bool) (n : Nat) : Bool :=
  (!asciiOnly || n < 128) &&
    let c := Char.ofNat n
    match k with
    | .digit => (Text.digitValue? c).isSome
    | .space => if asciiOnly then (9 ≤ n && n ≤ 13) || n == 32 else Text.isBlank c
    | .word => Text.isWordChar c

def Member.holds (asciiOnly : Bool) (n : Nat) : Member → Bool
  | .code m => m == n
  | .range low high => low ≤ n && n ≤ high
  | .category k negated => k.holds asciiOnly n != negated

/-! ## §2 Letter case -/

inductive Fold where
  | ascii | everyScript
deriving DecidableEq, Repr, Inhabited

/-- How the options ask for letters to be brought to one case. -/
def Flags.fold? (f : Flags) : Option Fold :=
  if !f.ignoreCase then none
  else if f.asciiOnly then some .ascii
  else some .everyScript

namespace Fold

def isAsciiLetter (n : Nat) : Bool :=
  (65 ≤ n && n ≤ 90) || (97 ≤ n && n ≤ 122)

def lower : Fold → Nat → Nat
  | .ascii, n => if 65 ≤ n && n ≤ 90 then n + 32 else n
  | .everyScript, n => Text.lowerCode n

def hasCase : Fold → Nat → Bool
  | .ascii, n => isAsciiLetter n
  | .everyScript, n => Text.hasCase n

def anyHasCase : Fold → Nat → Nat → Bool
  | .ascii, low, high => (low ≤ 90 && 65 ≤ high) || (low ≤ 122 && 97 ≤ high)
  | .everyScript, low, high => Text.anyHasCase low high

/-- The other lower-case letters that count as the same. -/
def shared : Fold → Nat → List Nat
  | .ascii, _ => []
  | .everyScript, n => Text.sharedWith n

def loweredFrom : Fold → Nat → List Nat
  | .ascii, n =>
    if 65 ≤ n && n ≤ 90 then [] else if 97 ≤ n && n ≤ 122 then [n, n - 32] else [n]
  | .everyScript, n => Text.loweredFrom n

end Fold

/-- The greatest code point of two bytes; in classes the case of greater ones is not changed. -/
def twoBytes : Nat := 0xFFFF

/-- Whether a member makes its class depend on letter case. -/
def Member.isCased (φ : Fold) : Member → Bool
  | .code n => twoBytes < n || φ.hasCase n
  | .range low high => twoBytes < high || φ.anyHasCase low high
  | .category _ _ => false

/-- Whether a member holds a code point that is in lower case. -/
def Member.holdsLower (φ : Fold) (asciiOnly : Bool) (n : Nat) : Member → Bool
  | .code m => if twoBytes < m then m == n else (φ.lower m :: φ.shared (φ.lower m)).contains n
  | .range low high =>
    let within (m : Nat) : Bool := low ≤ m && m ≤ high
    ((n :: φ.shared n).any fun m =>
        (φ.loweredFrom m).any fun k => within k && k ≤ twoBytes)
      || (twoBytes < high && (within n || within (Text.upperCode n)))
  | .category k negated => k.holds asciiOnly n != negated

/-! ## §3 Tests -/

/-- Kinds of tests: for one code point, for a class as it stands, for a class without letter case,
and all others. -/
inductive Kind where
  | code (n : Nat)
  | plainClass
  | caselessClass
  | other
deriving DecidableEq, Repr, Inhabited

structure Letter where
  kind : Kind
  holds : Nat → Bool

namespace Letter

def ofCode (f : Flags) (n : Nat) : Letter :=
  let exact : Letter := { kind := .code n, holds := fun m => m == n }
  match f.fold? with
  | none => exact
  | some φ =>
    if φ.hasCase n then
      let low := φ.lower n
      let others := φ.shared low
      { kind := if others.isEmpty then .other else .caselessClass
        holds := fun m => (low :: others).contains (φ.lower m) }
    else exact

def ofOtherThan (f : Flags) (n : Nat) : Letter :=
  let one := ofCode f n
  { kind := if one.kind = .caselessClass then .caselessClass else .other
    holds := fun m => !one.holds m }

def ofClass (f : Flags) (negated : Bool) (members : List Member) : Letter :=
  let plain : Letter := {
    kind := .plainClass
    holds := fun m => members.any (·.holds f.asciiOnly m) != negated }
  match f.fold? with
  | none => plain
  | some φ =>
    if members.any (·.isCased φ) then
      { kind := .caselessClass
        holds := fun m => members.any (·.holdsLower φ f.asciiOnly (φ.lower m)) != negated }
    else plain

/-- Every code point, or every one but a line break. -/
def ofAnything (f : Flags) : Letter where
  kind := .other
  holds m := f.withLineBreak || m != 10

end Letter

def Node.letter? (f : Flags) : Node → Option Letter
  | .code n => some (.ofCode f n)
  | .otherThan n => some (.ofOtherThan f n)
  | .anything => some (.ofAnything f)
  | .oneOf negated members => some (.ofClass f negated members)
  | _ => none

end Antecedent.Pattern
