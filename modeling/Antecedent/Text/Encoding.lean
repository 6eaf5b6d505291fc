/-!
# Text from bytes

Bytes of a document are text in UTF-8, UTF-16 or UTF-32.  A mark at the start says which; without
one the places of zero bytes among the first four decide, since a document starts with ASCII.

A code that stands for no character, such as half of a surrogate pair, becomes the replacement
character.
-/

namespace Antecedent.Text

inductive UnitOrder where
  | highFirst | lowFirst
deriving DecidableEq, Repr, Inhabited

inductive Encoding where
  | utf8
  | utf16 (order : UnitOrder)
  | utf32 (order : UnitOrder)
deriving DecidableEq, Repr, Inhabited

/-- The form that bytes start in, with the number of bytes of the mark that says so. -/
def detectEncoding : List UInt8 → Encoding × Nat
  | 0x00 :: 0x00 :: 0xFE :: 0xFF :: _ => (.utf32 .highFirst, 4)
  | 0xFF :: 0xFE :: 0x00 :: 0x00 :: _ => (.utf32 .lowFirst, 4)
  | 0xFE :: 0xFF :: _ => (.utf16 .highFirst, 2)
  | 0xFF :: 0xFE :: _ => (.utf16 .lowFirst, 2)
  | 0xEF :: 0xBB :: 0xBF :: _ => (.utf8, 3)
  | 0x00 :: b :: _ :: _ :: _ => (if b = 0 then .utf32 .highFirst else .utf16 .highFirst, 0)
  | _ :: 0x00 :: c :: d :: _ => (if c = 0 ∧ d = 0 then .utf32 .lowFirst else .utf16 .lowFirst, 0)
  | [0x00, _] => (.utf16 .highFirst, 0)
  | [_, 0x00] => (.utf16 .lowFirst, 0)
  | _ => (.utf8, 0)

def unitValue (order : UnitOrder) (bytes : List UInt8) : Nat :=
  (if order = .highFirst then bytes else bytes.reverse).foldl (fun n b => 256 * n + b.toNat) 0

def units16? (order : UnitOrder) : List UInt8 → Option (List Nat)
  | [] => some []
  | a :: b :: rest => (units16? order rest).map (unitValue order [a, b] :: ·)
  | _ => none

def units32? (order : UnitOrder) : List UInt8 → Option (List Nat)
  | [] => some []
  | a :: b :: c :: d :: rest => (units32? order rest).map (unitValue order [a, b, c, d] :: ·)
  | _ => none

def charOfCode (n : Nat) : Char :=
  if n.isValidChar then Char.ofNat n else '�'

/-- The characters of units of sixteen bits: two surrogates in a row stand for one character. -/
def charsOfUnits : List Nat → List Char
  | [] => []
  | u :: v :: rest =>
    if 0xD800 ≤ u ∧ u < 0xDC00 ∧ 0xDC00 ≤ v ∧ v < 0xE000 then
      charOfCode (0x10000 + (u - 0xD800) * 0x400 + (v - 0xDC00)) :: charsOfUnits rest
    else charOfCode u :: charsOfUnits (v :: rest)
  | [u] => [charOfCode u]

/-- Puts the replacement character in the place of every surrogate among bytes of UTF-8. -/
def replaceSurrogates : List UInt8 → List UInt8
  | 0xED :: b :: c :: rest =>
    if 0xA0 ≤ b ∧ b < 0xC0 ∧ 0x80 ≤ c ∧ c < 0xC0 then
      0xEF :: 0xBF :: 0xBD :: replaceSurrogates rest
    else 0xED :: replaceSurrogates (b :: c :: rest)
  | b :: rest => b :: replaceSurrogates rest
  | [] => []

/-- The text of bytes, if they have the form that they start in. -/
def decode? (bytes : ByteArray) : Option String :=
  let (encoding, mark) := detectEncoding bytes.toList
  let rest := bytes.toList.drop mark
  match encoding with
  | .utf8 =>
    (String.fromUTF8? ⟨rest.toArray⟩).or (String.fromUTF8? ⟨(replaceSurrogates rest).toArray⟩)
  | .utf16 order => (units16? order rest).map fun us => String.ofList (charsOfUnits us)
  | .utf32 order =>
    match units32? order rest with
    | some us =>
      if us.all (· < 0x110000) then some (String.ofList (us.map charOfCode)) else none
    | none => none

end Antecedent.Text
