import Antecedent.Text.CharName.Table

/-!
# Looking up characters by name

Most names stand in tables, in which letter case does not matter.  Some end with the code point in
hexadecimal digits, and those of Hangul syllables are put together from their sounds.
-/

namespace Antecedent.Text.CharName

def dropStem? : List Char → List Char → Option (List Char)
  | [], cs => some cs
  | p :: ps, c :: cs => if p == c then dropStem? ps cs else none
  | _ :: _, [] => none

/-! ## §1 Names that end with a code point -/

/-- The code point that upper-case hexadecimal digits write, in four digits or five. -/
def hexCode? (cs : List Char) : Option Nat := do
  if cs.length != 4 && cs.length != 5 then none
  cs.foldlM
    (fun n c =>
      if '0' ≤ c && c ≤ '9' then some (16 * n + (c.toNat - '0'.toNat))
      else if 'A' ≤ c && c ≤ 'F' then some (16 * n + (c.toNat - 'A'.toNat + 10))
      else none)
    0

def ideographs : List (Nat × Nat) :=
  [(0x3400, 0x4DBF), (0x4E00, 0x9FFF), (0x20000, 0x2A6DF), (0x2A700, 0x2B738),
    (0x2B740, 0x2B81D), (0x2B820, 0x2CEA1), (0x2CEB0, 0x2EBE0), (0x30000, 0x3134A)]

/-- Characters whose names end with their code points, with the start of the names. -/
def numbered : List (String × Nat × Nat) :=
  [("CJK COMPATIBILITY IDEOGRAPH-", 0xF900, 0xFA6D),
    ("CJK COMPATIBILITY IDEOGRAPH-", 0xFA70, 0xFAD9),
    ("CJK COMPATIBILITY IDEOGRAPH-", 0x2F800, 0x2FA1D),
    ("KHITAN SMALL SCRIPT CHARACTER-", 0x18B00, 0x18CD5),
    ("NUSHU CHARACTER-", 0x1B170, 0x1B2FB)]

/-- The code point of a name that ends with it; code points have no leading zeros beyond four
digits. -/
def numberedCode? (name : List Char) : Option Nat :=
  numbered.findSome? fun (stem, low, high) => do
    let digits ← dropStem? stem.toList name
    let n ← hexCode? digits
    if low ≤ n && n ≤ high && digits.length == (if n < 0x10000 then 4 else 5) then some n else none

/-! ## §2 Hangul syllables -/

def initials : List String :=
  ["G", "GG", "N", "D", "DD", "R", "M", "B", "BB", "S", "SS", "", "J", "JJ", "C", "K", "T", "P",
    "H"]

def vowels : List String :=
  ["A", "AE", "YA", "YAE", "EO", "E", "YEO", "YE", "O", "WA", "WAE", "OE", "YO", "U", "WEO", "WE",
    "WI", "YU", "EU", "YI", "I"]

def finals : List String :=
  ["", "G", "GG", "GS", "N", "NJ", "NH", "D", "L", "LG", "LM", "LB", "LS", "LT", "LP", "LH", "M",
    "B", "BS", "S", "SS", "NG", "J", "C", "K", "T", "P", "H"]

/-- The longest of some sounds that characters start with: its index and what follows it. -/
def longestSound? (sounds : List String) (cs : List Char) : Option (Nat × List Char) :=
  sounds.zipIdx.foldl
    (fun best (sound, i) =>
      match dropStem? sound.toList cs, best with
      | some rest, some (_, shortest) =>
        if rest.length < shortest.length then some (i, rest) else best
      | some rest, none => some (i, rest)
      | none, _ => best)
    none

/-- The code point of a syllable that is written by its sounds. -/
def syllable? (cs : List Char) : Option Nat := do
  let (first, cs) ← longestSound? initials cs
  let (vowel, cs) ← longestSound? vowels cs
  let (final, cs) ← longestSound? finals cs
  if cs.isEmpty then some (0xAC00 + (first * 21 + vowel) * 28 + final) else none

/-! ## §3 All names -/

/-- The names of a list. -/
def listed (names : String) : List String :=
  (names.map fun c => if c == '\n' then ',' else c).splitOn ","

def Alphabet.code? (a : Alphabet) (name : String) : Option Nat :=
  let names := listed a.names
  ((names.map (a.script ++ " CAPITAL LETTER " ++ ·)).idxOf? name).map (a.capitals + a.step * ·) <|>
    ((names.map (a.script ++ " SMALL LETTER " ++ ·)).idxOf? name).map (a.smalls + a.step * ·)

def Row.code? (r : Row) (name : String) : Option Nat :=
  (((listed r.ends).map (r.stem ++ ·)).idxOf? name).map (r.first + ·)

/-- The short names of variation selectors, which have numbers. -/
def selectors : List (String × Nat) :=
  (List.range 16).map (fun i => ("VS" ++ toString (i + 1), 0xFE00 + i)) ++
    (List.range 240).map fun i => ("VS" ++ toString (i + 17), 0xE0100 + i)

def tableCode? (name : List Char) : Option Nat :=
  let text := String.ofList name
  (alphabets.findSome? (·.code? text)).or <| ((rows ++ furtherRows).findSome? (·.code? text)).or <|
    (numberedCode? name).or <| (selectors.find? fun (a, _) => a == text).map (·.2)

/-- The code point of a name.  Letter case matters for syllables and ideographs only. -/
def code? (name : String) : Option Nat :=
  let cs := name.toList
  match dropStem? "HANGUL SYLLABLE ".toList cs, dropStem? "CJK UNIFIED IDEOGRAPH-".toList cs with
  | some sounds, _ => syllable? sounds
  | none, some digits => do
    let n ← hexCode? digits
    if ideographs.any fun (low, high) => low ≤ n && n ≤ high then some n else none
  | none, none => tableCode? (cs.map Char.toUpper)

end Antecedent.Text.CharName
