import Antecedent.Json.Basic

/-!
# Reading JSON

The reader takes a list of characters and gives a value and what follows it.  It accepts `NaN`,
`Infinity` and `-Infinity`, keeps the last value of a repeated key, and refuses control characters
inside strings, integers of too many digits and values that are nested too deep.  A pair of
surrogate escapes is one character, and a lone one is the replacement character.
-/

namespace Antecedent.Json

def skipSpace : List Char → List Char
  | c :: cs => if c == ' ' || c == '\n' || c == '\t' || c == '\r' then skipSpace cs else c :: cs
  | [] => []

def hexDigit? (c : Char) : Option Nat :=
  if '0' ≤ c ∧ c ≤ '9' then some (c.toNat - '0'.toNat)
  else if 'a' ≤ c ∧ c ≤ 'f' then some (c.toNat - 'a'.toNat + 10)
  else if 'A' ≤ c ∧ c ≤ 'F' then some (c.toNat - 'A'.toNat + 10)
  else none

def hexUnit? : List Char → Option (Nat × List Char)
  | a :: b :: c :: d :: rest => do
    let a ← hexDigit? a
    let b ← hexDigit? b
    let c ← hexDigit? c
    let d ← hexDigit? d
    pure (((a * 16 + b) * 16 + c) * 16 + d, rest)
  | _ => none

/-- The character of a unit; a surrogate that stands alone is the replacement character. -/
def unitChar (n : Nat) : Char :=
  if 0xD800 ≤ n ∧ n ≤ 0xDFFF then Char.ofNat 0xFFFD else Char.ofNat n

/-- The escaped character after the mark of a unit escape, joining surrogate pairs. -/
def readUnit? (cs : List Char) : Option (Char × List Char) := do
  let (high, rest) ← hexUnit? cs
  if 0xD800 ≤ high ∧ high ≤ 0xDBFF then
    match rest with
    | '\\' :: 'u' :: more =>
      match hexUnit? more with
      | some (low, after) =>
        if 0xDC00 ≤ low ∧ low ≤ 0xDFFF then
          pure (Char.ofNat (0x10000 + (high - 0xD800) * 0x400 + (low - 0xDC00)), after)
        else pure (unitChar high, rest)
      | none => pure (unitChar high, rest)
    | _ => pure (unitChar high, rest)
  else pure (unitChar high, rest)

/-- The rest of a string after its opening quote; `acc` holds the characters so far, last first. -/
def readString : Nat → List Char → List Char → Option (String × List Char)
  | 0, _, _ => none
  | fuel + 1, cs, acc =>
    match cs with
    | [] => none
    | '"' :: rest => some (String.ofList acc.reverse, rest)
    | '\\' :: e :: rest =>
      if e == '"' then readString fuel rest ('"' :: acc)
      else if e == '\\' then readString fuel rest ('\\' :: acc)
      else if e == '/' then readString fuel rest ('/' :: acc)
      else if e == 'b' then readString fuel rest ('\x08' :: acc)
      else if e == 'f' then readString fuel rest ('\x0c' :: acc)
      else if e == 'n' then readString fuel rest ('\n' :: acc)
      else if e == 'r' then readString fuel rest ('\r' :: acc)
      else if e == 't' then readString fuel rest ('\t' :: acc)
      else if e == 'u' then
        match readUnit? rest with
        | some (c, after) => readString fuel after (c :: acc)
        | none => none
      else none
    | c :: rest => if c.toNat < 32 || c == '\\' then none else readString fuel rest (c :: acc)

def digitsValue (cs : List Char) : Nat :=
  cs.foldl (fun n c => n * 10 + (c.toNat - '0'.toNat)) 0

/-- The fraction digits after a point, if there is a point with a digit after it. -/
def readFraction (cs : List Char) : List Char × List Char :=
  match cs with
  | '.' :: rest =>
    let ds := rest.takeWhile Char.isDigit
    if ds.isEmpty then ([], cs) else (ds, rest.dropWhile Char.isDigit)
  | _ => ([], cs)

/-- The exponent, if there is a mark with a digit after it. -/
def readExponent (cs : List Char) : Option Int × List Char :=
  match cs with
  | e :: rest =>
    if e == 'e' || e == 'E' then
      let (negative, tail) : Bool × List Char :=
        match rest with
        | '-' :: t => (true, t)
        | '+' :: t => (false, t)
        | t => (false, t)
      let ds := tail.takeWhile Char.isDigit
      if ds.isEmpty then (none, cs)
      else
        let n : Int := digitsValue ds
        (some (if negative then -n else n), tail.dropWhile Char.isDigit)
    else (none, cs)
  | [] => (none, cs)

/-- A number after its sign: an integer without leading zeros, then fraction and exponent.  With
either of these it is a binary64 number, and without it has a greatest number of digits. -/
def readNumber (negative : Bool) (cs : List Char) : Except Fault (Json × List Char) :=
  let (whole, rest) : List Char × List Char :=
    match cs with
    | '0' :: t => (['0'], t)
    | _ => (cs.takeWhile Char.isDigit, cs.dropWhile Char.isDigit)
  if whole.isEmpty then .error .notJson
  else
    let (fraction, rest) := readFraction rest
    let (exponent, rest) := readExponent rest
    if fraction.isEmpty && exponent.isNone then
      if Text.longestDecimal < whole.length then .error (.longInteger whole.length)
      else
        let n : Int := digitsValue whole
        .ok (.int (if negative then -n else n), rest)
    else
      let power : Int := exponent.getD 0 - fraction.length
      .ok (.float (.ofDecimal negative (digitsValue (whole ++ fraction)) power), rest)

def dropText? (word : List Char) (cs : List Char) : Option (List Char) :=
  match word, cs with
  | [], cs => some cs
  | w :: ws, c :: cs => if w == c then dropText? ws cs else none
  | _ :: _, [] => none

/-- A string after its opening quote. -/
def readText (cs : List Char) : Except Fault (String × List Char) :=
  match readString (cs.length + 1) cs [] with
  | some r => .ok r
  | none => .error .notJson

/-- A value that is neither an array nor an object. -/
def readSimple (cs : List Char) : Except Fault (Json × List Char) :=
  match cs with
  | '"' :: rest => (readText rest).map fun (s, r) => (.str s, r)
  | '-' :: rest =>
    match dropText? "Infinity".toList rest with
    | some after => .ok (.float (.infinity true), after)
    | none => readNumber true rest
  | cs =>
    if let some after := dropText? "null".toList cs then .ok (.null, after)
    else if let some after := dropText? "true".toList cs then .ok (.bool true, after)
    else if let some after := dropText? "false".toList cs then .ok (.bool false, after)
    else if let some after := dropText? "NaN".toList cs then .ok (.float .nan, after)
    else if let some after := dropText? "Infinity".toList cs then
      .ok (.float (.infinity false), after)
    else readNumber false cs

mutual
/-- A value and what follows it; `room` bounds the nesting and `fuel` the length. -/
def readValue (room : Nat) : Nat → List Char → Except Fault (Json × List Char)
  | 0, _ => .error .notJson
  | fuel + 1, cs =>
    match cs, room with
    | '[' :: _, 0 | '\x7b' :: _, 0 => .error .deepDocument
    | '[' :: rest, room + 1 =>
      match skipSpace rest with
      | ']' :: after => .ok (.arr [], after)
      | inner => (readItems room fuel inner).map fun (items, r) => (.arr items, r)
    | '\x7b' :: rest, room + 1 =>
      match skipSpace rest with
      | '\x7d' :: after => .ok (.obj [], after)
      | inner => (readMembers room fuel inner).map fun (ms, r) => (ofMembers ms, r)
    | cs, _ => readSimple cs
def readItems (room : Nat) : Nat → List Char → Except Fault (List Json × List Char)
  | 0, _ => .error .notJson
  | fuel + 1, cs => do
    let (j, rest) ← readValue room fuel cs
    match skipSpace rest with
    | ']' :: after => return ([j], after)
    | ',' :: after =>
      let (js, r) ← readItems room fuel (skipSpace after)
      return (j :: js, r)
    | _ => .error .notJson
def readMembers (room : Nat) : Nat → List Char → Except Fault (List (Label × Json) × List Char)
  | 0, _ => .error .notJson
  | fuel + 1, cs =>
    match cs with
    | '"' :: rest => do
      let (k, rest) ← readText rest
      match skipSpace rest with
      | ':' :: rest =>
        let (j, rest) ← readValue room fuel (skipSpace rest)
        match skipSpace rest with
        | '\x7d' :: after => return ([(.text k, j)], after)
        | ',' :: after =>
          let (ms, r) ← readMembers room fuel (skipSpace after)
          return ((.text k, j) :: ms, r)
        | _ => .error .notJson
      | _ => .error .notJson
    | _ => .error .notJson
end

def deepest : Nat := 980

/-- Reads a text that is one value with white space around it. -/
def parse (s : String) : Except Fault Json := do
  let cs := skipSpace s.toList
  let (j, rest) ← readValue deepest (cs.length + 1) cs
  if (skipSpace rest).isEmpty then return j else .error .notJson

end Antecedent.Json
