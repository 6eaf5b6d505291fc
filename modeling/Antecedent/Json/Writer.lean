import Antecedent.Json.Basic

/-!
# Writing JSON

Everything outside printable ASCII is escaped, in two units above the first plane.  The compact form
writes a blank after each comma and colon; the spread form writes one item to a line.
-/

namespace Antecedent.Json

def unitEscape (n : Nat) : String :=
  "\\u" ++ Text.hexPadded 4 n

def escapeChar (c : Char) : String :=
  if c == '"' then "\\\""
  else if c == '\\' then "\\\\"
  else if c == '\n' then "\\n"
  else if c == '\r' then "\\r"
  else if c == '\t' then "\\t"
  else if c == '\x0c' then "\\f"
  else if c == '\x08' then "\\b"
  else if ' ' ≤ c && c ≤ '~' then String.singleton c
  else if c.toNat < 0x10000 then unitEscape c.toNat
  else
    let n := c.toNat - 0x10000
    unitEscape (0xD800 + n / 0x400) ++ unitEscape (0xDC00 + n % 0x400)

def writeString (s : String) : String :=
  "\"" ++ String.join (s.toList.map escapeChar) ++ "\""

mutual
/-- The value with the members of every object in the order of their keys; keys without an order
are a fault. -/
def sortKeys : Json → Except Fault Json
  | .arr items => do return .arr (← sortItems items)
  | .obj members => do
    return .obj (← Label.sortBy (fun a b => a.1.before b.1) (← sortMembers members))
  | j => return j
def sortItems : List Json → Except Fault (List Json)
  | [] => return []
  | j :: js => do return (← sortKeys j) :: (← sortItems js)
def sortMembers : List (Label × Json) → Except Fault (List (Label × Json))
  | [] => return []
  | (k, j) :: ms => do return (k, ← sortKeys j) :: (← sortMembers ms)
end

mutual
def compact : Json → String
  | .null => "null"
  | .bool b => if b then "true" else "false"
  | .int n => toString n
  | .float x => x.toText
  | .str s => writeString s
  | .arr items => "[" ++ ", ".intercalate (compactItems items) ++ "]"
  | .obj members => "\x7b" ++ ", ".intercalate (compactMembers members) ++ "\x7d"
def compactItems : List Json → List String
  | [] => []
  | j :: js => compact j :: compactItems js
def compactMembers : List (Label × Json) → List String
  | [] => []
  | (k, j) :: ms => (writeString k.keyText ++ ": " ++ compact j) :: compactMembers ms
end

/-- A line break and an indent of two blanks a level. -/
def lineBreak (depth : Nat) : String :=
  "\n" ++ String.ofList (List.replicate (2 * depth) ' ')

mutual
/-- The spread form: one item to a line, two blanks a level; empty brackets stay closed. -/
def spread (depth : Nat) : Json → String
  | .arr [] => "[]"
  | .obj [] => "\x7b\x7d"
  | .arr items =>
    "[" ++ lineBreak (depth + 1)
      ++ ("," ++ lineBreak (depth + 1)).intercalate (spreadItems (depth + 1) items)
      ++ lineBreak depth ++ "]"
  | .obj members =>
    "\x7b" ++ lineBreak (depth + 1)
      ++ ("," ++ lineBreak (depth + 1)).intercalate (spreadMembers (depth + 1) members)
      ++ lineBreak depth ++ "\x7d"
  | j => compact j
def spreadItems (depth : Nat) : List Json → List String
  | [] => []
  | j :: js => spread depth j :: spreadItems depth js
def spreadMembers (depth : Nat) : List (Label × Json) → List String
  | [] => []
  | (k, j) :: ms => (writeString k.keyText ++ ": " ++ spread depth j) :: spreadMembers depth ms
end

end Antecedent.Json
