/-!
# SMT-LIB text

Text becomes tokens and tokens become S-expressions.  White space and comments separate tokens.
A symbol may stand between bars, where a stroke escapes a bar or a stroke.  A null character ends
the text.

Text is read from the front, and what is wrong with it matters only when it is reached: a script may
end before its text does.
-/

namespace Antecedent.Smtlib

/-- S-expressions: atoms and lists.  A `word` is a bit-vector literal with its width, and `other` is
a number that no bit vector is. -/
inductive Sexp where
  | symbol (name : String)
  | keyword (name : String)
  | numeral (value : Nat)
  | word (width value : Nat)
  | text
  | other
  | list (items : List Sexp)
deriving Repr, Inhabited

/-- Tokens: brackets and atoms, and the place where no token can be read. -/
inductive Token where
  | opening
  | closing
  | atom (s : Sexp)
  | bad
deriving Repr, Inhabited

/-! ## §1 Tokens -/

def isSymbolChar (c : Char) : Bool :=
  c.isAlphanum || "~!@$%^&*_-+=<>.?/".toList.contains c

def digit? (base : Nat) (c : Char) : Option Nat :=
  let value :=
    if '0' ≤ c ∧ c ≤ '9' then c.toNat - '0'.toNat
    else if 'a' ≤ c ∧ c ≤ 'f' then c.toNat - 'a'.toNat + 10
    else if 'A' ≤ c ∧ c ≤ 'F' then c.toNat - 'A'.toNat + 10
    else base
  if value < base then some value else none

def digitsValue (base : Nat) (ds : List Char) : Nat :=
  ds.foldl (fun n c => n * base + (digit? base c).getD 0) 0

abbrev Step := Option (Sexp × List Char)

/-- The literal of a row of digits in base two to the power `bits`. -/
def readWord (bits : Nat) (cs : List Char) : Step :=
  let ds := cs.takeWhile fun c => (digit? (Nat.pow 2 bits) c).isSome
  if ds.isEmpty then none
  else some (.word (bits * ds.length) (digitsValue (Nat.pow 2 bits) ds), cs.drop ds.length)

/-- What follows a string whose opening quote is read; a doubled quote stands for one. -/
def afterString : List Char → Option (List Char)
  | [] => none
  | '"' :: '"' :: cs => afterString cs
  | c :: cs => if c == '"' then some cs else afterString cs

/-- The name between bars whose first bar is read, and what follows it. -/
def quotedName : List Char → Option (List Char × List Char)
  | [] => none
  | '|' :: cs => some ([], cs)
  | '\\' :: c :: cs =>
    if c == '|' || c == '\\' then (quotedName cs).map fun (name, rest) => (c :: name, rest)
    else none
  | c :: cs => (quotedName cs).map fun (name, rest) => (c :: name, rest)

def afterComment : List Char → Option (List Char)
  | [] => none
  | '|' :: '#' :: cs => some cs
  | _ :: cs => afterComment cs

/-- A number without a sign, with or without a fraction. -/
def readNumber (cs : List Char) : Sexp × List Char :=
  let ds := cs.takeWhile Char.isDigit
  match cs.drop ds.length with
  | '.' :: rest => (.other, rest.dropWhile Char.isDigit)
  | rest => (.numeral (digitsValue 10 ds), rest)

def readSymbol (make : String → Sexp) (cs : List Char) : Sexp × List Char :=
  let name := cs.takeWhile isSymbolChar
  (make (String.ofList name), cs.drop name.length)

/-- The atom at the start of a text that is no blank, comment or bracket. -/
def readAtom : List Char → Step
  | [] => none
  | c :: cs =>
    if c == '|' then (quotedName cs).map fun (name, rest) => (.symbol (String.ofList name), rest)
    else if c == '"' then (afterString cs).map fun rest => (.text, rest)
    else if c == ':' then some (readSymbol .keyword cs)
    else if c == '#' then
      match cs with
      | 'x' :: rest => readWord 4 rest
      | 'b' :: rest => readWord 1 rest
      | _ => none
    else if c.isDigit then some (readNumber (c :: cs))
    else if c == '-' && (cs.head?.map Char.isDigit).getD false then
      some (.other, (readNumber cs).2)
    else if isSymbolChar c then some (readSymbol .symbol (c :: cs))
    else none

def tokensWithin : Nat → List Char → List Token
  | _, [] => []
  | 0, _ => [.bad]
  | fuel + 1, c :: cs =>
    if c == ' ' || c == '\t' || c == '\r' || c == '\n' then tokensWithin fuel cs
    else if c == ';' then tokensWithin fuel (cs.dropWhile (· != '\n'))
    else if c == '(' then .opening :: tokensWithin fuel cs
    else if c == ')' then .closing :: tokensWithin fuel cs
    else
      match c, cs with
      | '#', '|' :: rest =>
        match afterComment rest with
        | some rest => tokensWithin fuel rest
        | none => [.bad]
      | c, cs =>
        match readAtom (c :: cs) with
        | some (s, rest) => .atom s :: tokensWithin fuel rest
        | none => [.bad]

/-- The tokens of a text, which ends at a null character. -/
def tokens (s : String) : List Token :=
  let cs := s.toList.takeWhile (· != '\x00')
  tokensWithin cs.length cs

/-! ## §2 S-expressions -/

/-- The lists that are open, the innermost first, each with its items so far, the last first. -/
abbrev Open := List (List Sexp)

/-- A text so far: the S-expressions that are complete, the last first, and the open lists. -/
structure Reading where
  done : List Sexp := []
  stack : Open := []

def Reading.add (r : Reading) (s : Sexp) : Reading :=
  match r.stack with
  | [] => { r with done := s :: r.done }
  | items :: rest => { r with stack := (s :: items) :: rest }

/-- The S-expressions of a text up to its end or to what cannot be read, and whether all of the text
was read. -/
def readFrom (r : Reading) : List Token → List Sexp × Bool
  | [] => (r.done.reverse, r.stack.isEmpty)
  | .opening :: ts => readFrom { r with stack := [] :: r.stack } ts
  | .closing :: ts =>
    match r.stack with
    | [] => (r.done.reverse, false)
    | items :: rest => readFrom (Reading.add { r with stack := rest } (.list items.reverse)) ts
  | .atom s :: ts => readFrom (r.add s) ts
  | .bad :: _ => (r.done.reverse, false)

/-- The S-expressions of a text, and whether all of it was read. -/
def read (s : String) : List Sexp × Bool :=
  readFrom {} (tokens s)

end Antecedent.Smtlib
