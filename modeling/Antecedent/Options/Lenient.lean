import Antecedent.Json.Basic
import Antecedent.Text.CharClass

/-!
# Lenient reading of options

Options come as JSON values and are read leniently: a whole number may be written as text, and a
truth value as a word.  What does not fit is an issue, and all issues are collected.
-/

namespace Antecedent.Options

/-! ## §1 Issues -/

inductive IssueKind where
  | missing | notAnObject | textType | listType | tooShort
  | boolType | boolWord
  | intType | intWord | intSize | intFraction | notFinite | tooSmall | notAbove
deriving DecidableEq, Repr, Inhabited

def IssueKind.text : IssueKind → String
  | .missing => "missing"
  | .notAnObject => "model_attributes_type"
  | .textType => "string_type"
  | .listType => "list_type"
  | .tooShort => "too_short"
  | .boolType => "bool_type"
  | .boolWord => "bool_parsing"
  | .intType => "int_type"
  | .intWord => "int_parsing"
  | .intSize => "int_parsing_size"
  | .intFraction => "int_from_float"
  | .notFinite => "finite_number"
  | .tooSmall => "greater_than_equal"
  | .notAbove => "greater_than"

inductive Step where
  | field (name : String)
  | index (n : Nat)
deriving DecidableEq, Repr, Inhabited

structure Issue where
  path : List Step := []
  kind : IssueKind
deriving DecidableEq, Repr, Inhabited

def Issue.within (s : Step) (i : Issue) : Issue :=
  { i with path := s :: i.path }

abbrev Reader (α : Type) := Json → Except (List Issue) α

def fail {α : Type} (kind : IssueKind) : Except (List Issue) α :=
  .error [{ kind }]

/-! ## §2 Texts and lists -/

def readText : Reader String
  | .str s => .ok s
  | _ => fail .textType

def readText? : Reader (Option String)
  | .null => .ok none
  | j => (readText j).map some

/-- Texts, with the issues of all items. -/
def readTextItems (index : Nat) : List Json → Except (List Issue) (List String)
  | [] => .ok []
  | j :: js =>
    match readText j, readTextItems (index + 1) js with
    | .ok s, .ok ss => .ok (s :: ss)
    | .ok _, .error is => .error is
    | .error is, .ok _ => .error (is.map (Issue.within (.index index)))
    | .error is, .error js => .error (is.map (Issue.within (.index index)) ++ js)

def readTexts : Reader (List String)
  | .arr items => readTextItems 0 items
  | _ => fail .listType

def splitCommas (cs : List Char) : List (List Char) :=
  match cs with
  | [] => [[]]
  | c :: cs =>
    if c == ',' then [] :: splitCommas cs
    else
      match splitCommas cs with
      | [] => [[c]]
      | p :: ps => (c :: p) :: ps

/-- A list of texts, or one text with commas between the items; blank items do not count then. -/
def readWords : Reader (List String)
  | .str s =>
    .ok (((splitCommas s.toList).map Text.trimList).filterMap fun w =>
      if w.isEmpty then none else some (String.ofList w))
  | j => readTexts j

/-! ## §3 Truth values -/

def falseWords : List String :=
  ["0", "off", "f", "false", "n", "no"]

def trueWords : List String :=
  ["1", "on", "t", "true", "y", "yes"]

def fitsWord (n : Int) : Bool :=
  decide (-0x8000000000000000 ≤ n ∧ n < 0x8000000000000000)

/-- Whether a whole number is strictly between the bounds of a signed word of 64 bits as numbers of
binary64 precision. -/
def insideWord (n : Int) : Bool :=
  decide (-0x8000000000000000 < n ∧ n < 0x8000000000000000)

def boolOfInt (n : Int) : Except (List Issue) Bool :=
  if n = 0 then .ok false else if n = 1 then .ok true else fail .boolWord

/-- A truth value: a Boolean, zero or one, or one of the words in any letter case. -/
def readBool : Reader Bool
  | .bool b => .ok b
  | .str s =>
    if falseWords.contains s.toLower then .ok false
    else if trueWords.contains s.toLower then .ok true
    else fail .boolWord
  | .int n => if fitsWord n then boolOfInt n else fail .boolType
  | .float x =>
    match x.toInt? with
    | some n => if insideWord n then boolOfInt n else fail .boolType
    | none => fail .boolType
  | _ => fail .boolType

/-! ## §4 Integers -/

def digitsValue (cs : List Char) : Nat :=
  cs.foldl (fun n c => n * 10 + (c.toNat - '0'.toNat)) 0

/-- The longest row of sign and digits that is read as a number. -/
def longestNumber : Nat := 4300

def splitMinus : List Char → Bool × List Char
  | '-' :: cs => (true, cs)
  | cs => (false, cs)

/-- A plain integer: a minus sign or none, and digits without a leading zero.  A row that is too
long is told before what follows it. -/
def plainInt (cs : List Char) : Except IssueKind Int :=
  let (negative, ds) := splitMinus cs
  let row := ds.takeWhile Char.isDigit
  let whole := row.length == ds.length
  match row with
  | [] => .error .intWord
  | '0' :: more => if more.isEmpty && whole then .ok 0 else .error .intWord
  | _ =>
    if row.length + (if negative then 1 else 0) > longestNumber then .error .intSize
    else if whole then
      .ok (if negative then -(digitsValue row : Int) else (digitsValue row : Int))
    else .error .intWord

/-- Drops zeros and underscores in front of a number that starts with a zero.  One character stays
where nothing or a point follows. -/
def dropLeadingZeros (cs : List Char) : Option (List Char) :=
  match cs with
  | '0' :: rest =>
    match rest.dropWhile fun c => c == '0' || c == '_' with
    | [] => cs.getLast?.map fun c => [c]
    | c :: more =>
      if ('1' ≤ c && c ≤ '9') || c == '-' then some (c :: more)
      else if c == '.' then
        ((cs.take (cs.length - more.length - 1)).getLast?).map fun last => last :: c :: more
      else none
  | c :: _ => if ('1' ≤ c && c ≤ '9') || c == '-' then some cs else none
  | [] => none

def dropZeroFraction (cs : List Char) : List Char :=
  let whole := cs.takeWhile (· != '.')
  match cs.drop whole.length with
  | _ :: d :: ds => if (d :: ds).all (· == '0') then whole else cs
  | _ => cs

def doubledUnderscore : List Char → Bool
  | '_' :: '_' :: _ => true
  | _ :: cs => doubledUnderscore cs
  | [] => false

def dropUnderscores (cs : List Char) : List Char :=
  if cs.head? == some '_' || cs.getLast? == some '_' || doubledUnderscore cs then cs
  else cs.filter (· != '_')

/-- Drops a plus sign that no minus sign follows. -/
def dropPlus : List Char → List Char
  | '+' :: '-' :: cs => '+' :: '-' :: cs
  | '+' :: cs => cs
  | cs => cs

/-- The plain form of a number with blanks around it, a sign, zeros in front, a fraction of zeros
and underscores between digits. -/
def tidied? (cs : List Char) : Option (List Char) := do
  let (negative, ds) := splitMinus (dropPlus (Text.trimSpace cs))
  let plain := dropUnderscores (dropZeroFraction (← dropLeadingZeros ds))
  return if negative then '-' :: plain else plain

def wordInt (s : String) : Except IssueKind Int :=
  match plainInt s.toList with
  | .error .intWord =>
    match tidied? s.toList with
    | some cs => plainInt cs
    | none => .error .intWord
  | result => result

/-- An integer: a whole number, a Boolean as one or zero, or a text. -/
def readInt : Reader Int
  | .int n => .ok n
  | .bool b => .ok (if b then 1 else 0)
  | .float x =>
    match x with
    | .nan | .infinity _ => fail .notFinite
    | x =>
      match x.toInt? with
      | none => fail .intFraction
      | some n => if insideWord n then .ok n else fail .intSize
  | .str s =>
    match wordInt s with
    | .ok n => .ok n
    | .error kind => fail kind
  | _ => fail .intType

def readNatural? : Reader (Option Int)
  | .null => .ok none
  | j => do
    let n ← readInt j
    if 0 ≤ n then pure (some n) else fail .tooSmall

def readPositive? : Reader (Option Int)
  | .null => .ok none
  | j => do
    let n ← readInt j
    if 0 < n then pure (some n) else fail .notAbove

end Antecedent.Options
