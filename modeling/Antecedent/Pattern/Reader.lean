import Antecedent.Pattern.Match
import Antecedent.Text.CharName.Lookup
import Antecedent.Text.Integer

/-!
# Reading patterns

The written form of patterns.  Reading fails on what has no meaning: a repetition of nothing, an
unknown escape, a bracket without its partner, a reference to a group that does not exist or is
still open.

A backslash and the character after it are read as one, also in comments and names.
-/

namespace Antecedent.Pattern

inductive Flaw where
  | malformed
  | largeCount
  | longCount (digits : Nat)
  /-- Categories are asked to range over all scripts and over one. -/
  | mixedScripts
  | farLook
deriving DecidableEq, Repr, Inhabited

/-! ## §1 Characters -/

/-- A character of a written pattern, alone or with the backslash before it.  A backslash at the end
has no character after it. -/
inductive Token where
  | plain (c : Char)
  | escaped (c : Char)
  | dangling
deriving DecidableEq, Repr, Inhabited

def tokens : List Char → List Token
  | [] => []
  | ['\\'] => [.dangling]
  | '\\' :: c :: cs => .escaped c :: tokens cs
  | c :: cs => .plain c :: tokens cs

def Token.text : Token → List Char
  | .plain c => [c]
  | .escaped c => ['\\', c]
  | .dangling => ['\\']

/-- A pattern half read: what is left, the number of groups opened, their names, the widths of those
closed, the number of groups before the innermost test of what stands before, the groups that
conditions ask for by number, and the options of the whole. -/
structure Progress where
  left : List Token
  groups : Nat := 0
  names : List (String × Nat) := []
  closed : List (Nat × Width) := []
  limit : Option Nat := none
  asked : List Nat := []
  flags : Flags := {}

abbrev Read := StateT Progress (Except Flaw)

/-- What is read has no meaning. -/
def refuse {α : Type} : Read α :=
  throw .malformed

/-- Goes on to what is left; a backslash at the end is told as soon as it comes next. -/
def goOn (left : List Token) : Read Unit := do
  if left.head? == some .dangling then refuse
  modify fun p => { p with left }

def peek : Read (Option Token) := do
  return (← get).left.head?

def next : Read Token := do
  match (← get).left with
  | t :: ts =>
    goOn ts
    return t
  | [] => refuse

def accept (c : Char) : Read Bool := do
  match (← get).left with
  | t :: ts =>
    if t == .plain c then
      goOn ts
      return true
    else return false
  | [] => return false

def expect (c : Char) : Read Unit := do
  if !(← accept c) then refuse

def takeUpTo (p : Char → Bool) : Nat → Read (List Char)
  | 0 => return []
  | most + 1 => do
    match (← get).left with
    | .plain c :: ts =>
      if p c then
        goOn ts
        return c :: (← takeUpTo p most)
      else return []
    | _ => return []

def takeAll (p : Char → Bool) : Read (List Char) := do
  takeUpTo p (← get).left.length

/-- Takes characters up to a closing one, which is dropped; the bound is on their number. -/
def untilClosing (closing : Char) : Nat → Read (List Char)
  | 0 => refuse
  | bound + 1 => do
    let t ← next
    if t == .plain closing then return []
    return t.text ++ (← untilClosing closing bound)

/-- Takes a name up to a closing character, which is dropped; there must be one. -/
def takeName (closing : Char) : Read String := do
  let cs ← untilClosing closing ((← get).left.length + 1)
  if cs.isEmpty then refuse
  return String.ofList cs

def digitsValue (base : Nat) (cs : List Char) : Nat :=
  Text.rowValue base (cs.filterMap Text.baseDigit?)

def isHex (c : Char) : Bool :=
  c.isDigit || ('a' ≤ c.toLower && c.toLower ≤ 'f')

def isOctal (c : Char) : Bool :=
  '0' ≤ c && c ≤ '7'

def hexCode (count : Nat) : Read Nat := do
  let cs ← takeUpTo isHex count
  if cs.length != count then refuse
  let n := digitsValue 16 cs
  if n < 0x110000 then return n else refuse

def namedCode : Read Nat := do
  expect '\x7b'
  match Text.CharName.code? (← takeName '\x7d') with
  | some n => return n
  | none => refuse

def letterEscape? (c : Char) : Option Nat :=
  match c with
  | 'a' => some 7
  | 'f' => some 12
  | 'n' => some 10
  | 'r' => some 13
  | 't' => some 9
  | 'v' => some 11
  | '\\' => some 92
  | _ => none

def categoryEscape? (c : Char) : Option Member :=
  match c with
  | 'd' => some (.category .digit false)
  | 'D' => some (.category .digit true)
  | 's' => some (.category .space false)
  | 'S' => some (.category .space true)
  | 'w' => some (.category .word false)
  | 'W' => some (.category .word true)
  | _ => none

/-- The rest of an escape that stands for one character, given its first character. -/
def plainEscape (c : Char) : Read Nat := do
  match letterEscape? c with
  | some n => return n
  | none =>
    match c with
    | 'x' => hexCode 2
    | 'u' => hexCode 4
    | 'U' => hexCode 8
    | 'N' => namedCode
    | c => if c.isAlpha || c.isDigit then refuse else return c.toNat

/-! ## §2 Classes -/

def classEscape (c : Char) : Read Member := do
  match categoryEscape? c with
  | some m => return m
  | none =>
    if c == 'b' then return .code 8
    else if isOctal c then
      let n := digitsValue 8 (c :: (← takeUpTo isOctal 2))
      if n > 255 then refuse else return .code n
    else return .code (← plainEscape c)

def classEnd : Token → Read Member
  | .plain c => return .code c.toNat
  | .escaped c => classEscape c
  | .dangling => refuse

/-- The members of a class up to its closing bracket, given those before, the last first; the bound
is on their number. -/
def classMembers : Nat → List Member → Read (List Member)
  | 0, _ => refuse
  | bound + 1, members => do
    let t ← next
    if t == .plain ']' && !members.isEmpty then return members.reverse
    let low ← classEnd t
    if ← accept '-' then
      let u ← next
      if u == .plain ']' then return (.code '-'.toNat :: low :: members).reverse
      match low, ← classEnd u with
      | .code a, .code b => if b < a then refuse else classMembers bound (.range a b :: members)
      | _, _ => refuse
    else classMembers bound (low :: members)

/-- A class whose opening bracket is read.  A class of one character is that character. -/
def readClass : Read Node := do
  let negated ← accept '^'
  let members ← classMembers ((← get).left.length + 1) []
  match negated, members.eraseDups with
  | false, [.code n] => return .code n
  | true, [.code n] => return .otherThan n
  | negated, members => return .oneOf negated members

/-! ## §3 Groups -/

def isClosed (index : Nat) : Read Bool := do
  return ((← get).closed.lookup index).isSome

/-- Checks that a group may be referred to inside a test of what stands before. -/
def checkLimit (index : Nat) : Read Unit := do
  match (← get).limit with
  | none => return
  | some limit => if !(← isClosed index) || limit < index then refuse

def groupRef (index : Nat) : Read Node := do
  if !(← isClosed index) then refuse
  checkLimit index
  return .sameAs index

def groupNamed (name : String) : Read Nat := do
  match (← get).names.lookup name with
  | some index => return index
  | none => refuse

/-- Opens a group, with a name or without. -/
def openGroup (name? : Option String) : Read Nat := do
  let p ← get
  let index := p.groups + 1
  match name? with
  | some name =>
    if (p.names.lookup name).isSome then refuse
    set { p with groups := index, names := (name, index) :: p.names }
  | none => set { p with groups := index }
  return index

def closeGroup (index : Nat) (body : List Node) : Read Unit :=
  modify fun p => { p with closed := (index, rowWidth p.closed body) :: p.closed }

def flag? (c : Char) : Option Flags :=
  match c with
  | 'i' => some { ignoreCase := true }
  | 'm' => some { everyLine := true }
  | 's' => some { withLineBreak := true }
  | 'x' => some { verbose := true }
  | 'a' => some { asciiOnly := true }
  | 'u' => some { anyScript := true }
  | 't' => some { plain := true }
  | _ => none

/-- The options of letters in a row; they choose the scripts once at most. -/
def readFlags : Read Flags := do
  let cs ← takeAll fun c => (flag? c).isSome
  let f := cs.foldl (fun f c => f.union ((flag? c).getD {})) {}
  if f.asciiOnly && f.anyScript then refuse
  return f

/-- What a row of option letters is followed by. -/
inductive FlagScope where
  | whole (on : Flags)
  | group (on off : Flags)

/-- Option letters and what they hold for: the whole pattern or a group. -/
def readFlagScope : Read FlagScope := do
  let on ← readFlags
  if on != {} then
    if ← accept ')' then return .whole on
    if on.plain then refuse
    if ← accept ':' then return .group on {}
  expect '-'
  let off ← readFlags
  if off == {} || off.choosesScript || off.plain || off.without on != off then refuse
  expect ':'
  return .group on off

/-! ## §4 Patterns -/

/-- A number of repetitions; no digits give none. -/
def repetitions (cs : List Char) : Read (Option Nat) := do
  if cs.isEmpty then return none
  if Text.longestDecimal < cs.length then throw (.longCount cs.length)
  let n := digitsValue 10 cs
  if noBound ≤ n then throw .largeCount
  return some n

/-- The numbers of a repetition between braces whose opening brace is read; none if the text is no
repetition. -/
def readCount : Read (Option (Nat × Option Nat)) := do
  let saved ← get
  if (← peek) == some (.plain '\x7d') then return none
  let low ← takeAll Char.isDigit
  let comma ← accept ','
  let high ← if comma then takeAll Char.isDigit else pure low
  if !(← accept '\x7d') then
    set saved
    return none
  let least := (← repetitions low).getD 0
  let most ← repetitions high
  match most with
  | some m => if m < least then refuse
  | none => pure ()
  return some (least, most)

/-- Repeats the last part of a row, which is given last first. -/
def repeatLast (least : Nat) (most : Option Nat) (items : List Node) : Read (List Node) := do
  match items with
  | [] | .place _ :: _ | .again _ _ _ _ :: _ => refuse
  | n :: row =>
    let body := n.held?.getD [n]
    if ← accept '?' then return .again least most .lazy body :: row
    if ← accept '+' then return .again least most .possessive body :: row
    return .again least most .greedy body :: row

/-- A row of parts, given last first; groups that only hold their body together are opened. -/
def joinRow (items : List Node) : List Node :=
  items.reverse.flatMap fun n => n.held?.getD [n]

def commonStart : List Node → List (List Node) → List Node
  | [], _ => []
  | n :: row, others =>
    if others.all fun r => (r.head?.map n.same).getD false then
      n :: commonStart row (others.map List.tail)
    else []

def asMembers? : List (List Node) → Option (List Member)
  | [] => some []
  | [.code n] :: rows => (asMembers? rows).map (.code n :: ·)
  | [.oneOf false members] :: rows => (asMembers? rows).map (members ++ ·)
  | _ => none

/-- Alternatives as a row: what they all start with stands before them, and alternatives of one
character are a class. -/
def joinAlternatives : List (List Node) → List Node
  | [] => []
  | [row] => row
  | row :: rows =>
    let common := commonStart row rows
    let rest := (row :: rows).map (·.drop common.length)
    match asMembers? rest with
    | some members => common ++ [.oneOf false members.eraseDups]
    | none => common ++ [.choice rest]

def readEscape (c : Char) : Read Node := do
  match categoryEscape? c with
  | some m => return .oneOf false [m]
  | none =>
    match c with
    | 'A' => return .place .textStart
    | 'Z' => return .place .textEnd
    | 'b' => return .place .boundary
    | 'B' => return .place .inside
    | '0' => return .code (digitsValue 8 (← takeUpTo isOctal 2))
    | c =>
      if c.isDigit then
        let ds := c :: (← takeUpTo Char.isDigit 1)
        if ds.length == 2 && ds.all isOctal then
          match ← takeUpTo isOctal 1 with
          | [] => groupRef (digitsValue 10 ds)
          | third =>
            let n := digitsValue 8 (ds ++ third)
            if n > 255 then refuse else return .code n
        else groupRef (digitsValue 10 ds)
      else return .code (← plainEscape c)

/-- Skips a comment up to a closing character, which is dropped; the bound is on its length. -/
def skipComment (closing : Char) (mustClose : Bool) : Nat → Read Unit
  | 0 => refuse
  | bound + 1 => do
    match ← peek with
    | none => if mustClose then refuse
    | some _ =>
      if (← next) != .plain closing then skipComment closing mustClose bound

/-- Blanks that mean nothing where patterns are written freely. -/
def isLayout (c : Char) : Bool :=
  c == ' ' || (9 ≤ c.toNat && c.toNat ≤ 13)

def readAsked : Read Nat := do
  let label ← takeName ')'
  let index ← if Text.isIdentifier label then groupNamed label
    else
      match Text.readDecimal label with
      | .ok (.ofNat (n + 1)) =>
        modify fun p => { p with asked := (n + 1) :: p.asked }
        pure (n + 1)
      | _ => refuse
  checkLimit index
  return index

/-- What a group gives to its row: a part, nothing, or options of the whole pattern. -/
inductive Grouped where
  | part (n : Node)
  | nothing
  | options

mutual
/-- Alternatives up to a closing bracket or the end, under free writing or not.  Options of the
whole pattern may stand at its very start only, which `top` marks. -/
def readAlternatives (bound : Nat) (top verbose : Bool) : Read (List (List Node)) := do
  match bound with
  | 0 => refuse
  | bound + 1 =>
    let row ← readRow bound top verbose []
    if ← accept '|' then
      let p ← get
      let verbose := if top then p.flags.verbose else verbose
      return row :: (← readMore bound top verbose)
    return [row]
def readMore (bound : Nat) (top verbose : Bool) : Read (List (List Node)) := do
  match bound with
  | 0 => refuse
  | bound + 1 =>
    let row ← readRow bound false verbose []
    if ← accept '|' then
      let p ← get
      let verbose := if top then p.flags.verbose else verbose
      return row :: (← readMore bound top verbose)
    return [row]
/-- A row of parts; those read so far are given last first. -/
def readRow (bound : Nat) (start verbose : Bool) (items : List Node) : Read (List Node) := do
  match bound with
  | 0 => refuse
  | bound + 1 =>
    match ← peek with
    | none | some (.plain '|') | some (.plain ')') => return joinRow items
    | some _ =>
      match ← next with
      | .dangling => refuse
      | .escaped c => readRow bound start verbose ((← readEscape c) :: items)
      | .plain c =>
        if verbose && isLayout c then readRow bound start verbose items
        else if verbose && c == '#' then
          skipComment '\n' false ((← get).left.length + 1)
          readRow bound start verbose items
        else
          match c with
          | '[' => readRow bound start verbose ((← readClass) :: items)
          | '.' => readRow bound start verbose (.anything :: items)
          | '^' => readRow bound start verbose (.place .lineStart :: items)
          | '$' => readRow bound start verbose (.place .lineEnd :: items)
          | '*' => readRow bound start verbose (← repeatLast 0 none items)
          | '+' => readRow bound start verbose (← repeatLast 1 none items)
          | '?' => readRow bound start verbose (← repeatLast 0 (some 1) items)
          | '\x7b' =>
            match ← readCount with
            | none => readRow bound start verbose (.code c.toNat :: items)
            | some (least, most) => readRow bound start verbose (← repeatLast least most items)
          | '(' =>
            match ← readGroup bound (start && items.isEmpty) verbose with
            | .part n => readRow bound start verbose (n :: items)
            | .nothing => readRow bound start verbose items
            | .options => readRow bound start (← get).flags.verbose items
          | c => readRow bound start verbose (.code c.toNat :: items)
def readGroup (bound : Nat) (start verbose : Bool) : Read Grouped := do
  match bound with
  | 0 => refuse
  | bound + 1 =>
    if !(← accept '?') then return .part (← readCapture bound none verbose)
    match (← get).left with
    | .plain 'P' :: ts =>
      goOn ts
      if ← accept '<' then
        let name ← takeName '>'
        if !Text.isIdentifier name then refuse
        return .part (← readCapture bound (some name) verbose)
      else
        expect '='
        let name ← takeName ')'
        if !Text.isIdentifier name then refuse
        return .part (← groupRef (← groupNamed name))
    | .plain ':' :: ts =>
      goOn ts
      return .part (.group none {} {} (← readBody bound verbose))
    | .plain '>' :: ts =>
      goOn ts
      return .part (.atomic (← readBody bound verbose))
    | .plain '#' :: ts =>
      goOn ts
      skipComment ')' true ((← get).left.length + 1)
      return .nothing
    | .plain '=' :: ts =>
      goOn ts
      return .part (.look none false (← readBody bound verbose))
    | .plain '!' :: ts =>
      goOn ts
      return .part (.look none true (← readBody bound verbose))
    | .plain '<' :: ts =>
      goOn ts
      let negated ← if ← accept '=' then pure false else
        expect '!'
        pure true
      let outer := (← get).limit
      modify fun p => { p with limit := some (outer.getD p.groups) }
      let body ← readAlternatives bound false verbose
      modify fun p => { p with limit := outer }
      expect ')'
      let body := joinAlternatives body
      return .part (.look (some (rowWidth (← get).closed body)) negated body)
    | .plain '(' :: ts =>
      goOn ts
      let index ← readAsked
      let yes ← readRow bound false verbose []
      let no ← if ← accept '|' then readRow bound false verbose [] else pure []
      expect ')'
      return .part (.ifGroup index yes no)
    | _ =>
      match ← readFlagScope with
      | .whole on =>
        modify fun p => { p with flags := p.flags.union on }
        if !start then refuse
        return .options
      | .group on off =>
        let inner := (verbose || on.verbose) && !off.verbose
        return .part (.group none on off (← readBody bound inner))
def readBody (bound : Nat) (verbose : Bool) : Read (List Node) := do
  match bound with
  | 0 => refuse
  | bound + 1 =>
    let body ← readAlternatives bound false verbose
    expect ')'
    return joinAlternatives body
def readCapture (bound : Nat) (name? : Option String) (verbose : Bool) : Read Node := do
  match bound with
  | 0 => refuse
  | bound + 1 =>
    let index ← openGroup name?
    let body ← readBody bound verbose
    closeGroup index body
    return .group (some index) {} {} body
end

/-! ## §5 Whole patterns -/

mutual
def Node.has (p : Node → Bool) : Node → Bool
  | n@(.choice branches) => p n || rowsHave p branches
  | n@(.again _ _ _ body) | n@(.group _ _ _ body) | n@(.atomic body) | n@(.look _ _ body) =>
    p n || rowHas p body
  | n@(.ifGroup _ yes no) => p n || rowHas p yes || rowHas p no
  | n => p n
def rowHas (p : Node → Bool) : List Node → Bool
  | [] => false
  | n :: row => n.has p || rowHas p row
def rowsHave (p : Node → Bool) : List (List Node) → Bool
  | [] => false
  | row :: rows => rowHas p row || rowsHave p rows
end

/-- Whether a part cannot be used: a repetition in a plain pattern, or a test of what stands before
whose width is not fixed. -/
def Node.isUnusable (f : Flags) : Node → Bool
  | .again .. => f.plain
  | .look (some w) _ _ => w.least != w.most
  | _ => false

def Node.looksFar : Node → Bool
  | .look (some w) _ _ => 2147483648 ≤ w.least
  | _ => false

def parse (s : String) : Except Flaw Pattern := do
  let read : Read (List Node) := do
    goOn (tokens s.toList)
    return joinAlternatives (← readAlternatives (6 * s.length + 6) true false)
  let (row, p) ← read.run { left := [] }
  if p.flags.asciiOnly && p.flags.anyScript then throw .mixedScripts
  if !p.left.isEmpty || p.asked.any (p.groups < ·) then throw .malformed
  if rowHas (Node.isUnusable p.flags) row then throw .malformed
  if rowHas Node.looksFar row then throw .farLook
  return { row, flags := p.flags, least := (rowWidth p.closed row).least }

end Antecedent.Pattern
