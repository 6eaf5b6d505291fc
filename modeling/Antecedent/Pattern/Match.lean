import Antecedent.Pattern.Letter

/-!
# Matching

Attempts are made in a fixed order, and the first that leads to a match of the whole pattern counts.
An attempt leaves a trail: the marks where groups begin and end, and the place it reached.  A failed
attempt leaves its trail too, and each part of a pattern says what of it is undone before the next
attempt: alternatives and repetitions forget the marks set since they began, and give back earlier
marks that were moved only inside a repetition.  A possessive repetition goes on from the place that
its last attempt reached, whether that attempt led to a match or not.
-/

namespace Antecedent.Pattern

/-! ## §1 Trails -/

/-- What an attempt leaves behind: the place reached, and the marks where groups begin and end, two
for each group. -/
structure Trail where
  reached : Nat := 0
  marks : Array (Option Nat) := #[]
deriving Repr, Inhabited

namespace Trail

/-- Sets a mark; marks below it that were never set are absent. -/
def mark (t : Trail) (i pos : Nat) : Trail :=
  if i < t.marks.size then { t with marks := t.marks.setIfInBounds i (some pos) }
  else { t with marks := (t.marks ++ Array.replicate (i - t.marks.size) none).push (some pos) }

def group? (t : Trail) (index : Nat) : Option (Nat × Nat) := do
  let start ← (← t.marks[2 * (index - 1)]?)
  let stop ← (← t.marks[2 * (index - 1) + 1]?)
  if stop < start then none else some (start, stop)

/-- Forgets the marks set since an earlier trail; `moved` gives back the earlier ones as well. -/
def undo (now earlier : Trail) (moved : Bool) : Trail :=
  { now with
    marks := if moved then earlier.marks else now.marks.extract 0 earlier.marks.size }

def isCrossed (t : Trail) : Bool :=
  (List.range (t.marks.size / 2)).any fun i =>
    match t.marks[2 * i]?, t.marks[2 * i + 1]? with
    | some (some start), some (some stop) => stop < start
    | _, _ => false

end Trail

structure Outcome where
  found : Bool
  trail : Trail
deriving Repr, Inhabited

namespace Outcome

def failed (t : Trail) : Outcome := ⟨false, t⟩

/-- A failed attempt that counts as having reached a place. -/
def orBackAt (o : Outcome) (pos : Nat) : Outcome :=
  if o.found then o else failed { o.trail with reached := pos }

end Outcome

abbrev Attempt := Nat → Trail → Outcome

/-- What remains to be matched, with the test of its first character where it starts with one. -/
structure Rest where
  opening : Letter := { kind := .other, holds := fun _ => true }
  run : Attempt

def Rest.done : Rest where
  run pos t := ⟨true, { t with reached := pos }⟩

/-! ## §2 Characters and places -/

/-- Whether a place holds a character that a test accepts. -/
def accepts (text : Array Nat) (holds : Nat → Bool) (pos : Nat) : Bool :=
  match text[pos]? with
  | some n => holds n
  | none => false

/-- How many characters in a row a test accepts, up to a number. -/
def countFrom (text : Array Nat) (holds : Nat → Bool) : Nat → Nat → Nat
  | 0, _ => 0
  | most + 1, pos => if accepts text holds pos then countFrom text holds most (pos + 1) + 1 else 0

def atBoundary (asciiOnly : Bool) (text : Array Nat) (pos : Nat) : Bool :=
  let isWord := Category.word.holds asciiOnly
  (0 < pos && accepts text isWord (pos - 1)) != accepts text isWord pos

def Place.holds (f : Flags) (text : Array Nat) (pos : Nat) : Place → Bool
  | .lineStart => pos == 0 || (f.everyLine && text[pos - 1]? == some 10)
  | .lineEnd =>
    pos == text.size || (text[pos]? == some 10 && (f.everyLine || pos + 1 == text.size))
  | .textStart => pos == 0
  | .textEnd => pos == text.size
  | .boundary => !text.isEmpty && atBoundary f.asciiOnly text pos
  | .inside => !text.isEmpty && !atBoundary f.asciiOnly text pos

/-- Whether the characters from a place on repeat those between two others. -/
def repeats (f : Flags) (text : Array Nat) (pos start stop : Nat) : Bool :=
  let lower : Nat → Nat := match f.fold? with
    | none => id
    | some φ => φ.lower
  (List.range (stop - start)).all fun i =>
    match text[pos + i]?, text[start + i]? with
    | some m, some n => lower m == lower n
    | _, _ => false

/-! ## §3 Repetition of one character -/

/-- Tries the rest from a place, unless it starts with another character than the one there. -/
def Rest.tryAt (rest : Rest) (text : Array Nat) (inRepeat : Bool) (earlier : Trail) : Attempt :=
  fun pos t =>
    let passedOver := match rest.opening.kind with
      | .code n => text[pos]? != some n
      | _ => false
    if passedOver then .failed t
    else
      let o := rest.run pos { t with reached := pos }
      if o.found then o else .failed (o.trail.undo earlier inRepeat)

/-- Tries the rest after fewer and fewer characters from a place on. -/
def fewer (attempt : Attempt) (base : Nat) : Nat → Trail → Outcome
  | 0, t => attempt base t
  | spare + 1, t =>
    let o := attempt (base + spare + 1) t
    if o.found then o else fewer attempt base spare o.trail

/-- The trail after characters in a row were counted: a class without letter case leaves its
place. -/
def Letter.counted (l : Letter) (t : Trail) (pos : Nat) : Trail :=
  if l.kind = .caselessClass then { t with reached := pos } else t

/-- Tries the rest after more and more characters. -/
def more (text : Array Nat) (l : Letter) (attempt : Attempt) : Nat → Attempt
  | allowed, pos, t =>
    let o := attempt pos t
    let t := { o.trail with reached := pos }
    if o.found then o
    else if accepts text l.holds pos then
      let t := l.counted t (pos + 1)
      match allowed with
      | 0 => .failed t
      | allowed + 1 => more text l attempt allowed (pos + 1) t
    else .failed t

/-- Repeats a test of one character before a rest. -/
def Letter.again (l : Letter) (text : Array Nat) (inRepeat : Bool) (least : Nat) (most : Option Nat)
    (mode : Mode) (rest : Rest) : Attempt := fun pos t =>
  if text.size < pos + least then .failed t
  else
    let t := { t with reached := pos }
    let limit := min (most.getD text.size) text.size
    match mode with
    | .lazy =>
      let count := countFrom text l.holds least pos
      let t := if least = 0 then t else l.counted t (pos + count)
      if count < least then .failed t
      else
        let plain : Rest := { run := rest.run }
        more text l (plain.tryAt text inRepeat t) (limit - least) (pos + least) t
    | .greedy =>
      let count := countFrom text l.holds limit pos
      let t := l.counted t (pos + count)
      if count < least then .failed t
      else fewer (rest.tryAt text inRepeat t) (pos + least) (count - least) t
    | .possessive =>
      let count := countFrom text l.holds limit pos
      let t := l.counted t (pos + count)
      if count < least then .failed t else rest.run (pos + count) t

/-! ## §4 Repetition of rows -/

def isBelow (most : Option Nat) (count : Nat) : Bool :=
  match most with
  | some m => count < m
  | none => true

/-- Repeats a body as often as possible before a rest.  `count` repetitions were made, and the last
one that need not have been made began at `last`; the bound is on their number. -/
def greedily (body : Rest → Rest) (rest : Attempt) (least : Nat) (most : Option Nat) :
    Nat → Nat → Option Nat → Attempt
  | 0, _, _, _, t => .failed t
  | bound + 1, count, last, pos, t =>
    let t := { t with reached := pos }
    let again (last : Option Nat) : Outcome :=
      (body { run := greedily body rest least most bound (count + 1) last }).run pos t
    if count < least then (again last).orBackAt pos
    else
      let o := if isBelow most count && last != some pos then again (some pos) else .failed t
      if o.found then o
      else (rest pos { reached := pos, marks := t.marks }).orBackAt pos

/-- Repeats a body as seldom as possible before a rest that is itself in a repetition or not. -/
def lazily (body : Rest → Rest) (rest : Attempt) (inRepeat : Bool) (least : Nat)
    (most : Option Nat) : Nat → Nat → Option Nat → Attempt
  | 0, _, _, _, t => .failed t
  | bound + 1, count, last, pos, t =>
    let t := { t with reached := pos }
    let again (last : Option Nat) (t : Trail) : Outcome :=
      (body { run := lazily body rest inRepeat least most bound (count + 1) last }).run pos t
    if count < least then (again last t).orBackAt pos
    else
      let o := rest pos t
      if o.found then o
      else
        let t := { o.trail.undo t inRepeat with reached := pos }
        if isBelow most count && last != some pos then (again (some pos) t).orBackAt pos
        else .failed t

def asAsked (once : Attempt) : Nat → Trail → Outcome
  | 0, t => ⟨true, t⟩
  | count + 1, t =>
    let o := once t.reached t
    if o.found then asAsked once count o.trail else o

/-- Repeats a body until it fails or takes nothing, up to a number.  The last attempt began at
`last`. -/
def whilePossible (once : Attempt) : Nat → Option Nat → Trail → Trail
  | 0, _, t => t
  | allowed + 1, last, t =>
    if last = some t.reached then t
    else
      let o := once t.reached t
      if o.found then whilePossible once allowed (some t.reached) o.trail
      else { o.trail with marks := t.marks }

def possessively (once : Attempt) (rest : Attempt) (least allowed : Nat) : Attempt := fun pos t =>
  let o := asAsked once least { t with reached := pos }
  if o.found then
    let t := whilePossible once allowed none o.trail
    rest t.reached t
  else .failed { o.trail with reached := pos }

/-! ## §5 Patterns -/

/-- Tries alternatives in order.  Those that start with another character than the one at the place
are passed over. -/
def firstOf (text : Array Nat) (inRepeat : Bool) (earlier : Trail) (pos : Nat) :
    List Rest → Trail → Outcome
  | [], t => .failed t
  | way :: ways, t =>
    let passedOver := match way.opening.kind with
      | .code _ | .plainClass => !accepts text way.opening.holds pos
      | _ => false
    if passedOver then firstOf text inRepeat earlier pos ways t
    else
      let o := way.run pos { t with reached := pos }
      if o.found then o
      else firstOf text inRepeat earlier pos ways (o.trail.undo earlier inRepeat)

mutual
/-- The test of a part that takes one character, also within groups that are not captured. -/
def Node.single? (f : Flags) : Node → Option Letter
  | .group none on off body => single? (f.change on off) body
  | n => n.letter? f
def single? (f : Flags) : List Node → Option Letter
  | [n] => n.single? f
  | _ => none
end

mutual
def Node.before (text : Array Nat) (f : Flags) (inRepeat : Bool) : Node → Rest → Rest
  | .choice branches, rest =>
    let ways := waysBefore text f inRepeat branches { run := rest.run }
    { run := fun pos t => firstOf text inRepeat t pos ways t }
  | .again least most mode body, rest =>
    match single? f body with
    | some l => { run := l.again text inRepeat least most mode rest }
    | none =>
      let spare := (text.size + 2) * (text.size + 2)
      match mode with
      | .greedy =>
        let once := rowBefore text f true body
        { run := greedily once rest.run least most (least + spare) 0 none }
      | .lazy =>
        let once := rowBefore text f true body
        { run := lazily once rest.run inRepeat least most (least + spare) 0 none }
      | .possessive =>
        let once := rowBefore text f inRepeat body Rest.done
        let allowed := match most with
          | some m => m - least
          | none => spare
        { run := possessively once.run rest.run least allowed }
  | .group index on off body, rest =>
    let f := f.change on off
    match index with
    | none => rowBefore text f inRepeat body rest
    | some i =>
      let close : Rest := { run := fun pos t => rest.run pos (t.mark (2 * (i - 1) + 1) pos) }
      let inner := rowBefore text f inRepeat body close
      { run := fun pos t => inner.run pos (t.mark (2 * (i - 1)) pos) }
  | .atomic body, rest =>
    let inner := rowBefore text f inRepeat body Rest.done
    { run := fun pos t =>
        let o := inner.run pos { t with reached := pos }
        if o.found then rest.run o.trail.reached o.trail else o.orBackAt pos }
  | .look behind negated body, rest =>
    let back := (behind.map Width.least).getD 0
    let inner := rowBefore text f inRepeat body Rest.done
    { run := fun pos t =>
        if pos < back then if negated then rest.run pos t else .failed t
        else
          let o := inner.run (pos - back) { t with reached := pos - back }
          if o.found != negated then
            rest.run pos (if negated then o.trail.undo t inRepeat else o.trail)
          else .failed o.trail }
  | .sameAs index, rest =>
    { run := fun pos t =>
        match t.group? index with
        | some (start, stop) =>
          if repeats f text pos start stop then rest.run (pos + (stop - start)) t else .failed t
        | none => .failed t }
  | .ifGroup index yes no, rest =>
    let whenSet := rowBefore text f inRepeat yes (if no.isEmpty then rest else { run := rest.run })
    let whenUnset := rowBefore text f inRepeat no rest
    { run := fun pos t =>
        if (t.group? index).isSome then whenSet.run pos t else whenUnset.run pos t }
  | .place p, rest =>
    { run := fun pos t => if p.holds f text pos then rest.run pos t else .failed t }
  | n, rest =>
    match n.letter? f with
    | some l =>
      { opening := l
        run := fun pos t =>
          if accepts text l.holds pos then rest.run (pos + 1) t else .failed t }
    | none => rest
def rowBefore (text : Array Nat) (f : Flags) (inRepeat : Bool) : List Node → Rest → Rest
  | [], rest => rest
  | n :: row, rest => n.before text f inRepeat (rowBefore text f inRepeat row rest)
/-- Alternatives, each with the rest after it. -/
def waysBefore (text : Array Nat) (f : Flags) (inRepeat : Bool) :
    List (List Node) → Rest → List Rest
  | [], _ => []
  | row :: rows, rest =>
    rowBefore text f inRepeat row rest :: waysBefore text f inRepeat rows rest
end

/-! ## §6 Searching -/

mutual
/-- Whether a part starts with a fixed character; none if it takes none and has no test. -/
def Node.startsFixed? (f : Flags) : Node → Option Bool
  | .code n => some ((f.fold?.map (·.hasCase n)) != some true)
  | .group _ on off body => startsFixed? (f.change on off) body
  | _ => some false
def startsFixed? (f : Flags) : List Node → Option Bool
  | [] => none
  | n :: row =>
    match n.startsFixed? f with
    | some b => some b
    | none => startsFixed? f row
end

/-- The members that the first characters of all alternatives are among. -/
def firstCodes? (f : Flags) : List (List Node) → Option (List Member)
  | [] => some []
  | (.code n :: _) :: rows =>
    if (f.fold?.map (·.hasCase n)) = some true then none
    else (firstCodes? f rows).map (.code n :: ·)
  | _ => none

mutual
/-- The class, negated or not, that the first character of a part is in. -/
def Node.firstClass? (f : Flags) : Node → Option (Bool × List Member)
  | .group _ on off body => firstClass? (f.change on off) body
  | .choice branches => (firstCodes? f branches).map (false, ·)
  | .oneOf negated members =>
    match f.fold? with
    | none => some (negated, members)
    | some φ =>
      let cased := members.any fun
        | .code n => φ.hasCase n
        | m => m.isCased φ
      if cased then none else some (negated, members)
  | _ => none
/-- The class that the first character of a row is in. -/
def firstClass? (f : Flags) : List Node → Option (Bool × List Member)
  | [] => none
  | n :: _ => n.firstClass? f
end

end Antecedent.Pattern

namespace Antecedent

/-- A pattern: its row of parts, the options of the whole, and the least number of characters that
it takes. -/
structure Pattern where
  row : List Pattern.Node
  flags : Pattern.Flags
  least : Nat
deriving Repr, Inhabited

namespace Pattern

/-- The places from which a match of a pattern is looked for. -/
def starts (p : Pattern) (text : Array Nat) : List Nat :=
  if p.least = 0 || startsFixed? p.flags p.row = some true then List.range (text.size + 1)
  else
    match firstClass? p.flags p.row with
    | some (negated, members) =>
      (List.range text.size).filter
        (accepts text fun n => members.any (·.holds p.flags.asciiOnly n) != negated)
    | none => List.range (text.size - (p.least - 1) + 1)

/-- The trail of the first match of a pattern in a text. -/
def search? (p : Pattern) (s : String) : Option Trail :=
  let text := (s.toList.map Char.toNat).toArray
  if text.size < p.least then none
  else
    let attempt := (rowBefore text p.flags false p.row Rest.done).run
    (p.starts text).findSome? fun pos =>
      let o := attempt pos { reached := pos }
      if o.found then some o.trail else none

end Pattern

end Antecedent
