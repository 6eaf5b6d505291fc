import Antecedent.Decide.Circuit

/-!
# Satisfiability of clauses

A search for truth values of variables that make every clause true: clauses with one open literal
force it, a clause that fails is turned into a new clause that excludes the choices behind the
failure, and the search goes back to where that clause forces something.

Literals are wires: a variable is a gate, and its negation the opposite wire.  All clauses lie in
one array, a length followed by the literals; the first two literals of a clause are watched.
-/

namespace Antecedent.Decide

def noVariable : Nat := 0x3fffffff

/-- The state of a search.  Arrays are indexed by variables, except `watches` and `values`, which
are indexed by literals; a value is 0 for open, 1 for true and 2 for false, and a reason is the
place of a clause plus one, or 0 for a choice. -/
structure Search where
  arena : Array Nat := #[]
  watches : Array (Array Nat) := #[]
  values : Array Nat := #[]
  levels : Array Nat := #[]
  reasons : Array Nat := #[]
  phases : Array Nat := #[]
  marks : Array Bool := #[]
  /-- Literals made true, in order. -/
  trail : Array Nat := #[]
  /-- The length of the trail at every choice. -/
  limits : Array Nat := #[]
  /-- How much of the trail has been looked at. -/
  head : Nat := 0
  /-- The variables in the order of their last part in a failure: neighbours and times. -/
  older : Array Nat := #[]
  newer : Array Nat := #[]
  times : Array Nat := #[]
  clock : Nat := 0
  newest : Nat := noVariable
  /-- Where the search for an open variable starts; newer ones are not open. -/
  cursor : Nat := noVariable
  failed : Bool := false

namespace Search

@[inline] def value (s : Search) (l : Wire) : Nat :=
  s.values.getD l 0

@[inline] def size (s : Search) : Nat :=
  s.levels.size

@[inline] def level (s : Search) : Nat :=
  s.limits.size

/-! ## §1 Order of variables -/

def unlink (s : Search) (v : Nat) : Search :=
  let o := s.older.getD v noVariable
  let n := s.newer.getD v noVariable
  let s := if o == noVariable then s else { s with newer := s.newer.setIfInBounds o n }
  if n == noVariable then { s with newest := o } else { s with older := s.older.setIfInBounds n o }

def linkNewest (s : Search) (v : Nat) : Search :=
  let o := s.newest
  let s := { s with
    older := s.older.setIfInBounds v o, newer := s.newer.setIfInBounds v noVariable
    times := s.times.setIfInBounds v s.clock, clock := s.clock + 1, newest := v }
  if o == noVariable then s else { s with newer := s.newer.setIfInBounds o v }

/-- Notes that a variable took part in a failure. -/
def bump (s : Search) (v : Nat) : Search :=
  if s.newest == v then s
  else
    let s := if s.cursor == v then { s with cursor := s.newest } else s
    let s := (s.unlink v).linkNewest v
    if s.value (2 * v) == 0 then { s with cursor := v } else s

def newVariable (s : Search) : Search :=
  let v := s.levels.size
  let s := { s with
    watches := (s.watches.push #[]).push #[], values := (s.values.push 0).push 0
    levels := s.levels.push 0, reasons := s.reasons.push 0, phases := s.phases.push 2
    marks := s.marks.push false, older := s.older.push noVariable, newer := s.newer.push noVariable
    times := s.times.push 0 }
  let s := s.linkNewest v
  { s with cursor := v }

/-! ## §2 Making literals true -/

def assign (s : Search) (l : Wire) (reason : Nat) : Search :=
  let v := l / 2
  { s with
    values := (s.values.setIfInBounds l 1).setIfInBounds (Wire.not l) 2
    levels := s.levels.setIfInBounds v s.limits.size
    reasons := s.reasons.setIfInBounds v reason
    trail := s.trail.push l }

/-- The place of a literal that is not false among those of a clause from a place on. -/
def openPlace (s : Search) : Nat → Nat → Option Nat
  | 0, _ => none
  | n + 1, place =>
    if s.value (s.arena.getD place 0) == 2 then openPlace s n (place + 1) else some place

/-- Looks at the clauses that watch a literal that has become false.  Gives the place plus one of a
clause that fails, or 0. -/
def visitWatches (l : Wire) (ws : Array Nat) : Nat → Array Nat → Search → Nat × Search
  | 0, kept, s => (0, { s with watches := s.watches.setIfInBounds l kept })
  | n + 1, kept, s =>
    let c := ws.getD (ws.size - (n + 1)) 0
    let first := s.arena.getD (c + 1) 0
    let other := if first == l then s.arena.getD (c + 2) 0 else first
    if s.value other == 1 then visitWatches l ws n (kept.push c) s
    else
      match s.openPlace (s.arena.getD c 0 - 2) (c + 3) with
      | some place =>
        let m := s.arena.getD place 0
        let s := { s with
          arena := ((s.arena.setIfInBounds (c + 1) other).setIfInBounds (c + 2) m).setIfInBounds
            place l
          watches := s.watches.modify m (·.push c) }
        visitWatches l ws n kept s
      | none =>
        if s.value other == 2 then
          let kept := (ws.extract (ws.size - (n + 1)) ws.size).foldl (·.push ·) kept
          (c + 1, { s with watches := s.watches.setIfInBounds l kept })
        else
          let s := { s with
            arena := (s.arena.setIfInBounds (c + 1) other).setIfInBounds (c + 2) l }
          visitWatches l ws n (kept.push c) (s.assign other (c + 1))

/-- Makes true what the clauses force.  Gives the place plus one of a clause that fails, or 0.  The
bound is on the length of the trail. -/
def propagate : Nat → Search → Nat × Search
  | 0, s => (0, s)
  | n + 1, s =>
    if s.head < s.trail.size then
      let l := Wire.not (s.trail.getD s.head 0)
      let ws := s.watches.getD l #[]
      let s := { s with head := s.head + 1, watches := s.watches.setIfInBounds l #[] }
      let (failed, s) := visitWatches l ws ws.size (Array.emptyWithCapacity ws.size) s
      if failed == 0 then propagate n s else (failed, s)
    else (0, s)

/-- Takes back the last literals of the trail down to a length. -/
def retract (length : Nat) : Nat → Search → Search
  | 0, s => s
  | n + 1, s =>
    if length < s.trail.size then
      let l := s.trail.back?.getD 0
      let v := l / 2
      let s := { s with
        trail := s.trail.pop
        values := (s.values.setIfInBounds l 0).setIfInBounds (Wire.not l) 0
        phases := s.phases.setIfInBounds v (if l % 2 == 0 then 1 else 2) }
      let s := if s.times.getD s.cursor 0 < s.times.getD v 0 then { s with cursor := v } else s
      retract length n s
    else s

def backTo (s : Search) (level : Nat) : Search :=
  if level < s.limits.size then
    let length := s.limits.getD level 0
    let s := retract length (s.trail.size + 1) s
    { s with limits := s.limits.shrink level, head := length }
  else s

/-! ## §3 Clauses -/

/-- Adds a clause of at least two literals whose first two are to be watched. -/
def attach (s : Search) (ls : Array Wire) : Nat × Search :=
  let c := s.arena.size
  let arena := ls.foldl (·.push ·) (s.arena.push ls.size)
  let watches := (s.watches.modify (ls.getD 0 0) (·.push c)).modify (ls.getD 1 0) (·.push c)
  (c, { s with arena, watches })

def addClause (s : Search) (ls : List Wire) : Search :=
  let ls := ls.eraseDups.filter fun l => s.value l != 2
  if s.failed || ls.any (fun l => s.value l == 1 || ls.contains (Wire.not l)) then s
  else
    match ls with
    | [] => { s with failed := true }
    | [l] => s.assign l 0
    | ls => (s.attach ls.toArray).2

/-! ## §4 Learning from failures -/

/-- A new clause under construction: its literals from earlier levels, how many variables of the
current level are still to be explained, and the variables marked. -/
structure Lesson where
  literals : Array Wire := #[]
  pending : Nat := 0
  marked : Array Nat := #[]

/-- Takes the literals of a clause from a place on into a lesson. -/
def absorb (skip : Wire) : Nat → Nat → Lesson → Search → Lesson × Search
  | 0, _, k, s => (k, s)
  | n + 1, place, k, s =>
    let l := s.arena.getD place 0
    let v := l / 2
    if l == skip || s.marks.getD v false || s.levels.getD v 0 == 0 then
      absorb skip n (place + 1) k s
    else
      let s := { s with marks := s.marks.setIfInBounds v true }
      let k := { k with marked := k.marked.push v }
      let k := if s.levels.getD v 0 == s.limits.size then { k with pending := k.pending + 1 }
        else { k with literals := k.literals.push l }
      absorb skip n (place + 1) k s

/-- Explains the failure of a clause by walking back along the trail to the last literal of the
current level through which everything passes.  The bound is on the steps back. -/
def explain : Nat → Nat → Wire → Nat → Lesson → Search → Wire × Lesson × Search
  | 0, _, skip, _, k, s => (skip, k, s)
  | n + 1, c, skip, place, k, s =>
    let (k, s) := absorb skip (s.arena.getD c 0) (c + 1) k s
    let place := lastMarked s place place
    let l := s.trail.getD (place - 1) 0
    let k := { k with pending := k.pending - 1 }
    if k.pending == 0 then (l, k, s)
    else explain n (s.reasons.getD (l / 2) 0 - 1) l (place - 1) k s
where
  /-- The place after the last marked variable on the trail before a place. -/
  lastMarked (s : Search) : Nat → Nat → Nat
    | 0, place => place
    | n + 1, place =>
      if s.marks.getD (s.trail.getD (place - 1) 0 / 2) false then place
      else lastMarked s n (place - 1)

/-- Whether a literal of a lesson follows from the others. -/
def isImplied (s : Search) (l : Wire) : Bool :=
  let reason := s.reasons.getD (l / 2) 0
  reason != 0 &&
    (List.range (s.arena.getD (reason - 1) 0)).all fun i =>
      let m := s.arena.getD (reason + i) 0
      m / 2 == l / 2 || s.marks.getD (m / 2) false || s.levels.getD (m / 2) 0 == 0

/-- The literal of the latest level goes first. -/
def latestFirst (s : Search) (ls : List Wire) : List Wire :=
  match ls.foldl
    (fun best l => match best with
      | none => some l
      | some m => if s.levels.getD (m / 2) 0 < s.levels.getD (l / 2) 0 then some l else some m)
    none with
  | some m => m :: ls.filter (· != m)
  | none => []

/-- Learns from a clause that fails and goes back to where the new clause forces a literal. -/
def learn (s : Search) (c : Nat) : Search :=
  let (l, k, s) := explain (s.trail.size + 1) c (2 * s.size) s.trail.size {} s
  let kept := k.literals.toList.filter fun m => !s.isImplied m
  let ordered := s.latestFirst kept
  let target := match ordered with
    | m :: _ => s.levels.getD (m / 2) 0
    | [] => 0
  let bumped := k.marked.toList.mergeSort fun v w => decide (s.times.getD v 0 ≤ s.times.getD w 0)
  let s := bumped.foldl
    (fun s v =>
      let s := s.bump v
      { s with marks := s.marks.setIfInBounds v false })
    s
  let s := s.backTo target
  match ordered with
  | [] => s.assign (Wire.not l) 0
  | ordered =>
    let (c, s) := s.attach (Wire.not l :: ordered).toArray
    s.assign (Wire.not l) (c + 1)

/-! ## §5 Search -/

def openVariable (s : Search) : Nat → Nat → Option Nat
  | 0, _ => none
  | n + 1, v =>
    if v == noVariable then none
    else if s.value (2 * v) == 0 then some v
    else openVariable s n (s.older.getD v noVariable)

def choose (s : Search) (v : Nat) : Search :=
  let l := if s.phases.getD v 2 == 1 then 2 * v else 2 * v + 1
  { s with limits := s.limits.push s.trail.size, cursor := v }.assign l 0

/-- The answer of a search: values that make all clauses true, or none; it may also give up. -/
inductive Answer where
  | satisfied | failed | open_
deriving DecidableEq, Repr, Inhabited

/-- Searches; `patience` failures are left before all choices are taken back, which happens after
more and more failures.  The bound is on the number of steps. -/
def run : Nat → Nat → Nat → Search → Answer × Search
  | 0, _, _, s => (.open_, s)
  | n + 1, patience, span, s =>
    if s.failed then (.failed, s)
    else
      let (failed, s) := propagate (s.size + 1) s
      if failed != 0 then
        if s.limits.size == 0 then (.failed, { s with failed := true })
        else run n (patience - 1) span (s.learn (failed - 1))
      else if patience == 0 then
        run n (span + span / 8) (span + span / 8) (s.backTo 0)
      else
        match s.openVariable (s.size + 1) s.cursor with
        | none => (.satisfied, s)
        | some v => run n patience span (s.choose v)

def stepBound : Nat := 1000000000

def solve (s : Search) : Answer × Search :=
  run stepBound 100 100 (s.backTo 0)

end Search

end Antecedent.Decide
