/-!
# Name patterns

Patterns that select names, as they are written: characters and classes, repetition, alternatives,
groups with backward references, and tests of what stands around a place.  Characters are code
points, since a pattern may name code points that no text holds.
-/

namespace Antecedent.Pattern

/-! ## §1 Options -/

/-- The options that a pattern, or a group of it, is read under. -/
structure Flags where
  ignoreCase : Bool := false
  everyLine : Bool := false
  withLineBreak : Bool := false
  verbose : Bool := false
  asciiOnly : Bool := false
  anyScript : Bool := false
  plain : Bool := false
deriving DecidableEq, Repr, Inhabited

namespace Flags

def union (a b : Flags) : Flags where
  ignoreCase := a.ignoreCase || b.ignoreCase
  everyLine := a.everyLine || b.everyLine
  withLineBreak := a.withLineBreak || b.withLineBreak
  verbose := a.verbose || b.verbose
  asciiOnly := a.asciiOnly || b.asciiOnly
  anyScript := a.anyScript || b.anyScript
  plain := a.plain || b.plain

def without (a b : Flags) : Flags where
  ignoreCase := a.ignoreCase && !b.ignoreCase
  everyLine := a.everyLine && !b.everyLine
  withLineBreak := a.withLineBreak && !b.withLineBreak
  verbose := a.verbose && !b.verbose
  asciiOnly := a.asciiOnly && !b.asciiOnly
  anyScript := a.anyScript && !b.anyScript
  plain := a.plain && !b.plain

/-- Whether the options choose the scripts that categories range over. -/
def choosesScript (f : Flags) : Bool :=
  f.asciiOnly || f.anyScript

/-- The options after some are turned on and some off; a choice of scripts replaces the earlier
one. -/
def change (f on off : Flags) : Flags :=
  let kept := if on.choosesScript then { f with asciiOnly := false, anyScript := false } else f
  (kept.union on).without off

end Flags

/-! ## §2 Widths -/

/-- Numbers of repetitions are below this one, which also stands for no bound. -/
def noBound : Nat := 4294967295

structure Width where
  least : Nat := 0
  most : Nat := 0
deriving DecidableEq, Repr, Inhabited

namespace Width

def plus (v w : Width) : Width :=
  ⟨v.least + w.least, v.most + w.most⟩

def either (v w : Width) : Width :=
  ⟨min v.least w.least, max v.most w.most⟩

def cut (w : Width) : Width :=
  ⟨min w.least (noBound - 1), min w.most noBound⟩

end Width

/-! ## §3 Patterns -/

inductive Category where
  | digit | space | word
deriving DecidableEq, Repr, Inhabited

inductive Member where
  | code (n : Nat)
  | range (low high : Nat)
  | category (kind : Category) (negated : Bool)
deriving DecidableEq, Repr, Inhabited

inductive Place where
  | lineStart | lineEnd | textStart | textEnd | boundary | inside
deriving DecidableEq, Repr, Inhabited

/-- In which order numbers of repetitions are tried; a possessive repetition keeps its first. -/
inductive Mode where
  | greedy | lazy | possessive
deriving DecidableEq, Repr, Inhabited

/-- The parts of patterns.  The parts of a row stand one after the other. -/
inductive Node where
  | code (n : Nat)
  | otherThan (n : Nat)
  | anything
  | oneOf (negated : Bool) (members : List Member)
  | place (p : Place)
  | choice (branches : List (List Node))
  | again (least : Nat) (most : Option Nat) (mode : Mode) (body : List Node)
  /-- A group under changed options, captured if it has a number. -/
  | group (index : Option Nat) (on off : Flags) (body : List Node)
  | atomic (body : List Node)
  /-- What follows, or what stands before in as many characters as the body takes. -/
  | look (behind : Option Width) (negated : Bool) (body : List Node)
  | sameAs (index : Nat)
  | ifGroup (index : Nat) (yes no : List Node)
deriving Repr, Inhabited

/-- Whether two parts without parts of their own are the same. -/
def Node.same : Node → Node → Bool
  | .code m, .code n => m == n
  | .otherThan m, .otherThan n => m == n
  | .anything, .anything => true
  | .oneOf b ms, .oneOf c ns => b == c && ms == ns
  | .place p, .place q => p == q
  | .sameAs i, .sameAs j => i == j
  | _, _ => false

/-- A group that only holds its body together. -/
def Node.held? : Node → Option (List Node)
  | .group none on off body => if on == {} && off == {} then some body else none
  | _ => none

/-! ## §4 Widths of patterns -/

mutual
/-- The width of a part, given those of the groups. -/
def Node.width (groups : List (Nat × Width)) : Node → Width
  | .code _ | .otherThan _ | .anything | .oneOf _ _ => ⟨1, 1⟩
  | .place _ | .look _ _ _ => {}
  | .choice branches => eitherWidth groups branches
  | .again least most _ body =>
    let w := (sumWidth groups body).cut
    ⟨w.least * least, w.most * most.getD noBound⟩
  | .group _ _ _ body | .atomic body => (sumWidth groups body).cut
  | .sameAs index => (groups.lookup index).getD {}
  | .ifGroup _ yes no => (sumWidth groups yes).cut.either (sumWidth groups no).cut
def sumWidth (groups : List (Nat × Width)) : List Node → Width
  | [] => {}
  | n :: row => (n.width groups).plus (sumWidth groups row)
def eitherWidth (groups : List (Nat × Width)) : List (List Node) → Width
  | [] => {}
  | [row] => (sumWidth groups row).cut
  | row :: rows => (sumWidth groups row).cut.either (eitherWidth groups rows)
end

/-- The width of a row, given those of the groups. -/
def rowWidth (groups : List (Nat × Width)) (row : List Node) : Width :=
  (sumWidth groups row).cut

end Antecedent.Pattern
