import Std.Data.HashMap

/-!
# Circuits

Truth values as wires of a circuit of gates.  A gate is built once, and gates whose result is clear
from their inputs are not built at all.

A wire is a number: twice the number of a gate, plus one for its negation.  Gate zero is false.
-/

namespace Antecedent.Decide

abbrev Wire := Nat

namespace Wire

def off : Wire := 0

def on : Wire := 1

def ofBool (b : Bool) : Wire := if b then on else off

def not (a : Wire) : Wire := a ^^^ 1

def isNegated (a : Wire) : Bool := a % 2 == 1

/-- The wire of the gate without its negation. -/
def plain (a : Wire) : Wire := a - a % 2

def notIf (b : Bool) (a : Wire) : Wire := if b then not a else a

end Wire

/-- Gates: an input, conjunction, difference, majority of three, and choice. -/
inductive Gate where
  | input
  | and (a b : Wire)
  | xor (a b : Wire)
  | maj (a b c : Wire)
  | mux (c a b : Wire)
deriving DecidableEq, Hashable, Repr, Inhabited

/-- A circuit: its gates, each built from earlier ones, and where they are. -/
structure Circuit where
  gates : Array Gate := #[.input]
  places : Std.HashMap Gate Nat := {}

abbrev Wiring := StateM Circuit

namespace Wiring

def input : Wiring Wire :=
  modifyGet fun c => (2 * c.gates.size, { c with gates := c.gates.push .input })

/-- The wire of a gate, built unless it is there. -/
def gate (g : Gate) : Wiring Wire :=
  modifyGet fun c =>
    match c.places[g]? with
    | some n => (2 * n, c)
    | none =>
      let n := c.gates.size
      (2 * n, { gates := c.gates.push g, places := c.places.insert g n })

def and (a b : Wire) : Wiring Wire :=
  if a == Wire.off || b == Wire.off || a == Wire.not b then return Wire.off
  else if a == Wire.on || a == b then return b
  else if b == Wire.on then return a
  else gate (if a < b then .and a b else .and b a)

def or (a b : Wire) : Wiring Wire := do
  return Wire.not (← and (Wire.not a) (Wire.not b))

def xor (a b : Wire) : Wiring Wire := do
  let flip := Wire.isNegated a != Wire.isNegated b
  let a := Wire.plain a
  let b := Wire.plain b
  if a == b then return Wire.notIf flip Wire.off
  else if a == Wire.off then return Wire.notIf flip b
  else if b == Wire.off then return Wire.notIf flip a
  else return Wire.notIf flip (← gate (if a < b then .xor a b else .xor b a))

def iff (a b : Wire) : Wiring Wire := do
  return Wire.not (← xor a b)

def sort3 (a b c : Wire) : Wire × Wire × Wire :=
  let (a, b) := if a ≤ b then (a, b) else (b, a)
  let (b, c) := if b ≤ c then (b, c) else (c, b)
  let (a, b) := if a ≤ b then (a, b) else (b, a)
  (a, b, c)

def maj (a b c : Wire) : Wiring Wire := do
  let (a, b, c) := sort3 a b c
  -- Constants come first in the order, and opposite wires are neighbours.
  if a == Wire.off then and b c
  else if a == Wire.on then or b c
  else if a == b then return a
  else if b == c then return b
  else if a == Wire.not b then return c
  else if b == Wire.not c then return a
  else gate (.maj a b c)

def mux (c a b : Wire) : Wiring Wire := do
  if c == Wire.on || a == b then return a
  else if c == Wire.off then return b
  else if a == Wire.on || a == c then or c b
  else if a == Wire.off || a == Wire.not c then and (Wire.not c) b
  else if b == Wire.on || b == Wire.not c then or (Wire.not c) a
  else if b == Wire.off || b == c then and c a
  else if a == Wire.not b then iff c a
  else if Wire.isNegated c then gate (.mux (Wire.not c) b a)
  else gate (.mux c a b)

def all : List Wire → Wiring Wire
  | [] => return Wire.on
  | a :: as => do and a (← all as)

def any : List Wire → Wiring Wire
  | [] => return Wire.off
  | a :: as => do or a (← any as)

end Wiring

end Antecedent.Decide
