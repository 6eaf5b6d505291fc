import Antecedent.Fault
import Antecedent.Number.Binary64

/-!
# Labels

A label names something in a document: a block, a variable, a subroutine, a member of an object.
Documents mostly use texts, but every simple value will do.

Labels that are written differently can be the same label: numbers count by their value, and the
Booleans as one and zero.  `Label.same` says when, and `Label.before` is the order of labels.
-/

namespace Antecedent

inductive Label where
  | null
  | bool (b : Bool)
  | int (n : Int)
  | float (x : Binary64)
  | text (s : String)
deriving DecidableEq, Hashable, Repr, Inhabited

instance : Coe String Label := ⟨.text⟩

namespace Label

/-! ## §1 Sameness and order -/

/-- The exact value of a number as a signed quotient. -/
def ratio? : Label → Option (Int × Nat)
  | .int n => some (n, 1)
  | .bool b => some (if b then 1 else 0, 1)
  | .float x =>
    x.magnitude?.map fun (num, den) => (if x.isNegative then -(num : Int) else (num : Int), den)
  | _ => none

def same : Label → Label → Bool
  | .null, .null => true
  | .text s, .text t => s == t
  | .float (.infinity s), .float (.infinity t) => s == t
  | a, b =>
    match a.ratio?, b.ratio? with
    | some (m, d), some (n, e) => m * e == n * d
    | _, _ => false

/-- Whether a label comes before another; labels of different kinds have no order. -/
def before : Label → Label → Except Fault Bool
  | .text s, .text t => .ok (decide (s < t))
  | .float .nan, .float _ | .float .nan, .int _ | .float .nan, .bool _ => .ok false
  | .float _, .float .nan | .int _, .float .nan | .bool _, .float .nan => .ok false
  | .float (.infinity s), .float (.infinity t) => .ok (s && !t)
  | .float (.infinity s), .float _ | .float (.infinity s), .int _
  | .float (.infinity s), .bool _ => .ok s
  | .float _, .float (.infinity t) | .int _, .float (.infinity t)
  | .bool _, .float (.infinity t) => .ok (!t)
  | a, b =>
    match a.ratio?, b.ratio? with
    | some (m, d), some (n, e) => .ok (decide (m * e < n * d))
    | _, _ => .error .wrongType

@[simp] theorem same_text (s t : String) : same (.text s) (.text t) = (s == t) := rfl

theorem eq_of_same_text {l : Label} {s : String} (h : l.same (.text s) = true) : l = .text s := by
  cases l with
  | text t => simpa using h
  | null => simp [same, ratio?] at h
  | bool b => simp [same, ratio?] at h
  | int n => simp [same, ratio?] at h
  | float x => cases x <;> simp [same, ratio?] at h

def isAmong (l : Label) (ls : List Label) : Bool :=
  ls.any (same l)

/-- The labels of a list, each once, as it is written first. -/
def distinct (ls : List Label) : List Label :=
  ls.foldl (fun found l => if l.isAmong found then found else found ++ [l]) []

/-- The first label of a list that is the same as a given one, or else the given one. -/
def among (known : List Label) (l : Label) : Label :=
  (known.find? (same l)).getD l

/-- Inserts a value before the first one that does not precede it. -/
def insertBy {α : Type} (before : α → α → Except Fault Bool) (x : α) :
    List α → Except Fault (List α)
  | [] => .ok [x]
  | y :: ys => do
    if ← before y x then return y :: (← insertBy before x ys) else return x :: y :: ys

/-- Values in ascending order; those of one rank keep their order, and values without an order are a
fault. -/
def sortBy {α : Type} (before : α → α → Except Fault Bool) : List α → Except Fault (List α)
  | [] => .ok []
  | x :: xs => do insertBy before x (← sortBy before xs)

def sorted (ls : List Label) : Except Fault (List Label) :=
  sortBy before (distinct ls)

/-! ## §2 Text

How messages and listings show a label: texts in quotes, `None`, `True` and `False` for the
constants. -/

def displayFloat : Binary64 → String
  | .nan => "nan"
  | .infinity s => if s then "-inf" else "inf"
  | x => x.toText

def display : Label → String
  | .null => "None"
  | .bool b => if b then "True" else "False"
  | .int n => toString n
  | .float x => displayFloat x
  | .text s => Text.quoted s

/-- A label inside running text: a text is shown without quotes. -/
def inText : Label → String
  | .text s => s
  | l => l.display

def keyText : Label → String
  | .null => "null"
  | .bool b => if b then "true" else "false"
  | .int n => toString n
  | .float x => x.toText
  | .text s => s

end Label

end Antecedent
