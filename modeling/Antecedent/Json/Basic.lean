import Antecedent.Label

/-!
# JSON values

Values of the interchange format.  Integers have any size and are kept apart from binary64 numbers.
An object is a list of members in the order of their first appearance, each key once.  The keys of a
document are texts, but an object that is built from pairs may have any label as a key.
-/

namespace Antecedent

inductive Json where
  | null
  | bool (b : Bool)
  | int (n : Int)
  | float (x : Binary64)
  | str (s : String)
  | arr (items : List Json)
  | obj (members : List (Label × Json))
deriving Repr, Inhabited

def Label.toJson : Label → Json
  | .null => .null
  | .bool b => .bool b
  | .int n => .int n
  | .float x => .float x
  | .text s => .str s

namespace Json

/-- The label that a value is; an array and an object are none. -/
def label? : Json → Option Label
  | .null => some .null
  | .bool b => some (.bool b)
  | .int n => some (.int n)
  | .float x => some (.float x)
  | .str s => some (.text s)
  | .arr _ | .obj _ => none

def label (j : Json) : Except Fault Label :=
  match j.label? with
  | some l => .ok l
  | none => .error .wrongType

/-! ## §1 Members -/

/-- Sets a member: an old key keeps its place and takes the new value, a new key goes last. -/
def setMember (k : Label) (v : Json) : List (Label × Json) → List (Label × Json)
  | [] => [(k, v)]
  | (k', v') :: ms => if k'.same k then (k', v) :: ms else (k', v') :: setMember k v ms

/-- An object from members in reading order; the last value of a repeated key counts. -/
def ofMembers (ms : List (Label × Json)) : Json :=
  .obj (ms.foldl (fun acc (k, v) => setMember k v acc) [])

def findMember? (k : Label) (ms : List (Label × Json)) : Option Json :=
  (ms.find? (·.1.same k)).map (·.2)

/-- The value of a key; a value that is no object has none. -/
def get? (j : Json) (k : Label) : Option Json :=
  match j with
  | .obj ms => findMember? k ms
  | _ => none

/-! ## §2 Views -/

/-- Empty and zero values, and the two negative constants, count as false. -/
def truthy : Json → Bool
  | .null => false
  | .bool b => b
  | .int n => n != 0
  | .float (.finite _ m _) => m != 0
  | .float _ => true
  | .str s => !s.isEmpty
  | .arr items => !items.isEmpty
  | .obj members => !members.isEmpty

def int? : Json → Option Int
  | .int n => some n
  | .bool b => some (if b then 1 else 0)
  | _ => none

def str? : Json → Option String
  | .str s => some s
  | _ => none

/-! ## §3 Display

How messages and listings show a value: labels as they are shown elsewhere, and brackets with a
comma and a blank between items. -/

mutual
def display : Json → String
  | .null => Label.null.display
  | .bool b => (Label.bool b).display
  | .int n => (Label.int n).display
  | .float x => (Label.float x).display
  | .str s => (Label.text s).display
  | .arr items => "[" ++ ", ".intercalate (displayItems items) ++ "]"
  | .obj members => "\x7b" ++ ", ".intercalate (displayMembers members) ++ "\x7d"
def displayItems : List Json → List String
  | [] => []
  | j :: js => display j :: displayItems js
def displayMembers : List (Label × Json) → List String
  | [] => []
  | (k, j) :: ms => (k.display ++ ": " ++ display j) :: displayMembers ms
end

/-- A value inside running text: a string is shown without quotes. -/
def inText : Json → String
  | .str s => s
  | j => display j

/-! ## §4 Comparison

Two values are alike when they are equal as data: labels that are the same, arrays with alike
items, and objects with alike members in any order.  Labels of one kind and arrays have an order;
other pairs have none. -/

mutual
def alike : Json → Json → Bool
  | .arr xs, .arr ys => alikeItems xs ys
  | .obj ms, .obj ns => ms.length == ns.length && alikeMembers ms ns
  | a, b =>
    match a.label?, b.label? with
    | some k, some l => k.same l
    | _, _ => false
def alikeItems : List Json → List Json → Bool
  | [], [] => true
  | x :: xs, y :: ys => alike x y && alikeItems xs ys
  | _, _ => false
def alikeMembers : List (Label × Json) → List (Label × Json) → Bool
  | [], _ => true
  | (k, v) :: ms, ns =>
    (match findMember? k ns with
      | some w => alike v w
      | none => false) && alikeMembers ms ns
end

mutual
/-- Whether a value comes before another; a pair without an order is a fault. -/
def before : Json → Json → Except Fault Bool
  | .arr xs, .arr ys => beforeItems xs ys
  | a, b => do (← a.label).before (← b.label)
def beforeItems : List Json → List Json → Except Fault Bool
  | [], [] => .ok false
  | [], _ :: _ => .ok true
  | _ :: _, [] => .ok false
  | x :: xs, y :: ys => if alike x y then beforeItems xs ys else before x y
end

end Json

end Antecedent
