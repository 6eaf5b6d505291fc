/-!
# Terms

Terms over Booleans, bit vectors and byte memories, in the vocabulary of SMT-LIB.  A term is a
literal, a numeral, a named constant or an operator applied to arguments; nothing is simplified.

* `Srt` and `Op` are the sorts and the operators, `Op.sort?` says which arguments an operator takes.
* `Term` is the type of terms; its hash is kept in every node and comparison starts with it, so that
  tables of shared subterms stay cheap.
-/

namespace Antecedent

/-- Sorts: truth values, bit vectors of a width, and memories of bytes with addresses of a width. -/
inductive Srt where
  | bool
  | bits (width : Nat)
  | memory (addressWidth : Nat)
deriving DecidableEq, Hashable, Repr, Inhabited

def Srt.text : Srt → String
  | .bool => "bool"
  | .bits w => s!"bv{w}"
  | .memory a => s!"mem{a}"

/-- The name of a constant or of a function: a text, a number, or none at all.  A hidden symbol is
one that no document can write. -/
inductive Symbol where
  | text (s : String)
  | number (n : Nat)
  | anonymous
  | hidden (s : String)
deriving DecidableEq, Hashable, Repr, Inhabited

namespace Symbol

/-- The symbol of a text, which ends at the first null character; the empty text names nothing. -/
def ofText (s : String) : Symbol :=
  let cs := s.toList.takeWhile (· != '\x00')
  if cs.isEmpty then .anonymous else .text (String.ofList cs)

def shown : Symbol → String
  | .text s => s
  | .number n => s!"k!{n}"
  | .anonymous => "<null>"
  | .hidden s => s

end Symbol

/-- Operators on two bit vectors of one width that give a third. -/
inductive Arith where
  | add | sub | mul | udiv | sdiv | urem | srem | and | or | xor | shl | lshr | ashr
deriving DecidableEq, Hashable, Repr, Inhabited

inductive Order where
  | ult | ule | ugt | uge | slt | sle | sgt | sge
deriving DecidableEq, Hashable, Repr, Inhabited

/-- Operators.  `apply` is a function symbol without an interpretation, with the sorts of its
arguments and the width of its result. -/
inductive Op where
  | not | and | or | xor | implies
  | eq | distinct | ite
  | neg | complement
  | arith (f : Arith)
  | order (r : Order)
  | comp
  | concat
  | extract (hi lo : Nat)
  | zeroExtend (extra : Nat)
  | signExtend (extra : Nat)
  | select | store
  | apply (name : Symbol) (domain : List Srt) (width : Nat)
deriving DecidableEq, Hashable, Repr, Inhabited

/-- Whether an operator on bit vectors takes any number of arguments; the others take two. -/
def Arith.isNary : Arith → Bool
  | .add | .mul | .and | .or | .xor => true
  | _ => false

/-- The width of the concatenation of bit vectors, if all of the sorts are bit vectors. -/
def concatWidth? : List Srt → Option Nat
  | [] => some 0
  | .bits w :: rest => (concatWidth? rest).map (w + ·)
  | _ :: _ => none

/-- The sort of an application, if the arguments fit the operator. -/
def Op.sort? (op : Op) (args : List Srt) : Option Srt :=
  match op, args with
  | .not, [.bool] => some .bool
  | .and, s :: rest | .or, s :: rest => if (s :: rest).all (· == .bool) then some .bool else none
  | .xor, [.bool] | .xor, [.bool, .bool] => some .bool
  | .implies, [.bool, .bool] => some .bool
  | .eq, [s, t] => if s = t then some .bool else none
  | .distinct, s :: rest => if rest.all (· == s) then some .bool else none
  | .ite, [.bool, s, t] => if s = t then some s else none
  | .neg, [.bits w] => some (.bits w)
  | .complement, [.bits w] => some (.bits w)
  | .arith f, .bits w :: rest =>
    if rest.all (· == .bits w) && (rest.length == 1 || f.isNary) then some (.bits w) else none
  | .order _, [.bits v, .bits w] => if v = w then some .bool else none
  | .comp, [.bits v, .bits w] => if v = w then some (.bits 1) else none
  | .concat, s :: rest => (concatWidth? (s :: rest)).map .bits
  | .extract hi lo, [.bits w] => if lo ≤ hi ∧ hi < w then some (.bits (hi - lo + 1)) else none
  | .zeroExtend k, [.bits w] => some (.bits (w + k))
  | .signExtend k, [.bits w] => some (.bits (w + k))
  | .select, [.memory a, .bits v] => if v = a then some (.bits 8) else none
  | .store, [.memory a, .bits v, .bits b] => if v = a ∧ b = 8 then some (.memory a) else none
  | .apply _ domain w, args => if args = domain then some (.bits w) else none
  | _, _ => none

/-- Terms.  A numeral's value lies below the power of two of its width. -/
inductive Term where
  | lit (b : Bool)
  | num (width value : Nat)
  | const (name : Symbol) (sort : Srt)
  | app (op : Op) (args : List Term)
with
  /-- A hash of the whole term, kept in every node. -/
  @[computed_field] hashCode : Term → UInt64
    | .lit b => mixHash 3 (hash b)
    | .num w n => mixHash (hash w) (hash n)
    | .const name s => mixHash (hash name) (hash s)
    | .app op args => args.foldl (fun h t => mixHash h t.hashCode) (hash op)

namespace Term

instance : Inhabited Term := ⟨.lit true⟩

instance : Hashable Term := ⟨Term.hashCode⟩

/-! ## §1 Equality

Comparison looks at the addresses first and then at the hashes, so it is quick on shared terms. -/

mutual
def decEq (s t : Term) : Decidable (s = t) :=
  withPtrEqDecEq s t fun _ =>
    if hh : s.hashCode ≠ t.hashCode then isFalse fun h => hh (h ▸ rfl)
    else match s, t with
      | .lit a, .lit b => if h : a = b then isTrue (h ▸ rfl) else isFalse (by simp [h])
      | .num v m, .num w n =>
        if h : v = w ∧ m = n then isTrue (by simp [h.1, h.2])
        else isFalse (by simpa using h)
      | .const m s, .const n t =>
        if h : m = n ∧ s = t then isTrue (by simp [h.1, h.2])
        else isFalse (by simpa using h)
      | .app f xs, .app g ys =>
        if h : f = g then
          match decEqList xs ys with
          | isTrue h' => isTrue (by simp [h, h'])
          | isFalse h' => isFalse (by simp [h'])
        else isFalse (by simp [h])
      | .lit _, .num _ _ | .lit _, .const _ _ | .lit _, .app _ _
      | .num _ _, .lit _ | .num _ _, .const _ _ | .num _ _, .app _ _
      | .const _ _, .lit _ | .const _ _, .num _ _ | .const _ _, .app _ _
      | .app _ _, .lit _ | .app _ _, .num _ _ | .app _ _, .const _ _ => isFalse (by simp)
def decEqList (xs ys : List Term) : Decidable (xs = ys) :=
  match xs, ys with
  | [], [] => isTrue rfl
  | [], _ :: _ => isFalse (by simp)
  | _ :: _, [] => isFalse (by simp)
  | x :: xs, y :: ys =>
    match decEq x y with
    | isTrue h =>
      match decEqList xs ys with
      | isTrue h' => isTrue (by simp [h, h'])
      | isFalse h' => isFalse (by simp [h'])
    | isFalse h => isFalse (by simp [h])
end

instance : DecidableEq Term := decEq

/-! ## §2 Sorts -/

/-- The sort of a well-formed term, read off its outermost operator and, where that is not enough,
its arguments. -/
def sort : Term → Srt
  | .lit _ => .bool
  | .num w _ => .bits w
  | .const _ s => s
  | .app op args =>
    match op, args with
    | .ite, _ :: t :: _ => t.sort
    | .neg, t :: _ | .complement, t :: _ | .arith _, t :: _ | .store, t :: _ => t.sort
    | .comp, _ => .bits 1
    | .concat, args => .bits (concatWidth args)
    | .extract hi lo, _ => .bits (hi - lo + 1)
    | .zeroExtend k, t :: _ | .signExtend k, t :: _ =>
      match t.sort with
      | .bits w => .bits (w + k)
      | s => s
    | .select, _ => .bits 8
    | .apply _ _ w, _ => .bits w
    | _, _ => .bool
where
  /-- The sum of the widths of bit vectors. -/
  concatWidth : List Term → Nat
    | [] => 0
    | t :: ts =>
      match t.sort with
      | .bits w => w + concatWidth ts
      | _ => concatWidth ts

/-- The width of a bit vector; other terms have none. -/
def width? (t : Term) : Option Nat :=
  match t.sort with
  | .bits w => some w
  | _ => none

def isNumeral : Term → Bool
  | .num _ _ => true
  | _ => false

/-- The numeral of a width for an integer, reduced modulo the power of two. -/
def numeral (width : Nat) (value : Int) : Term :=
  .num width (value % Nat.pow 2 width).toNat

/-- The constant that stands for paths cut by unrolling. -/
def loopCut : Term :=
  .const (.text "__binwp_loop_cut") .bool

/-- Whether a formula is the false literal. -/
def isFalse : Term → Bool
  | .lit false => true
  | _ => false

theorem isFalse_iff {t : Term} : t.isFalse = true ↔ t = .lit false := by
  unfold isFalse
  split <;> simp_all

mutual
/-- Whether a term holds no named constant. -/
def isGround : Term → Bool
  | .lit _ => true
  | .num _ _ => true
  | .const _ _ => false
  | .app _ args => areGround args
def areGround : List Term → Bool
  | [] => true
  | t :: ts => isGround t && areGround ts
end

end Term

end Antecedent
