import Antecedent.Term.Basic

/-!
# Values and states

Terms take their values in a state, which gives every named constant and every function symbol a
meaning.  A memory is a fill byte and finitely many cells that differ from it, which covers every
memory because addresses have a width.
-/

namespace Antecedent

/-! ## §1 Memories -/

/-- A memory: the byte of every address that has no cell, and cells by address.  The first cell of
an address counts. -/
structure Memory where
  fill : Nat := 0
  cells : List (Nat × Nat) := []
deriving Repr, Inhabited

namespace Memory

def get (m : Memory) (address : Nat) : Nat :=
  (m.cells.lookup address).getD m.fill % 256

def set (m : Memory) (address byte : Nat) : Memory :=
  { m with cells := (address, byte) :: m.cells }

/-- Whether two memories hold the same byte at every address of a width: at every cell of either,
and, unless the cells cover all addresses, in the fill. -/
def agree (addressWidth : Nat) (m n : Memory) : Bool :=
  let keys := ((m.cells ++ n.cells).map (·.1)).filter (· < Nat.pow 2 addressWidth)
  keys.all (fun k => m.get k == n.get k)
    && (m.fill % 256 == n.fill % 256 || keys.eraseDups.length == Nat.pow 2 addressWidth)

@[simp] theorem get_set_self (m : Memory) (a b : Nat) : (m.set a b).get a = b % 256 := by
  simp [get, set]

theorem get_set_ne (m : Memory) {a a' : Nat} (b : Nat) (h : a' ≠ a) :
    (m.set a b).get a' = m.get a' := by
  have : (a' == a) = false := by simpa using h
  simp [get, set, List.lookup_cons, this]

end Memory

/-! ## §2 Values -/

/-- The value of a term: a truth value, a bit vector of a width, or a memory with addresses of a
width. -/
inductive Value where
  | bool (b : Bool)
  | bits (width value : Nat)
  | memory (addressWidth : Nat) (m : Memory)
deriving Repr, Inhabited

namespace Value

def isTrue : Value → Bool
  | .bool b => b
  | _ => false

def toNat : Value → Nat
  | .bits _ n => n
  | _ => 0

/-- Whether two values are equal; memories are compared byte by byte. -/
def same : Value → Value → Bool
  | .bool a, .bool b => a == b
  | .bits v m, .bits w n => v == w && m == n
  | .memory a m, .memory b n => a == b && m.agree a n
  | _, _ => false

end Value

/-! ## §3 Operators on values -/

/-- Division, remainder and shifts follow SMT-LIB: a zero divisor gives all ones (or the dividend
for a remainder), and a shift by the width or more leaves no bit of the operand but its sign. -/
def Arith.eval {w : Nat} (f : Arith) (x y : BitVec w) : BitVec w :=
  match f with
  | .add => x + y
  | .sub => x - y
  | .mul => x * y
  | .udiv => x.smtUDiv y
  | .sdiv => x.smtSDiv y
  | .urem => x.umod y
  | .srem => x.srem y
  | .and => x &&& y
  | .or => x ||| y
  | .xor => x ^^^ y
  | .shl => if w ≤ y.toNat then 0#w else x <<< y.toNat
  | .lshr => if w ≤ y.toNat then 0#w else x >>> y.toNat
  | .ashr => x.sshiftRight (min y.toNat w)

def Order.eval {w : Nat} (r : Order) (x y : BitVec w) : Bool :=
  match r with
  | .ult => x.ult y
  | .ule => x.ule y
  | .ugt => y.ult x
  | .uge => y.ule x
  | .slt => x.slt y
  | .sle => x.sle y
  | .sgt => y.slt x
  | .sge => y.sle x

/-- A left fold of an operator over the remaining arguments. -/
def Arith.evalAll (f : Arith) (w : Nat) (x : BitVec w) : List Value → BitVec w
  | [] => x
  | v :: vs => Arith.evalAll f w (f.eval x (BitVec.ofNat w v.toNat)) vs

def concatValues : List Value → Nat × Nat
  | [] => (0, 0)
  | v :: vs =>
    let (w, n) := concatValues vs
    match v with
    | .bits w' m => (w' + w, m * Nat.pow 2 w + n)
    | _ => (w, n)

def allDistinct : List Value → Bool
  | [] => true
  | v :: vs => vs.all (fun u => !v.same u) && allDistinct vs

def Value.ofBitVec {w : Nat} (x : BitVec w) : Value :=
  .bits w x.toNat

/-! ## §4 States -/

/-- A state: what every Boolean, bit-vector and memory constant holds, and what every function
symbol gives on its arguments.  Constants of one name and different sorts are different. -/
structure State where
  flag : Symbol → Bool
  word : Symbol → Nat → Nat
  memory : Symbol → Nat → Memory
  apply : Symbol → List Srt → Nat → List Value → Nat

/-- The state in which every constant is zero, false or empty and every function is zero. -/
def State.zero : State where
  flag _ := false
  word _ _ := 0
  memory _ _ := {}
  apply _ _ _ _ := 0

instance : Inhabited State := ⟨State.zero⟩

def State.const (s : State) (name : Symbol) : Srt → Value
  | .bool => .bool (s.flag name)
  | .bits w => .bits w (s.word name w % Nat.pow 2 w)
  | .memory a => .memory a (s.memory name a)

/-- The value of an application.  Arguments that do not fit give false. -/
def Op.eval (s : State) (op : Op) (args : List Value) : Value :=
  match op, args with
  | .not, [v] => .bool (!v.isTrue)
  | .and, vs => .bool (vs.all Value.isTrue)
  | .or, vs => .bool (vs.any Value.isTrue)
  | .xor, [v] => v
  | .xor, [u, v] => .bool (u.isTrue != v.isTrue)
  | .implies, [u, v] => .bool (!u.isTrue || v.isTrue)
  | .eq, [u, v] => .bool (u.same v)
  | .distinct, vs => .bool (allDistinct vs)
  | .ite, [c, u, v] => if c.isTrue then u else v
  | .neg, [.bits w n] => .ofBitVec (-BitVec.ofNat w n)
  | .complement, [.bits w n] => .ofBitVec (~~~BitVec.ofNat w n)
  | .arith f, .bits w n :: rest => .ofBitVec (f.evalAll w (BitVec.ofNat w n) rest)
  | .order r, [.bits w m, .bits _ n] => .bool (r.eval (BitVec.ofNat w m) (BitVec.ofNat w n))
  | .comp, [u, v] => .bits 1 (if u.same v then 1 else 0)
  | .concat, vs => let (w, n) := concatValues vs; .bits w n
  | .extract hi lo, [.bits _ n] => .bits (hi - lo + 1) (n / Nat.pow 2 lo % Nat.pow 2 (hi - lo + 1))
  | .zeroExtend k, [.bits w n] => .bits (w + k) n
  | .signExtend k, [.bits w n] => .ofBitVec ((BitVec.ofNat w n).signExtend (w + k))
  | .select, [.memory _ m, .bits _ i] => .bits 8 (m.get i)
  | .store, [.memory a m, .bits _ i, .bits _ b] => .memory a (m.set i b)
  | .apply name domain w, vs => .bits w (s.apply name domain w vs % Nat.pow 2 w)
  | _, _ => .bool false

mutual
def Term.eval (s : State) : Term → Value
  | .lit b => .bool b
  | .num w n => .bits w n
  | .const name srt => s.const name srt
  | .app op args => op.eval s (Term.evalList s args)
def Term.evalList (s : State) : List Term → List Value
  | [] => []
  | t :: ts => Term.eval s t :: Term.evalList s ts
end

def Term.holds (s : State) (t : Term) : Bool :=
  (t.eval s).isTrue

theorem Term.evalList_eq_map (s : State) (ts : List Term) :
    Term.evalList s ts = ts.map (Term.eval s) := by
  induction ts with
  | nil => simp [Term.evalList]
  | cons t ts ih => simp [Term.evalList, ih]

end Antecedent
