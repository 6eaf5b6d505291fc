import Antecedent.Fault
import Antecedent.Program.Basic
import Antecedent.Term.Basic

/-!
# Building terms

Applications of operators with their sorts checked, and the operations on machine words and byte
memories that the analysis puts together from them.

An equality or a signed comparison with a numeral on the right, and none on the left, is written
with the numeral first.
-/

namespace Antecedent.Term

/-! ## §1 Checked applications -/

def mk (op : Op) (args : List Term) : Except Fault Term :=
  if (op.sort? (args.map Term.sort)).isSome then .ok (.app op args) else .error .illSorted

def width (t : Term) : Except Fault Nat :=
  match t.width? with
  | some w => .ok w
  | none => .error .noWidth

/-- Sizes and positions are words of thirty-two bits. -/
def sizeWord (n : Int) : Nat :=
  (n % 0x100000000).toNat

/-- A width that a sort can have: at least one bit, and fewer than half of all words. -/
def checkWidth (w : Int) : Except Fault Nat :=
  if 0 < sizeWord w ∧ sizeWord w < 0x80000000 then .ok (sizeWord w) else .error .illSorted

def fieldWidth (field : Json) : Except Fault Nat :=
  match field.int? with
  | some w => checkWidth w
  | none => .error .unusableField

def mkNumeral (value : Int) (width : Json) : Except Fault Term := do
  pure (numeral (← fieldWidth width) value)

def mkExtract (hi lo : Int) (t : Term) : Except Fault Term :=
  if 0 ≤ lo ∧ lo ≤ hi then mk (.extract (sizeWord hi) (sizeWord lo)) [t] else .error .illSorted

/-- A bit vector with a number of bits put on top of it; the sum must be a width. -/
def mkExtend (extend : Nat → Op) (k : Int) (t : Term) : Except Fault Term := do
  let _ ← checkWidth ((← t.width) + sizeWord k)
  mk (extend (sizeWord k)) [t]

def fieldBounds (hi lo : Json) : Except Fault (Int × Int) :=
  match hi.int?, lo.int? with
  | some h, some l => .ok (h, l)
  | _, _ =>
    if hi.str?.isSome then .error .illSorted
    else do
      let _ ← hi.before lo
      .error .illSorted

/-- Two operands, the numeral first if only the second one is a numeral. -/
def numeralFirst (s t : Term) : Bool :=
  t.isNumeral && !s.isNumeral

def mkEq (s t : Term) : Except Fault Term :=
  if numeralFirst s t then mk .eq [t, s] else mk .eq [s, t]

def mkDistinct (s t : Term) : Except Fault Term :=
  if numeralFirst s t then mk .distinct [t, s] else mk .distinct [s, t]

def mkSlt (s t : Term) : Except Fault Term :=
  if numeralFirst s t then mk (.order .sgt) [t, s] else mk (.order .slt) [s, t]

def mkSle (s t : Term) : Except Fault Term :=
  if numeralFirst s t then mk (.order .sge) [t, s] else mk (.order .sle) [s, t]

/-! ## §2 Words and truth values -/

def boolToBit (b : Term) : Term :=
  .app .ite [b, .num 1 1, .num 1 0]

/-- The truth value of a word: whether a single bit is one, or a wider word is not zero. -/
def bitToBool (t : Term) : Except Fault Term := do
  let w ← t.width
  if w = 1 then mkEq t (.num 1 1) else mkDistinct t (.num w 0)

/-- The symbol that a label names.  A number is a word of thirty-two bits without a sign. -/
def symbolOf : Label → Except Fault Symbol
  | .null => .ok .anonymous
  | .text s => .ok (Symbol.ofText s)
  | .bool b => .ok (.number (if b then 1 else 0))
  | .int n => if sizeWord n < 0x80000000 then .ok (.number (sizeWord n)) else .error .illSorted
  | .float _ => .error .unusableField

def fit (t : Term) (width : Int) : Except Fault Term := do
  let w ← t.width
  if (w : Int) = width then pure t
  else if (w : Int) < width then mkExtend .zeroExtend (width - w) t
  else mkExtract (width - 1) 0 t

/-! ## §3 Memory -/

def offsetAddr (addr : Term) (i : Nat) : Except Fault Term := do
  if i = 0 then pure addr
  else mk (.arith .add) [addr, numeral (← addr.width) i]

/-- The number of bytes of an access of a size in bits: one at least. -/
def byteCount (size : Json) : Except Fault Nat :=
  match size with
  | .int n => .ok (max (n / 8).toNat 1)
  | .bool _ => .ok 1
  | .float x => do
    if x.magnitude?.isSome && (← (Label.float x).before (.int 8)) then return 1
    else throw .wrongType
  | _ => .error .wrongType

def concatAll (t : Term) : List Term → Except Fault Term
  | [] => .ok t
  | u :: us => do concatAll (← mk .concat [t, u]) us

def bytesAt (mem addr : Term) (count : Nat) (endian : Endian) : Except Fault Term := do
  let bytes ← (List.range count).mapM fun i => do
    mk .select [mem, ← offsetAddr addr i]
  match if endian = .little then bytes.reverse else bytes with
  | [] => .error .illSorted
  | b :: bs => concatAll b bs

def loadBytes (mem addr : Term) (size : Json) (endian : Endian) : Except Fault Term := do
  let word ← bytesAt mem addr (← byteCount size) endian
  match size.int? with
  | some n => fit word n
  | none => .error .illSorted

def storeByte (endian : Endian) (count : Nat) (addr value mem : Term) (i : Nat) :
    Except Fault Term := do
  let lo : Nat := if endian = .little then 8 * i else 8 * (count - 1 - i)
  let address ← offsetAddr addr i
  let byte ← mkExtract (lo + 7 : Nat) lo value
  mk .store [mem, address, byte]

/-- The memory after a word of a size is written at an address. -/
def storeBytes (mem addr value : Term) (size : Json) (endian : Endian) : Except Fault Term := do
  let count ← byteCount size
  let value ← fit value (8 * count : Nat)
  (List.range count).foldlM (fun m i => storeByte endian count addr value m i) mem

/-! ## §4 Operators -/

def shiftOp? : BinOp → Option Arith
  | .lshift => some .shl
  | .rshift => some .lshr
  | .arshift => some .ashr
  | _ => none

/-- The term of an operator on two operands of one width that is no shift. -/
def binary (op : BinOp) (l r : Term) : Except Fault Term :=
  match op with
  | .plus => mk (.arith .add) [l, r]
  | .minus => mk (.arith .sub) [l, r]
  | .times => mk (.arith .mul) [l, r]
  | .divide => mk (.arith .udiv) [l, r]
  | .sdivide => mk (.arith .sdiv) [l, r]
  | .mod => mk (.arith .urem) [l, r]
  | .smod => mk (.arith .srem) [l, r]
  | .lshift => mk (.arith .shl) [l, r]
  | .rshift => mk (.arith .lshr) [l, r]
  | .arshift => mk (.arith .ashr) [l, r]
  | .and => mk (.arith .and) [l, r]
  | .or => mk (.arith .or) [l, r]
  | .xor => mk (.arith .xor) [l, r]
  | .eq => do pure (boolToBit (← mkEq l r))
  | .neq => do pure (boolToBit (← mkDistinct l r))
  | .lt => do pure (boolToBit (← mk (.order .ult) [l, r]))
  | .le => do pure (boolToBit (← mk (.order .ule) [l, r]))
  | .slt => do pure (boolToBit (← mkSlt l r))
  | .sle => do pure (boolToBit (← mkSle l r))

/-- The term of an operator on two operands.  The amount of a shift takes the width of what is
shifted; the operands of every other operator must have one width. -/
def applyBinary (op : BinOp) (l r : Term) : Except Fault Term := do
  let v ← l.width
  if (shiftOp? op).isSome then binary op l (← fit r v)
  else
    let w ← r.width
    if v = w then binary op l r else .error (.widthMismatch op.text v w)

def applyUnary (op : UnOp) (t : Term) : Except Fault Term :=
  if t.width?.isNone then .error .notArithmetic
  else match op with
    | .neg => mk .neg [t]
    | .not => mk .complement [t]

def castTo (kind : CastKind) (width : Int) (t : Term) : Except Fault Term := do
  let w ← t.width
  match kind with
  | .low => mkExtract (width - 1) 0 t
  | .high => mkExtract (w - 1) (w - width) t
  | .unsigned =>
    if width ≤ w then mkExtract (width - 1) 0 t else mkExtend .zeroExtend (width - w) t
  | .signed =>
    if width ≤ w then mkExtract (width - 1) 0 t else mkExtend .signExtend (width - w) t

/-- The term of a change to the width that a field gives. -/
def applyCast (kind : CastKind) (width : Json) (t : Term) : Except Fault Term := do
  let _ ← t.width
  match width with
  | .float _ => .error .illSorted
  | width =>
    match width.int? with
    | some w => castTo kind w t
    | none => .error .wrongType

end Antecedent.Term
