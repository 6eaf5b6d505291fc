import Antecedent.Decide.Polynomial
import Antecedent.Term.Subst

/-!
# Simplification

Terms with the same value in every state and less to decide: ground parts are evaluated, sums have
linear form, comparisons are `=`, `bvult` and `bvslt`, and a load looks through the stores before it
until it meets a memory constant.
-/

namespace Antecedent.Term

/-! ## §1 Truth values -/

def value? : Term → Option Value
  | .lit b => some (.bool b)
  | .num w n => some (.bits w n)
  | _ => none

/-- The literal or numeral of a value; a memory has none. -/
def ofValue? : Value → Option Term
  | .bool b => some (.lit b)
  | .bits w n => some (.num w n)
  | .memory _ _ => none

def mkNot : Term → Term
  | .lit b => .lit !b
  | .app .not [t] => t
  | t => .app .not [t]

def hasOpposites (ts : List Term) : Bool :=
  ts.any fun
    | .app .not [t] => ts.contains t
    | _ => false

def mkAnd (ts : List Term) : Term :=
  let flat := (ts.flatMap fun
    | .app .and us => us
    | .lit true => []
    | t => [t]).eraseDups
  if flat.contains (.lit false) || hasOpposites flat then .lit false
  else
    match flat with
    | [] => .lit true
    | [t] => t
    | flat => .app .and flat

def mkOr (ts : List Term) : Term :=
  let flat := (ts.flatMap fun
    | .app .or us => us
    | .lit false => []
    | t => [t]).eraseDups
  if flat.contains (.lit true) || hasOpposites flat then .lit true
  else
    match flat with
    | [] => .lit false
    | [t] => t
    | flat => .app .or flat

def mkIte (c a b : Term) : Term :=
  if a == b then a
  else
    match c with
    | .lit true => a
    | .lit false => b
    | c =>
      match a, b with
      | .lit true, b => mkOr [c, b]
      | .lit false, b => mkAnd [mkNot c, b]
      | a, .lit true => mkOr [mkNot c, a]
      | a, .lit false => mkAnd [c, a]
      | a, b =>
        match c with
        | .app .not [d] => .app .ite [d, b, a]
        | c => .app .ite [c, a, b]

/-! ## §2 Equality and order -/

def eqNumeral (w n : Nat) : Term → Term
  | .num _ m => .lit (m == n)
  | .app .ite [c, a, b] =>
    if a.isNumeral || b.isNumeral then mkIte c (eqNumeral w n a) (eqNumeral w n b)
    else .app .eq [.num w n, .app .ite [c, a, b]]
  | t => .app .eq [.num w n, t]

/-- Equality of bit vectors: the difference is zero. -/
def eqBits (w : Nat) (s t : Term) : Term :=
  let d := ((Linear.ofTerm w s).sub (Linear.ofTerm w t)).withoutOddFactor
  match d.sorted with
  | [] => .lit (d.number == 0)
  | (a, c) :: rest =>
    if agreeMultipliedOut w s t then .lit true
    else
    let d := if Linear.isNegative w c then d.negate else d
    let number := (Nat.pow 2 w - d.number) % Nat.pow 2 w
    match rest with
    | [] =>
      if c = 1 ∨ c = Linear.minusOne w then eqNumeral w number a
      else .app .eq [.num w number, ({ d with number := 0 } : Linear).toTerm]
    | _ =>
      let (plus, minus) := Linear.summands w d.sorted
      let minus := if number = 0 then minus else minus ++ [.num w number]
      .app .eq [Linear.sumTerm w plus, Linear.sumTerm w minus]

def eqTerm (s t : Term) : Term :=
  if s == t then .lit true
  else
    match s, t with
    | .lit a, t => if a then t else mkNot t
    | s, .lit b => if b then s else mkNot s
    | s, t =>
      match s.sort with
      | .bits w => eqBits w s t
      | _ => .app .eq [s, t]

def seenEqual (s t : Term) : Bool :=
  s == t ||
    match s.sort with
    | .bits w => agreeMultipliedOut w s t
    | _ => false

/-- Unsigned order where one side is a quotient or a remainder of the other: a remainder is below
its divisor unless that is zero, it does not exceed its dividend, and a quotient exceeds its
dividend only where the divisor is zero. -/
def quotientUlt? (s t : Term) : Option Term :=
  match s, t with
  | .app (.arith .urem) [a, b], t =>
    if b == t then some (mkNot (eqNumeral a.widthD 0 b)) else none
  | s, .app (.arith .urem) [a, _] => if a == s then some (.lit false) else none
  | s, .app (.arith .udiv) [a, b] =>
    if a == s then
      some (mkAnd [eqNumeral a.widthD 0 b,
        mkNot (eqNumeral a.widthD (Linear.minusOne a.widthD) a)])
    else none
  | _, _ => none

def mkUlt (s t : Term) : Term :=
  if seenEqual s t then .lit false
  else
    match s, t with
    | _, .num _ 0 => .lit false
    | s, .num w 1 => eqNumeral w 0 s
    | .num w 0, t => mkNot (eqNumeral w 0 t)
    | s, t => (quotientUlt? s t).getD (.app (.order .ult) [s, t])

def signedLt (s t : Term) : Term :=
  if seenEqual s t then .lit false else .app (.order .slt) [s, t]

def mkOrder (r : Order) (s t : Term) : Term :=
  match r with
  | .ult => mkUlt s t
  | .ule => mkNot (mkUlt t s)
  | .ugt => mkUlt t s
  | .uge => mkNot (mkUlt s t)
  | .slt => signedLt s t
  | .sle => mkNot (signedLt t s)
  | .sgt => signedLt t s
  | .sge => mkNot (signedLt s t)

def mkAllDistinct : List Term → Term
  | [] => .lit true
  | t :: ts => mkAnd (ts.map (fun u => mkNot (eqTerm t u)) ++ [mkAllDistinct ts])

/-! ## §3 Memories -/

/-- A load: stores to other addresses are passed over. -/
def mkSelect (addr : Term) : Term → Term
  | .app .store [m, a, v] =>
    match eqTerm a addr with
    | .lit true => v
    | .lit false => mkSelect addr m
    | c => mkIte c v (mkSelect addr m)
  | .app .ite [c, m, n] => mkIte c (mkSelect addr m) (mkSelect addr n)
  | m => .app .select [m, addr]

/-- A store; one to the same address just before it is dropped. -/
def mkStore (m addr v : Term) : Term :=
  match m with
  | .app .store [m', a, _] =>
    if a == addr then .app .store [m', addr, v] else .app .store [m, addr, v]
  | m => .app .store [m, addr, v]

/-! ## §4 Arithmetic -/

def log2? (n : Nat) : Option Nat :=
  if n ≠ 0 ∧ Nat.pow 2 n.log2 = n then some n.log2 else none

/-- A product: one numeral goes first, other factors have a fixed order. -/
def mkMul (w : Nat) (ts : List Term) : Term :=
  let (numbers, others) := ts.partition isNumeral
  let number := numbers.foldl
    (fun k t => match t with
      | .num _ n => k * n % Nat.pow 2 w
      | _ => k)
    (1 % Nat.pow 2 w)
  let others := others.mergeSort fun s t => decide (s.rank ≤ t.rank)
  match others with
  | [] => .num w number
  | [t] => ((Linear.ofNumber w 0).addMultiple number (Linear.ofTerm w t)).toTerm
  | ts => ((Linear.ofNumber w 0).addMultiple number
      (Linear.ofAtom w (.app (.arith .mul) ts))).toTerm

/-- Bitwise operations with the same argument twice, or with no bit or all bits set on one side. -/
def mkBitwise (f : Arith) (w : Nat) (s t : Term) : Term :=
  let none_ := Term.num w 0
  let all := Term.num w (Linear.minusOne w)
  match f with
  | .and =>
    if s == t || t == all then s
    else if s == all then t
    else if s == none_ || t == none_ then none_
    else .app (.arith .and) [s, t]
  | .or =>
    if s == t || t == none_ then s
    else if s == none_ then t
    else if s == all || t == all then all
    else .app (.arith .or) [s, t]
  | .xor =>
    if s == t then none_
    else if t == none_ then s
    else if s == none_ then t
    else .app (.arith .xor) [s, t]
  | f => .app (.arith f) [s, t]

def mkArith (f : Arith) (w : Nat) (s t : Term) : Term :=
  match f, t with
  | .udiv, .num _ n =>
    match log2? n with
    | some 0 => s
    | some k => mkConcat [.num k 0, partOf (w - 1) k s]
    | none => .app (.arith .udiv) [s, t]
  | .udiv, t =>
    if s == t then
      mkIte (eqNumeral w 0 s) (.num w (Linear.minusOne w)) (.num w (1 % Nat.pow 2 w))
    else .app (.arith .udiv) [s, t]
  | .urem, .num _ n =>
    match log2? n with
    | some 0 => .num w 0
    | some k => mkConcat [.num (w - k) 0, partOf (k - 1) 0 s]
    | none => .app (.arith .urem) [s, t]
  | .urem, t => if s == t then .num w 0 else .app (.arith .urem) [s, t]
  | .lshr, .num _ n =>
    if n = 0 then s
    else if w ≤ n then .num w 0
    else mkConcat [.num n 0, partOf (w - 1) n s]
  | f, t => mkBitwise f w s t

def simplifyApp (op : Op) (args : List Term) : Term :=
  match op, args with
  | .not, [t] => mkNot t
  | .and, ts => mkAnd ts
  | .or, ts => mkOr ts
  | .xor, [t] => t
  | .xor, [s, t] => mkNot (eqTerm s t)
  | .implies, [s, t] => mkOr [mkNot s, t]
  | .eq, [s, t] => eqTerm s t
  | .distinct, ts => mkAllDistinct ts
  | .ite, [c, a, b] => mkIte c a b
  | .order r, [s, t] => mkOrder r s t
  | .comp, [s, t] => mkIte (eqTerm s t) (.num 1 1) (.num 1 0)
  | .concat, ts => mkConcat ts
  | .extract hi lo, [t] => partOf hi lo t
  | .zeroExtend k, [t] => mkZeroExtend k t
  | .select, [m, a] => mkSelect a m
  | .store, [m, a, v] => mkStore m a v
  | .neg, [t] => (Linear.ofTerm t.widthD (.app .neg [t])).toTerm
  | .complement, [t] => (Linear.ofTerm t.widthD (.app .complement [t])).toTerm
  | .arith .add, t :: ts => (Linear.sum t.widthD (t :: ts)).toTerm
  | .arith .sub, [s, t] => (Linear.ofTerm s.widthD (.app (.arith .sub) [s, t])).toTerm
  | .arith .mul, t :: ts => mkMul t.widthD (t :: ts)
  | .arith .shl, [s, .num w k] => (Linear.ofTerm w (.app (.arith .shl) [s, .num w k])).toTerm
  | .arith f, t :: ts => ts.foldl (mkArith f t.widthD) t
  | op, args => .app op args

/-- One step of simplification: an application to values is evaluated. -/
def simplifyStep (t : Term) (args : List Term) : Term :=
  match t with
  | .app (.apply name domain w) _ => .app (.apply name domain w) args
  | .app op _ =>
    match args.mapM value? with
    | some vs => (ofValue? (op.eval State.zero vs)).getD (.app op args)
    | none => simplifyApp op args
  | t => t

def simplify (t : Term) : Term :=
  t.foldShared simplifyStep

end Antecedent.Term
