import Antecedent.Decide.Word
import Antecedent.Term.Value

/-!
# Terms as wires

Formulas and bit vectors without memories and function symbols as parts of a circuit.  A formula is
a word of one wire.  Constants are inputs, and every shared subterm is built once.
-/

namespace Antecedent.Decide

/-- A circuit under construction, with the words of constants and of terms built so far. -/
structure Plan where
  circuit : Circuit := {}
  inputs : Std.HashMap (Symbol × Srt) Word := {}
  built : Std.HashMap Term Word := {}

abbrev Planning := StateM Plan

namespace Planning

def wire {α : Type} (act : Wiring α) : Planning α :=
  modifyGet fun p =>
    let circuit := p.circuit
    let p := { p with circuit := {} }
    let (a, circuit) := act.run circuit
    (a, { p with circuit })

def inputWord (width : Nat) : Planning Word :=
  wire ((List.range width).mapM fun _ => Wiring.input)

def constant (name : Symbol) (s : Srt) : Planning Word := do
  match (← get).inputs[(name, s)]? with
  | some w => return w
  | none =>
    let word ← inputWord (match s with
      | .bits w => w
      | _ => 1)
    modify fun p => { p with inputs := p.inputs.insert (name, s) word }
    return word

def truth (w : Word) : Wire :=
  w.headD Wire.off

def arith (f : Arith) (a b : Word) : Wiring Word :=
  match f with
  | .add => Word.add a b
  | .sub => Word.sub a b
  | .mul => Word.mul a b
  | .udiv => do return (← Word.divide a b).1
  | .urem => do return (← Word.divide a b).2
  | .sdiv => Word.sdiv a b
  | .srem => Word.srem a b
  | .and => Word.zip Wiring.and a b
  | .or => Word.zip Wiring.or a b
  | .xor => Word.zip Wiring.xor a b
  | .shl => Word.shl a b
  | .lshr => Word.shr Wire.off a b
  | .ashr => Word.shr (Word.sign a) a b

def order (r : Order) (a b : Word) : Wiring Wire :=
  match r with
  | .ult => Word.ult a b
  | .ule => do return Wire.not (← Word.ult b a)
  | .ugt => Word.ult b a
  | .uge => do return Wire.not (← Word.ult a b)
  | .slt => Word.slt a b
  | .sle => do return Wire.not (← Word.slt b a)
  | .sgt => Word.slt b a
  | .sge => do return Wire.not (← Word.slt a b)

def arithAll (f : Arith) (a : Word) : List Word → Wiring Word
  | [] => return a
  | b :: bs => do arithAll f (← arith f a b) bs

def allDistinct : List Word → Wiring Wire
  | [] => return Wire.on
  | a :: as => do
    let same ← as.mapM (Word.eq a)
    Wiring.and (Wire.not (← Wiring.any same)) (← allDistinct as)

def application (op : Op) (args : List Word) : Wiring Word := do
  match op, args with
  | .not, [a] => return [Wire.not (truth a)]
  | .and, as => return [← Wiring.all (as.map truth)]
  | .or, as => return [← Wiring.any (as.map truth)]
  | .xor, [a] => return a
  | .xor, [a, b] => return [← Wiring.xor (truth a) (truth b)]
  | .implies, [a, b] => return [← Wiring.or (Wire.not (truth a)) (truth b)]
  | .eq, [a, b] => return [← Word.eq a b]
  | .distinct, as => return [← allDistinct as]
  | .ite, [c, a, b] => Word.mux (truth c) a b
  | .neg, [a] => Word.neg a
  | .complement, [a] => return Word.not a
  | .arith f, a :: as => arithAll f a as
  | .order r, [a, b] => return [← order r a b]
  | .comp, [a, b] => return [← Word.eq a b]
  | .concat, as => return as.reverse.flatten
  | .extract hi lo, [a] => return (a.drop lo).take (hi - lo + 1)
  | .zeroExtend k, [a] => return a ++ List.replicate k Wire.off
  | .signExtend k, [a] => return a ++ List.replicate k (Word.sign a)
  | _, _ => return [Wire.off]

mutual
def term (t : Term) : Planning Word := do
  match t with
  | .lit b => return [Wire.ofBool b]
  | .num w n => return Word.ofNat w n
  | .const name s => constant name s
  | .app op args =>
    match (← get).built[Term.app op args]? with
    | some w => return w
    | none =>
      let words ← termList args
      let word ← wire (application op words)
      modify fun p => { p with built := p.built.insert (.app op args) word }
      return word
def termList (ts : List Term) : Planning (List Word) := do
  match ts with
  | [] => return []
  | t :: ts =>
    let w ← term t
    return w :: (← termList ts)
end

def formula (t : Term) : Planning Wire := do
  return truth (← term t)

end Planning

end Antecedent.Decide
