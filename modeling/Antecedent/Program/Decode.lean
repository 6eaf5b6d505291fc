import Antecedent.Program.Basic

/-!
# Reading programs

A program is read from its document field by field, in a fixed order, and the first field that does
not fit is the fault.  Unknown fields are passed over.
-/

namespace Antecedent.Decode

/-! ## §1 Fields -/

/-- The members of a value that must be an object because a field with a default is read. -/
def members (j : Json) : Except Fault (List (Label × Json)) :=
  match j with
  | .obj ms => .ok ms
  | _ => .error .notAnObject

def field (j : Json) (name : String) : Except Fault Json :=
  match j with
  | .obj ms =>
    match Json.findMember? name ms with
    | some v => .ok v
    | none => .error (.missingField name)
  | _ => .error .wrongType

def fieldD (j : Json) (name : String) (default : Json) : Except Fault Json := do
  pure ((Json.findMember? name (← members j)).getD default)

/-- The items of a value that is run through: the items of an array, the keys of an object, the
characters of a text. -/
def items (j : Json) : Except Fault (List Json) :=
  match j with
  | .arr xs => .ok xs
  | .obj ms => .ok (ms.map fun m => m.1.toJson)
  | .str s => .ok (s.toList.map fun c => .str (String.singleton c))
  | _ => .error .wrongType

/-- An integer: a text is read as a decimal, a number is cut toward zero, a Boolean is one or
zero. -/
def integer (j : Json) : Except Fault Int :=
  match j with
  | .int n => .ok n
  | .bool b => .ok (if b then 1 else 0)
  | .float x =>
    match x with
    | .nan => .error .undefinedInteger
    | .infinity _ => .error .infiniteInteger
    | x => .ok (x.truncate?.getD 0)
  | .str s => (Text.readDecimal s).mapError (Fault.ofInteger 10 s)
  | _ => .error .wrongType

def pairs (index : Nat) : List Json → Except Fault Attrs
  | [] => .ok []
  | x :: xs => do
    let row ← items x
    match row with
    | [k, v] =>
      let key ← k.label
      pure ((key, v) :: (← pairs (index + 1) xs))
    | _ => .error (.badPair index row.length)

/-- Attributes: the members of an object, or a row of pairs. -/
def attributes (j : Json) : Except Fault Attrs := do
  match j with
  | .obj ms => pure ms
  | j =>
    let ps ← pairs 0 (← items j)
    pure (ps.foldl (fun acc (k, v) => Json.setMember k v acc) [])

/-- A word out of a fixed set; `unknown` is the fault for any other value, shown as text. -/
def word {α : Type} (ofText? : String → Option α) (unknown : String → Fault) (j : Json) :
    Except Fault α :=
  if j.label?.isNone then .error .wrongType
  else match j.str?.bind ofText? with
    | some a => .ok a
    | none => .error (unknown j.inText)

/-! ## §2 Expressions -/

def varFields (j : Json) : Except Fault Var := do
  let name ← field j "name"
  let width ← fieldD j "width" (.int 0)
  let isMem ← fieldD j "is_mem" (.bool false)
  pure { name, width, isMem }

/-- A variable where nothing else may stand. -/
def var (j : Json) : Except Fault Var := do
  let kind ← fieldD j "kind" (.str "var")
  if kind.str? == some "var" then varFields j else .error (.expectedVariable kind.display)

def depth : Json → Nat
  | .arr xs => depthItems xs + 1
  | .obj ms => depthMembers ms + 1
  | _ => 0
where
  depthItems : List Json → Nat
    | [] => 0
    | x :: xs => max (depth x) (depthItems xs)
  depthMembers : List (Label × Json) → Nat
    | [] => 0
    | (_, x) :: ms => max (depth x) (depthMembers ms)

def exprWithin : Nat → Json → Except Fault Expr
  | 0, _ => .error .notAnObject
  | bound + 1, j => do
    let kind ← fieldD j "kind" .null
    let sub (name : String) : Except Fault Expr := do exprWithin bound (← field j name)
    match kind.str? with
    | some "var" => pure (.var (← varFields j))
    | some "int" =>
      let value ← integer (← field j "value")
      pure (.int value (← field j "width"))
    | some "load" =>
      let mem ← sub "mem"
      let addr ← sub "addr"
      let size ← field j "size"
      pure (.load mem addr size (← fieldD j "endian" (.str "little")))
    | some "store" =>
      let mem ← sub "mem"
      let addr ← sub "addr"
      let value ← sub "value"
      let size ← field j "size"
      pure (.store mem addr value size (← fieldD j "endian" (.str "little")))
    | some "binop" =>
      let op ← word BinOp.ofText? .unknownBinary (← field j "op")
      let lhs ← sub "lhs"
      pure (.binop op lhs (← sub "rhs"))
    | some "unop" =>
      let op ← word UnOp.ofText? .unknownUnary (← field j "op")
      pure (.unop op (← sub "arg"))
    | some "cast" =>
      let kind ← word CastKind.ofText? .unknownCast (← field j "cast")
      let width ← field j "width"
      pure (.cast kind width (← sub "arg"))
    | some "ite" =>
      let cond ← sub "cond"
      let yes ← sub "then"
      pure (.ite cond yes (← sub "else"))
    | some "extract" =>
      let hi ← field j "hi"
      let lo ← field j "lo"
      pure (.extract hi lo (← sub "arg"))
    | some "concat" =>
      let lhs ← sub "lhs"
      pure (.concat lhs (← sub "rhs"))
    | some "unknown" =>
      let width ← field j "width"
      pure (.unknown width (← fieldD j "reason" (.str "")))
    | _ => .error (.unknownExpression kind.display)

def expr (j : Json) : Except Fault Expr :=
  exprWithin (depth j + 1) j

/-! ## §3 Programs -/

def definition (j : Json) : Except Fault Def := do
  let tid ← field j "tid"
  let lhs ← var (← field j "lhs")
  let rhs ← expr (← field j "rhs")
  let attrs ← attributes (← fieldD j "attrs" (.obj []))
  pure { tid, lhs, rhs, attrs }

def jump (j : Json) : Except Fault Jmp := do
  let kind ← word JmpKind.ofText? .unknownJump (← field j "kind")
  let cond ←
    match j.get? "cond" with
    | some c => expr c
    | none => pure .always
  let tid ← field j "tid"
  let target ← fieldD j "target" .null
  let returnTo ← fieldD j "return_to" .null
  let attrs ← attributes (← fieldD j "attrs" (.obj []))
  pure { tid, kind, cond, target, returnTo, attrs }

def block (j : Json) : Except Fault Blk := do
  let defs ← (← items (← fieldD j "defs" (.arr []))).mapM definition
  let jmps ← (← items (← fieldD j "jmps" (.arr []))).mapM jump
  let tid ← field j "tid"
  let attrs ← attributes (← fieldD j "attrs" (.obj []))
  pure { tid, defs, jmps, attrs }

def argument (j : Json) : Except Fault Arg := do
  let v ← var (← field j "var")
  pure { var := v, intent := ← fieldD j "intent" (.str "in") }

def subroutine (j : Json) : Except Fault Sub := do
  let name ← field j "name"
  let blks ← (← items (← fieldD j "blks" (.arr []))).mapM block
  let args ← (← items (← fieldD j "args" (.arr []))).mapM argument
  let attrs ← attributes (← fieldD j "attrs" (.obj []))
  pure { name, blks, args, attrs }

def symbol (j : Json) : Except Fault DataSymbol := do
  let name ← field j "name"
  let addr ← integer (← field j "addr")
  let size ← integer (← field j "size")
  pure { name, addr := .int addr, size := .int size }

def arch (j : Json) : Except Fault Arch :=
  match j with
  | .str s => Arch.ofName s
  | _ => .error .notAnObject

def program (j : Json) : Except Fault Program := do
  let subs ← (← items (← fieldD j "subs" (.arr []))).mapM subroutine
  let symbols ← (← items (← fieldD j "symbols" (.arr []))).mapM symbol
  let a ← arch (← field j "arch")
  pure { arch := a, subs, symbols }

end Antecedent.Decode
