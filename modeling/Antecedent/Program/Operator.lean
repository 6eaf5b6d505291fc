/-!
# Operators of lifted programs

The operators of expressions, the kinds of jumps and the orders of bytes, with the words that
documents use for them.
-/

namespace Antecedent

inductive BinOp where
  | plus | minus | times | divide | sdivide | mod | smod
  | lshift | rshift | arshift
  | and | or | xor
  | eq | neq | lt | le | slt | sle
deriving DecidableEq, Repr, Inhabited

inductive UnOp where
  | neg | not
deriving DecidableEq, Repr, Inhabited

inductive CastKind where
  | unsigned | signed | high | low
deriving DecidableEq, Repr, Inhabited

inductive JmpKind where
  | goto | call | ret | int
deriving DecidableEq, Repr, Inhabited

inductive Endian where
  | little | big
deriving DecidableEq, Repr, Inhabited

def BinOp.text : BinOp → String
  | plus => "plus" | minus => "minus" | times => "times" | divide => "divide"
  | sdivide => "sdivide" | mod => "mod" | smod => "smod" | lshift => "lshift"
  | rshift => "rshift" | arshift => "arshift" | and => "and" | or => "or" | xor => "xor"
  | eq => "eq" | neq => "neq" | lt => "lt" | le => "le" | slt => "slt" | sle => "sle"

def BinOp.all : List BinOp :=
  [plus, minus, times, divide, sdivide, mod, smod, lshift, rshift, arshift, and, or, xor,
    eq, neq, lt, le, slt, sle]

def BinOp.ofText? (s : String) : Option BinOp :=
  BinOp.all.find? (·.text == s)

def UnOp.text : UnOp → String
  | neg => "neg" | not => "not"

def UnOp.ofText? (s : String) : Option UnOp :=
  [neg, not].find? (·.text == s)

def CastKind.text : CastKind → String
  | unsigned => "unsigned" | signed => "signed" | high => "high" | low => "low"

def CastKind.ofText? (s : String) : Option CastKind :=
  [unsigned, signed, high, low].find? (·.text == s)

def JmpKind.text : JmpKind → String
  | goto => "goto" | call => "call" | ret => "ret" | int => "int"

def JmpKind.ofText? (s : String) : Option JmpKind :=
  [goto, call, ret, int].find? (·.text == s)

theorem BinOp.ofText?_text (op : BinOp) : BinOp.ofText? op.text = some op := by
  cases op <;> decide

theorem UnOp.ofText?_text (op : UnOp) : UnOp.ofText? op.text = some op := by
  cases op <;> decide

theorem CastKind.ofText?_text (k : CastKind) : CastKind.ofText? k.text = some k := by
  cases k <;> decide

theorem JmpKind.ofText?_text (k : JmpKind) : JmpKind.ofText? k.text = some k := by
  cases k <;> decide

end Antecedent
