import Antecedent.Term.Build

/-!
# Operators of SMT-LIB

The operators that a condition can apply, and all names that a condition cannot give another
meaning.

Terms are built as they are written, with these rules for many arguments: an equality is a
conjunction of equalities of neighbours, implication and exclusive disjunction associate to the
right, and the other operators that take many arguments take them all at once.
-/

namespace Antecedent.Smtlib

/-- The operators on bit vectors that give bit vectors. -/
def arithOf? (name : String) : Option Arith :=
  [("bvadd", Arith.add), ("bvsub", .sub), ("bvmul", .mul), ("bvudiv", .udiv), ("bvurem", .urem),
    ("bvsdiv", .sdiv), ("bvsrem", .srem), ("bvand", .and), ("bvor", .or), ("bvxor", .xor),
    ("bvshl", .shl), ("bvlshr", .lshr), ("bvashr", .ashr)].lookup name

def orderOf? (name : String) : Option Order :=
  [("bvult", Order.ult), ("bvule", .ule), ("bvugt", .ugt), ("bvuge", .uge), ("bvslt", .slt),
    ("bvsle", .sle), ("bvsgt", .sgt), ("bvsge", .sge)].lookup name

def plainOf? (name : String) : Option Op :=
  [("not", Op.not), ("and", .and), ("&&", .and), ("or", .or), ("distinct", .distinct),
    ("ite", .ite), ("if", .ite), ("if_then_else", .ite), ("bvneg", .neg), ("bvnot", .complement),
    ("bvcomp", .comp), ("concat", .concat), ("select", .select), ("store", .store)].lookup name

def equalityNames : List String :=
  ["=", "iff", "equals", "equiv"]

def implicationNames : List String :=
  ["=>", "implies"]

/-- Names of operators that no condition here applies, but that are taken all the same. -/
def otherNames : List String :=
  ["bv", "bit0", "bit1", "bvsmod", "bvnand", "bvnor", "bvxnor", "sign_extend", "zero_extend",
    "extract", "repeat", "rotate_left", "rotate_right", "ext_rotate_left", "ext_rotate_right",
    "bvredor", "bvredand", "int2bv", "bv2int", "bv2nat", "nat2bv", "mkbv", "bit2bool",
    "const", "map", "default", "union", "intersection", "setminus", "complement", "subset",
    "as-array", "+", "-", "*", "/", "div", "mod", "rem", "<=", "<", ">=", ">", "abs", "to_real",
    "to_int", "is_int", "^", "||"]

def isBuiltin (name : String) : Bool :=
  name == "true" || name == "false" || name == "xor" || (arithOf? name).isSome
    || (orderOf? name).isSome || (plainOf? name).isSome || equalityNames.contains name
    || implicationNames.contains name || otherNames.contains name

def combine? (op : Op) (args : List Term) : Option Term :=
  (Term.mk op args).toOption

def nestRight? (op : Op) : List Term → Option Term
  | [] => none
  | [t] => some t
  | t :: ts => do combine? op [t, ← nestRight? op ts]

def equalities? : List Term → Option (List Term)
  | t :: u :: us => do
    let e ← combine? .eq [t, u]
    pure (e :: (← equalities? (u :: us)))
  | _ => some []

def equalAll? (ts : List Term) : Option Term := do
  match ← equalities? ts with
  | [] => none
  | [e] => some e
  | es => combine? .and es

def operator? (name : String) (args : List Term) : Option Term :=
  match arithOf? name, orderOf? name, plainOf? name with
  | some f, _, _ => combine? (.arith f) args
  | _, some r, _ => combine? (.order r) args
  | _, _, some op => combine? op args
  | _, _, _ =>
    if equalityNames.contains name then equalAll? args
    else if implicationNames.contains name then
      if args.length < 2 then none else nestRight? .implies args
    else if name == "xor" then
      match args with
      | [t] => combine? .xor [t]
      | args => nestRight? .xor args
    else none

def indexed? (name : String) (indices : List Nat) (args : List Term) : Option Term :=
  match name, indices with
  | "extract", [hi, lo] => (if lo ≤ hi then combine? (.extract hi lo) args else none)
  | "zero_extend", [k] => combine? (.zeroExtend k) args
  | "sign_extend", [k] => combine? (.signExtend k) args
  | _, _ => none

end Antecedent.Smtlib
