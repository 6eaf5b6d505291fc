import Antecedent.Session

/-!
# Terms of expressions

Registers are bit vectors of their widths and memory is a map from addresses to bytes.  A bit serves
as a truth value.  Every load and store of the expression is listed with the term of its address,
the address's own accesses before it and those of the other operands after it.
-/

namespace Antecedent

namespace Expr

/-- The term of an expression, with its memory accesses in order. -/
def toTerm (tid : Json) : Expr → Build (Term × List Access)
  | .var v => do return (← Build.getVar v, [])
  | .int value width => do return (← Term.mkNumeral value width, [])
  | .load mem addr size endian => do
    let (a, as) ← toTerm tid addr
    let (m, ms) ← toTerm tid mem
    return (← Term.loadBytes m a size (.ofField endian), as ++ ⟨.load, a, size, tid⟩ :: ms)
  | .store mem addr value size endian => do
    let (a, as) ← toTerm tid addr
    let (m, ms) ← toTerm tid mem
    let (v, vs) ← toTerm tid value
    return (← Term.storeBytes m a v size (.ofField endian),
      as ++ ⟨.store, a, size, tid⟩ :: (ms ++ vs))
  | .binop op lhs rhs => do
    let (l, ls) ← toTerm tid lhs
    let (r, rs) ← toTerm tid rhs
    return (← Term.applyBinary op l r, ls ++ rs)
  | .unop op arg => do
    let (t, as) ← toTerm tid arg
    return (← Term.applyUnary op t, as)
  | .cast kind width arg => do
    let (t, as) ← toTerm tid arg
    return (← Term.applyCast kind width t, as)
  | .ite cond yes no => do
    let (c, cs) ← toTerm tid cond
    let c ← Term.bitToBool c
    let (y, ys) ← toTerm tid yes
    let (n, ns) ← toTerm tid no
    return (← Term.mk .ite [c, y, n], cs ++ ys ++ ns)
  | .extract hi lo arg => do
    let (t, as) ← toTerm tid arg
    let (h, l) ← Term.fieldBounds hi lo
    return (← Term.mkExtract h l t, as)
  | .concat lhs rhs => do
    let (l, ls) ← toTerm tid lhs
    let (r, rs) ← toTerm tid rhs
    return (← Term.mk .concat [l, r], ls ++ rs)
  | .unknown width _ => do return (← Build.fresh "unknown" width, [])

/-- The simplified formula of a condition, with its memory accesses in order. -/
def condition (tid : Json) (e : Expr) : Build (Term × List Access) := do
  let (t, as) ← e.toTerm tid
  let formula ← Term.bitToBool t
  return ((← Build.env).logic.simplifier.apply formula, as)

end Expr

end Antecedent
