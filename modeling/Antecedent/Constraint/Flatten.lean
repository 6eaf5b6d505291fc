import Antecedent.Constraint.Basic
import Antecedent.Fault
import Antecedent.Number.Binary64

/-!
# Flattening constraints

A constraint becomes one formula, from the leaves up.  Every different node is treated once, after
all nodes below it, the last child first; the sizes of the substitutions are noted in this order.
Cut paths count as true or as false.
-/

namespace Antecedent.Constraint

/-- The formulas of the nodes treated so far, and the sizes of the substitutions made, last
first. -/
structure Progress where
  done : Std.HashMap Nat Term := {}
  sizes : List Nat := []

/-- A conjunction; an empty one is true. -/
def conjunction : List Term → Term
  | [] => .lit true
  | ts => .app .and ts

def clauseFormula (hyps concls : List Term) : Term :=
  match hyps with
  | [] => conjunction concls
  | hyps => .app .implies [.app .and hyps, conjunction concls]

def Progress.note (p : Progress) (id : Nat) (t : Term) : Progress :=
  { p with done := p.done.insert id t }

mutual
/-- The formula of a node, looked up or made from the nodes below it. -/
def formula (c : Constraint) (p : Progress) : Term × Progress :=
  match p.done[c.id]? with
  | some t => (t, p)
  | none =>
    match c with
    | .goal i _ f => (f, p.note i f)
    | .ite i _ cond yes no =>
      let (n, p) := formula no p
      let (y, p) := formula yes p
      let t := Term.app .ite [cond, y, n]
      (t, p.note i t)
    | .clause i hyps concls =>
      let (cs, p) := formulas concls p
      let (hs, p) := formulas hyps p
      let t := clauseFormula hs cs
      (t, p.note i t)
    | .subst i body pairs =>
      let (b, p) := formula body p
      let t := b.subst pairs
      (t, { (p.note i t) with sizes := pairs.length :: p.sizes })
/-- The formulas of a list of nodes, the last node treated first. -/
def formulas (cs : List Constraint) (p : Progress) : List Term × Progress :=
  match cs with
  | [] => ([], p)
  | c :: cs =>
    let (ts, p) := formulas cs p
    let (t, p) := formula c p
    (t :: ts, p)
end

/-- Replaces the constant that stands for cut paths. -/
def resolveCuts (cutsHold : Bool) (t : Term) : Term :=
  t.subst [(Term.loopCut, .lit cutsHold)]

/-- One formula for a tree, with cut paths true or false. -/
def flatten (c : Constraint) (cutsHold : Bool) : Term :=
  resolveCuts cutsHold (formula c {}).1

/-- One formula for a tree, or the fault of a substitution that changes a sort. -/
def flatten? (c : Constraint) (cutsHold : Bool) : Except Fault Term :=
  if c.keepsSorts then .ok (c.flatten cutsHold) else .error .illSorted

def substSizes (c : Constraint) : List Nat :=
  (formula c {}).2.sizes.reverse

/-- The sizes of substitutions in one line: how many, their mean, the largest, and their standard
deviation, both to two places. -/
def sizesText (sizes : List Nat) : String :=
  if sizes.isEmpty then "No substitutions were applied."
  else
    let n := sizes.length
    let total := sizes.foldl (· + ·) 0
    let largest := sizes.foldl max 0
    let mean := (Binary64.ofRatio false total n).toFixed 2
    -- The sum of squared deviations from `total / n`, times `n` twice over.
    let spread := n * sizes.foldl (fun sum x => sum + x * x) 0 - total * total
    let deviation := (Binary64.sqrtRatio spread (n * n)).toFixed 2
    s!"Substitutions: {n} | mean size {mean} | max {largest} | std dev {deviation}"

end Antecedent.Constraint
