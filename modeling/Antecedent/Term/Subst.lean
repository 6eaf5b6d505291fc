import Antecedent.Term.Shared
import Antecedent.Term.Value

/-!
# Substitution and evaluation of shared terms

A substitution replaces all of its old terms at once, does not look again at what it put in, and
does not simplify.  Of two pairs with the same old term the first counts.
-/

namespace Antecedent

/-- Pairs of an old term and the new term in its place. -/
abbrev Replacement := List (Term × Term)

def Replacement.find? (σ : Replacement) (t : Term) : Option Term :=
  (List.find? (fun p => p.1 == t) σ).map (·.2)

def Replacement.keepsSorts (σ : Replacement) : Bool :=
  σ.all fun (old, new) => old.sort == new.sort

/-- One step of a substitution: an old term is replaced, another keeps its operator. -/
def Replacement.step (σ : Replacement) (t : Term) (args : List Term) : Term :=
  match σ.find? t with
  | some new => new
  | none =>
    match t with
    | .app op _ => .app op args
    | t => t

def Term.subst (σ : Replacement) (t : Term) : Term :=
  t.foldShared σ.step

def State.step (s : State) (t : Term) (args : List Value) : Value :=
  match t with
  | .lit b => .bool b
  | .num w n => .bits w n
  | .const name srt => s.const name srt
  | .app op _ => op.eval s args

mutual
theorem Term.fold_step (s : State) (t : Term) : Term.fold s.step t = t.eval s := by
  match t with
  | .lit b => simp [Term.fold, Term.eval, State.step]
  | .num w n => simp [Term.fold, Term.eval, State.step]
  | .const name srt => simp [Term.fold, Term.eval, State.step]
  | .app op args => simp [Term.fold, Term.eval, State.step, Term.foldList_step s args]
theorem Term.foldList_step (s : State) (ts : List Term) :
    Term.foldList s.step ts = Term.evalList s ts := by
  match ts with
  | [] => simp [Term.foldList, Term.evalList]
  | t :: ts => simp [Term.foldList, Term.evalList, Term.fold_step s t, Term.foldList_step s ts]
end

/-- The value of a term, every shared subterm evaluated once. -/
def Term.value (s : State) (t : Term) : Value :=
  t.foldShared s.step

@[simp] theorem Term.value_eq (s : State) (t : Term) : t.value s = t.eval s := by
  rw [Term.value, Term.foldShared_eq, Term.fold_step]

end Antecedent
