import Antecedent.Term.Basic
import Std.Data.HashMap

/-!
# Folding shared terms

`Term.fold` computes a result bottom up: every subterm's result is made from the subterm and the
results of its arguments.  `Term.foldShared` does the same with a table, so that a subterm that
occurs many times is treated once; it carries the proof that the result is that of `Term.fold`.
-/

namespace Antecedent

variable {α : Type}

mutual
/-- The result of a term, from the term itself and the results of its arguments. -/
def Term.fold (f : Term → List α → α) : Term → α
  | .lit b => f (.lit b) []
  | .num w n => f (.num w n) []
  | .const name s => f (.const name s) []
  | .app op args => f (.app op args) (Term.foldList f args)
def Term.foldList (f : Term → List α → α) : List Term → List α
  | [] => []
  | t :: ts => Term.fold f t :: Term.foldList f ts
end

/-- The results of a list of terms are the results of its members. -/
theorem Term.foldList_eq_map (f : Term → List α → α) (ts : List Term) :
    Term.foldList f ts = ts.map (Term.fold f) := by
  induction ts with
  | nil => simp [Term.foldList]
  | cons t ts ih => simp [Term.foldList, ih]

/-- Results found so far, each the right one. -/
structure Term.Known (f : Term → List α → α) where
  table : Std.HashMap Term α := {}
  sound : ∀ t a, table[t]? = some a → a = Term.fold f t := by simp

/-- A right result together with the results found so far. -/
abbrev Term.Found (f : Term → List α → α) (t : Term) :=
  { a : α // a = Term.fold f t } × Term.Known f

def Term.Known.insert {f : Term → List α → α} (known : Term.Known f) (t : Term) (a : α)
    (h : a = Term.fold f t) : Term.Known f where
  table := known.table.insert t a
  sound := by
    intro u b hb
    rw [Std.HashMap.getElem?_insert] at hb
    split at hb
    · next he =>
      have : t = u := by simpa using he
      subst this
      have : a = b := by simpa using hb
      exact this ▸ h
    · exact known.sound u b hb

mutual
/-- The result of a term, looked up or found and kept. -/
def Term.foldKnown (f : Term → List α → α) (t : Term) (known : Term.Known f) : Term.Found f t :=
  match t with
  | .lit b => (⟨f (.lit b) [], by simp [Term.fold]⟩, known)
  | .num w n => (⟨f (.num w n) [], by simp [Term.fold]⟩, known)
  | .const name s => (⟨f (.const name s) [], by simp [Term.fold]⟩, known)
  | .app op args =>
    match h : known.table[Term.app op args]? with
    | some a => (⟨a, known.sound _ _ h⟩, known)
    | none =>
      let (⟨rs, hrs⟩, known) := Term.foldKnownList f args known
      let a := f (.app op args) rs
      have ha : a = Term.fold f (.app op args) := by simp [a, Term.fold, hrs]
      (⟨a, ha⟩, known.insert (.app op args) a ha)
def Term.foldKnownList (f : Term → List α → α) (ts : List Term) (known : Term.Known f) :
    { as : List α // as = Term.foldList f ts } × Term.Known f :=
  match ts with
  | [] => (⟨[], by simp [Term.foldList]⟩, known)
  | t :: ts =>
    let (⟨a, ha⟩, known) := Term.foldKnown f t known
    let (⟨as, has⟩, known) := Term.foldKnownList f ts known
    (⟨a :: as, by simp [Term.foldList, ha, has]⟩, known)
end

/-- `Term.fold` with every shared subterm treated once. -/
def Term.foldShared (f : Term → List α → α) (t : Term) : α :=
  (Term.foldKnown f t {}).1.1

@[simp] theorem Term.foldShared_eq (f : Term → List α → α) (t : Term) :
    Term.foldShared f t = Term.fold f t :=
  (Term.foldKnown f t {}).1.2

end Antecedent
