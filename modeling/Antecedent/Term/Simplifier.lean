import Antecedent.Term.Subst

/-!
# Simplifiers

The conditions of jumps are simplified before they are used.  How this is done is left open: a
`Simplifier` is a function on formulas together with what is relied on.

* `Term.WellSorted` and `Term.Over` say that a term is put together as it should be, and of which
  constants; `Term.Denotes` says in addition what its value is.
* `Term.rename` gives other names to the constants of a term.
* `Simplifier.ground` finds the truth values of formulas without constants.
-/

namespace Antecedent

/-! ## §1 Values of terms -/

/-- The value of an operator that is no function symbol is the same in all states. -/
theorem Op.eval_congr {op : Op} (hop : ∀ f ss w, op ≠ .apply f ss w) (s s' : State)
    (vs : List Value) : op.eval s vs = op.eval s' vs := by
  unfold Op.eval
  split
  case h_21 f ss w => exact absurd rfl (hop f ss w)
  all_goals rfl

namespace Term

variable {P Q : Symbol → Srt → Prop} {t : Term}

/-- **Induction on terms**, with what is to be shown of an application known of its arguments. -/
theorem induction {P : Term → Prop} (lit : ∀ b, P (.lit b)) (num : ∀ w n, P (.num w n))
    (const : ∀ name srt, P (.const name srt))
    (app : ∀ op args, (∀ u ∈ args, P u) → P (.app op args)) (t : Term) : P t := by
  refine @Term.rec P (fun ts => ∀ u ∈ ts, P u) lit num const app ?_ ?_ t
  · simp
  · exact fun u us hu hus => List.forall_mem_cons.mpr ⟨hu, hus⟩

@[simp] theorem eval_lit (b : Bool) (s : State) : (Term.lit b).eval s = .bool b := by
  rw [Term.eval]

@[simp] theorem eval_num (w n : Nat) (s : State) : (Term.num w n).eval s = .bits w n := by
  rw [Term.eval]

@[simp] theorem eval_const (name : Symbol) (srt : Srt) (s : State) :
    (Term.const name srt).eval s = s.const name srt := by
  rw [Term.eval]

@[simp] theorem eval_app (op : Op) (args : List Term) (s : State) :
    (Term.app op args).eval s = op.eval s (args.map (Term.eval s)) := by
  rw [Term.eval, evalList_eq_map]

/-! ## §2 Well-sorted terms and their constants -/

/-- Terms all of whose operators fit their arguments and whose numerals are in range. -/
inductive WellSorted : Term → Prop where
  | lit (b : Bool) : WellSorted (.lit b)
  | num {w n : Nat} (h : n < Nat.pow 2 w) : WellSorted (.num w n)
  | const (name : Symbol) (srt : Srt) : WellSorted (.const name srt)
  | app {op : Op} {args : List Term} {srt : Srt} (hargs : ∀ t ∈ args, WellSorted t)
      (hs : op.sort? (args.map Term.sort) = some srt) : WellSorted (.app op args)

/-- Terms without function symbols all of whose constants satisfy a predicate. -/
inductive Over (P : Symbol → Srt → Prop) : Term → Prop where
  | lit (b : Bool) : Over P (.lit b)
  | num (w n : Nat) : Over P (.num w n)
  | const {name : Symbol} {srt : Srt} (h : P name srt) : Over P (.const name srt)
  | app {op : Op} {args : List Term} (hop : ∀ f ss w, op ≠ .apply f ss w)
      (hargs : ∀ t ∈ args, Over P t) : Over P (.app op args)

/-- Terms that are well sorted and all of whose constants satisfy a predicate. -/
structure Proper (P : Symbol → Srt → Prop) (t : Term) : Prop where
  sorted : t.WellSorted
  uses : t.Over P

/-- A proper term with the given value in every state. -/
structure Denotes (P : Symbol → Srt → Prop) (t : Term) (v : State → Value) : Prop where
  proper : t.Proper P
  eval : ∀ s, t.eval s = v s

theorem Over.mono (h : t.Over P) (hPQ : ∀ n srt, P n srt → Q n srt) : t.Over Q := by
  induction h with
  | lit b => exact .lit b
  | num w n => exact .num w n
  | const h => exact .const (hPQ _ _ h)
  | app hop _ ih => exact .app hop ih

/-- **Frame rule for terms**: the value of a term depends on its constants only. -/
theorem eval_congr (h : t.Over P) {s s' : State}
    (hs : ∀ n srt, P n srt → s.const n srt = s'.const n srt) : t.eval s = t.eval s' := by
  induction h with
  | lit b => simp
  | num w n => simp
  | const h => simpa using hs _ _ h
  | @app op args hop _ ih =>
    have hargs : args.map (Term.eval s) = args.map (Term.eval s') := List.map_congr_left ih
    rw [eval_app, eval_app, hargs]
    exact Op.eval_congr hop s s' _

/-- A list of ground terms has ground members. -/
theorem isGround_of_areGround {ts : List Term} (h : areGround ts = true) :
    ∀ u ∈ ts, u.isGround = true := by
  induction ts with
  | nil => simp
  | cons u us ih =>
    rw [areGround, Bool.and_eq_true] at h
    exact List.forall_mem_cons.mpr ⟨h.1, ih h.2⟩

/-- A ground term is one over no constants. -/
theorem Over.of_isGround (h : t.Over P) (hg : t.isGround = true) : t.Over fun _ _ => False := by
  induction h with
  | lit b => exact .lit b
  | num w n => exact .num w n
  | const _ => simp [isGround] at hg
  | app hop _ ih => exact .app hop fun u hu => ih u hu (isGround_of_areGround hg u hu)

/-! ## §3 Renamed terms -/

/-- Gives other names to the constants of a term. -/
def rename (r : Symbol → Symbol) (t : Term) : Term :=
  t.fold fun u args =>
    match u with
    | .const name srt => .const (r name) srt
    | .app op _ => .app op args
    | u => u

variable {r : Symbol → Symbol}

@[simp] theorem rename_lit (b : Bool) : (Term.lit b).rename r = .lit b := rfl

@[simp] theorem rename_num (w n : Nat) : (Term.num w n).rename r = .num w n := rfl

@[simp] theorem rename_const (name : Symbol) (srt : Srt) :
    (Term.const name srt).rename r = .const (r name) srt := rfl

@[simp] theorem rename_app (op : Op) (args : List Term) :
    (Term.app op args).rename r = .app op (args.map (rename r)) := by
  rw [rename, fold, foldList_eq_map]
  rfl

@[simp] theorem isGround_rename (t : Term) : (t.rename r).isGround = t.isGround := by
  induction t using Term.induction with
  | lit b => rfl
  | num w n => rfl
  | const name srt => rfl
  | app op args hargs =>
    have hall : ∀ {ts : List Term}, (∀ u ∈ ts, (u.rename r).isGround = u.isGround) →
        areGround (ts.map (rename r)) = areGround ts := by
      intro ts h
      induction ts with
      | nil => rfl
      | cons u us ih =>
        obtain ⟨hu, hus⟩ := List.forall_mem_cons.mp h
        simp only [List.map_cons, areGround, hu, ih hus]
    rw [rename_app, isGround, isGround, hall hargs]

/-- Terms without constants have nothing to rename. -/
theorem rename_of_isGround {t : Term} (h : t.isGround = true) : t.rename r = t := by
  induction t using Term.induction with
  | lit b => rfl
  | num w n => rfl
  | const name srt => simp [isGround] at h
  | app op args hargs =>
    have hall : args.map (rename r) = args.map id :=
      List.map_congr_left fun u hu => hargs u hu (isGround_of_areGround h u hu)
    rw [rename_app, hall, List.map_id]

end Term

/-! ## §4 Simplifiers -/

/-- A way to simplify formulas.  A simplified formula is well sorted, has no other constants and is
true in the same states, and whether it is a literal does not depend on the names of the constants,
as long as different ones have different names. -/
structure Simplifier where
  apply : Term → Term
  denotes : ∀ {P : Symbol → Srt → Prop} {t : Term} {v : State → Bool},
    t.Denotes P (fun s => .bool (v s)) → (apply t).Denotes P fun s => .bool (v s)
  literal_rename : ∀ {r : Symbol → Symbol}, (∀ x y, r x = r y → x = y) →
    ∀ t b, apply (t.rename r) = .lit b ↔ apply t = .lit b

namespace Simplifier

/-- The literal of a formula without constants; other formulas stay as they are. -/
def foldGround (t : Term) : Term :=
  if t.isGround then .lit (t.eval State.zero).isTrue else t

/-- The simplifier that replaces a formula without constants by its truth value. -/
def ground : Simplifier where
  apply := foldGround
  denotes {P t v} h := by
    unfold foldGround
    split
    · next hground =>
      refine ⟨⟨.lit _, .lit _⟩, fun s => ?_⟩
      have heq : t.eval State.zero = t.eval s :=
        Term.eval_congr (h.proper.uses.of_isGround hground) fun _ _ hf => hf.elim
      rw [Term.eval_lit, heq, h.eval, Value.isTrue]
    · exact h
  literal_rename _ t b := by
    unfold foldGround
    rw [Term.isGround_rename]
    split
    · next hground => rw [Term.rename_of_isGround hground]
    · cases t <;> simp

end Simplifier

end Antecedent
