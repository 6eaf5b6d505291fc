import Antecedent.Constraint.Refute
import Antecedent.Proofs.Reading

/-!
# The goals that a state refutes

Looking for refuted goals goes down a tree and keeps the substitutions that it passes, while
flattening makes them on the way up.  Both see the same path.

* `Constraint.OnPath` says which nodes a state selects, with the substitutions around them.
* `Constraint.mem_refutation_iff` says which goals are found.
-/

namespace Antecedent

/-! ## §1 Substitutions around a node -/

/-- The state below some substitutions, the innermost first. -/
def State.under (s : State) : List Replacement → State
  | [] => s
  | pairs :: scope => (s.under scope).replaced pairs

section Scope

variable {s : State} {scope : List Replacement} (h : ∀ pairs ∈ scope, pairs.Writes)
include h

theorem State.flag_under : (s.under scope).flag cutSymbol = s.flag cutSymbol := by
  induction scope with
  | nil => rfl
  | cons pairs scope ih =>
    obtain ⟨hpairs, hscope⟩ := List.forall_mem_cons.mp h
    rw [State.under, hpairs.flag_replaced, ih hscope]

theorem State.cutAs_under {b : Bool} :
    ((s.cutAs b).under scope).cutAs b = (s.cutAs b).under scope :=
  State.cutAs_of_flag ((State.flag_under h).trans (s.flag_cutAs b))

namespace Constraint

theorem eval_inScope (t : Term) : (inScope scope t).eval s = t.eval (s.under scope) := by
  induction scope generalizing t with
  | nil => rfl
  | cons pairs scope ih =>
    obtain ⟨hpairs, hscope⟩ := List.forall_mem_cons.mp h
    calc (inScope scope (t.subst pairs)).eval s
        = (t.subst pairs).eval (s.under scope) := ih hscope _
      _ = t.eval ((s.under scope).replaced pairs) := Term.eval_subst (hpairs.fitsAt _) t

/-- A formula holds below the substitutions, with cut paths true. -/
theorem holdsIn_inScope (t : Term) :
    holdsIn s (inScope scope t) = t.holds ((s.cutAs true).under scope) := by
  rw [holdsIn, Term.value_eq, eval_resolveCuts, eval_inScope h, Term.holds]

/-- A hypothesis holds if its reading below the substitutions says so. -/
theorem holdsIn_flatten {ν : Nat → Constraint} {n : Nat} {c : Constraint} (hc : c.Listed ν n)
    (hs : c.Substitutes) :
    holdsIn s (inScope scope (c.flatten true)) = true ↔
      c.reading true ((s.cutAs true).under scope) = true := by
  rw [holdsIn_inScope h, hc.holds_flatten, reading_iff hs]

end Constraint

end Scope

namespace Constraint

/-! ## §2 Finding no goal -/

theorem refuteList_goals (s : State) (scope : List Replacement) (cs : List Constraint) :
    (refuteList s scope cs).goals = cs.flatMap fun c => (refute s scope c).goals := by
  induction cs with
  | nil => rfl
  | cons c cs ih => rw [refuteList, Refutation.append, List.flatMap_cons, ih]

/-- **No goal is refuted exactly if the tree is true.** -/
theorem refute_goals_eq_nil_iff {ν : Nat → Constraint} {n : Nat} {c : Constraint} {s : State}
    {scope : List Replacement} (hc : c.Listed ν n) (hs : c.Substitutes)
    (hscope : ∀ pairs ∈ scope, pairs.Writes) :
    (refute s scope c).goals = [] ↔ c.reading true ((s.cutAs true).under scope) = true := by
  -- a node below a substitution sees the state with the substitution made
  induction c using byNodes generalizing scope with
  | goal i name f =>
    rw [reading, State.cutAs_under hscope, ← holdsIn_inScope hscope, refute]
    cases holdsIn s (inScope scope f) <;> simp
  | ite i name cond yes no ihy ihn =>
    obtain ⟨-, hcy, hcn⟩ := everywhere_ite.mp hc
    obtain ⟨-, hsy, hsn⟩ := everywhere_ite.mp hs
    rw [reading, State.cutAs_under hscope, ← holdsIn_inScope hscope, refute]
    cases holdsIn s (inScope scope cond) with
    | true => exact ihy hcy hsy hscope
    | false => exact ihn hcn hsn hscope
  | clause i hyps concls ihh ihc =>
    obtain ⟨-, hch, hcc⟩ := everywhere_clause.mp hc
    obtain ⟨-, hsh, hsc⟩ := everywhere_clause.mp hs
    -- hypotheses are decided by their formulas, conclusions by what is found in them
    have hhyps : (hyps.all fun h => holdsIn s (inScope scope (h.flatten true))) = true ↔
        readings true hyps ((s.cutAs true).under scope) = true := by
      rw [List.all_eq_true, readings_iff]
      exact forall₂_congr fun d hd => holdsIn_flatten hscope (hch d hd) (hsh d hd)
    have hconcls : (refuteList s scope concls).goals = [] ↔
        readings true concls ((s.cutAs true).under scope) = true := by
      rw [refuteList_goals, List.flatMap_eq_nil_iff, readings_iff]
      exact forall₂_congr fun d hd => ihc d hd (hcc d hd) (hsc d hd) hscope
    rw [refute, reading, Bool.or_eq_true, Bool.not_eq_true', ← hconcls]
    split
    · next hall => simp [hhyps.mp hall]
    · next hall =>
      have hfalse : readings true hyps ((s.cutAs true).under scope) = false :=
        Bool.eq_false_iff.mpr fun hr => hall (hhyps.mpr hr)
      simp [hfalse]
  | subst i body pairs ih =>
    obtain ⟨-, hcb⟩ := everywhere_subst.mp hc
    obtain ⟨hpairs, hsb⟩ := everywhere_subst.mp hs
    rw [refute, reading, State.cutAs_under hscope]
    exact ih hcb hsb (List.forall_mem_cons.mpr ⟨hpairs, hscope⟩)

/-! ## §3 The goals found -/

/-- The nodes of a tree that a state selects, with the substitutions around them: one side of a
branch, and the conclusions of a clause whose hypotheses are true. -/
inductive OnPath (c : Constraint) (s : State) : List Replacement → Constraint → Prop where
  | top : c.OnPath s [] c
  | yes {scope : List Replacement} {i : Nat} {name : Json} {cond : Term} {yes no : Constraint}
      (h : c.OnPath s scope (.ite i name cond yes no))
      (hcond : cond.holds (s.under scope) = true) : c.OnPath s scope yes
  | no {scope : List Replacement} {i : Nat} {name : Json} {cond : Term} {yes no : Constraint}
      (h : c.OnPath s scope (.ite i name cond yes no))
      (hcond : cond.holds (s.under scope) = false) : c.OnPath s scope no
  | concl {scope : List Replacement} {i : Nat} {hyps concls : List Constraint} {d : Constraint}
      (h : c.OnPath s scope (.clause i hyps concls))
      (hhyps : ∀ h ∈ hyps, h.reading true (s.under scope) = true) (hd : d ∈ concls) :
      c.OnPath s scope d
  | body {scope : List Replacement} {i : Nat} {body : Constraint} {pairs : Replacement}
      (h : c.OnPath s scope (.subst i body pairs)) : c.OnPath s (pairs :: scope) body

section Found

variable {ν : Nat → Constraint} {n : Nat} {c d : Constraint} {s : State}
  {scope : List Replacement}

/-- What stands on the path is a node of the tree, below substitutions of the tree. -/
theorem OnPath.mem (h : c.OnPath s scope d) (hs : c.Substitutes) :
    d ∈ c.subtrees ∧ ∀ pairs ∈ scope, pairs.Writes := by
  induction h with
  | top => exact ⟨c.mem_subtrees_self, by simp⟩
  | yes _ _ ih =>
    exact ⟨subtrees_trans ih.1 (by simp [subtrees, mem_subtrees_self]), ih.2⟩
  | no _ _ ih =>
    exact ⟨subtrees_trans ih.1 (by simp [subtrees, mem_subtrees_self]), ih.2⟩
  | @concl _ _ _ _ d _ _ hd ih =>
    refine ⟨subtrees_trans ih.1 ?_, ih.2⟩
    simp only [subtrees, subtreesList_eq, List.mem_cons, List.mem_append, List.mem_flatMap]
    exact .inr (.inr ⟨d, hd, d.mem_subtrees_self⟩)
  | body _ ih =>
    refine ⟨subtrees_trans ih.1 (by simp [subtrees, mem_subtrees_self]), ?_⟩
    exact List.forall_mem_cons.mpr ⟨hs _ ih.1, ih.2⟩

theorem onPath_of_mem_refute (hc : c.Listed ν n) (hs : c.Substitutes)
    (h : c.OnPath (s.cutAs true) scope d) {g : RefutedGoal}
    (hg : g ∈ (refute s scope d).goals) :
    ∃ scope i f, c.OnPath (s.cutAs true) scope (.goal i g.name f) ∧ g.formula = inScope scope f ∧
      g.formula.holds (s.cutAs true) = false := by
  obtain ⟨hd, hscope⟩ := h.mem hs
  -- goals are found along the way that the state selects
  induction d using byNodes generalizing scope with
  | goal i name f =>
    rw [refute] at hg
    cases hf : holdsIn s (inScope scope f) with
    | true => simp [hf] at hg
    | false =>
      obtain rfl : g = ⟨name, inScope scope f⟩ := by simpa [hf] using hg
      refine ⟨scope, i, f, h, rfl, ?_⟩
      rwa [holdsIn_inScope hscope, Term.holds, ← eval_inScope hscope] at hf
  | ite i name cond yes no ihy ihn =>
    rw [refute] at hg
    cases hcond : holdsIn s (inScope scope cond) with
    | true =>
      have h := h.yes ((holdsIn_inScope hscope cond).symm.trans hcond)
      exact ihy h (by simpa [Refutation.append, hcond] using hg) (h.mem hs).1 hscope
    | false =>
      have h := h.no ((holdsIn_inScope hscope cond).symm.trans hcond)
      exact ihn h (by simpa [Refutation.append, hcond] using hg) (h.mem hs).1 hscope
  | clause i hyps concls ihh ihc =>
    obtain ⟨-, hch, -⟩ := everywhere_clause.mp (Everywhere.of_mem hc hd)
    obtain ⟨-, hsh, -⟩ := everywhere_clause.mp (Everywhere.of_mem hs hd)
    rw [refute] at hg
    split at hg
    · next hall =>
      have hhyps : ∀ h ∈ hyps, h.reading true ((s.cutAs true).under scope) = true := fun x hx =>
        (holdsIn_flatten hscope (hch x hx) (hsh x hx)).mp (List.all_eq_true.mp hall x hx)
      rw [refuteList_goals, List.mem_flatMap] at hg
      obtain ⟨x, hx, hg⟩ := hg
      have h := h.concl hhyps hx
      exact ihc x hx h hg (h.mem hs).1 hscope
    · simp at hg
  | subst i body pairs ih =>
    rw [refute] at hg
    exact ih h.body hg (h.body.mem hs).1 (h.body.mem hs).2

theorem OnPath.goals_subset (h : c.OnPath (s.cutAs true) scope d) (hc : c.Listed ν n)
    (hs : c.Substitutes) : (refute s scope d).goals ⊆ (c.refutation s).goals := by
  induction h with
  | top => exact List.Subset.refl _
  | @yes scope i name cond yes no hite hcond ih =>
    rw [← holdsIn_inScope (hite.mem hs).2] at hcond
    simpa [refute, Refutation.append, hcond] using ih
  | @no scope i name cond yes no hite hcond ih =>
    rw [← holdsIn_inScope (hite.mem hs).2] at hcond
    simpa [refute, Refutation.append, hcond] using ih
  | @concl scope i hyps concls d hclause hhyps hd ih =>
    obtain ⟨hmem, hscope⟩ := hclause.mem hs
    obtain ⟨-, hch, -⟩ := everywhere_clause.mp (Everywhere.of_mem hc hmem)
    obtain ⟨-, hsh, -⟩ := everywhere_clause.mp (Everywhere.of_mem hs hmem)
    -- the way goes on only below true hypotheses, which is what is tried
    have hall : (hyps.all fun h => holdsIn s (inScope scope (h.flatten true))) = true :=
      List.all_eq_true.mpr fun x hx =>
        (holdsIn_flatten hscope (hch x hx) (hsh x hx)).mpr (hhyps x hx)
    rw [refute, if_pos hall, refuteList_goals] at ih
    exact fun g hg => ih (List.mem_flatMap.mpr ⟨d, hd, hg⟩)
  | body _ ih => rwa [refute] at ih

/-- **The goals found are the false goals on the path**, with the substitutions around them made. -/
theorem mem_refutation_iff (hc : c.Listed ν n) (hs : c.Substitutes) {g : RefutedGoal} :
    g ∈ (c.refutation s).goals ↔
      ∃ scope i f, c.OnPath (s.cutAs true) scope (.goal i g.name f) ∧
        g.formula = inScope scope f ∧ g.formula.holds (s.cutAs true) = false := by
  constructor
  · exact onPath_of_mem_refute hc hs .top
  · rintro ⟨scope, i, f, h, hf, hfalse⟩
    refine h.goals_subset hc hs ?_
    have hscope := (h.mem hs).2
    rw [hf, Term.holds, eval_inScope hscope] at hfalse
    have hholds : holdsIn s (inScope scope f) = false := (holdsIn_inScope hscope f).trans hfalse
    obtain ⟨name, formula⟩ := g
    obtain rfl : formula = inScope scope f := hf
    simp [refute, hholds]

end Found

/-- **A report of refuted goals agrees with flattening**: some goal is reported exactly if the
formula of the tree is false, and the goals reported are the false goals on the path that the state
selects, with cut paths true and the substitutions around the goals made. -/
theorem refutation_goals_ne_nil_iff {c : Constraint} (hc : c.Coherent) (hs : c.Substitutes)
    (s : State) :
    (∃ φ, c.flatten? true = .ok φ ∧ ((c.refutation s).goals ≠ [] ↔ φ.holds s = false)) ∧
      ∀ g, g ∈ (c.refutation s).goals ↔
        ∃ scope i f, c.OnPath (s.cutAs true) scope (.goal i g.name f) ∧
          g.formula = inScope scope f ∧ g.formula.holds (s.cutAs true) = false := by
  obtain ⟨ν, n, hν⟩ := hc.exists_listed
  refine ⟨⟨_, hν.flatten?_eq_ok.mpr ⟨hs.sorted, rfl⟩, ?_⟩, fun g => mem_refutation_iff hν hs⟩
  have hnil : (c.refutation s).goals = [] ↔ c.reading true (s.cutAs true) = true :=
    refute_goals_eq_nil_iff hν hs (List.forall_mem_nil _)
  rw [Ne, hnil, reading_iff hs, Holds, State.cutAs_of_flag (s.flag_cutAs true), ← Holds,
    ← hν.holds_flatten, Bool.not_eq_true]

/-- The report for a state in which the counter is not zero. -/
theorem refutation_goals_ne_nil_iff_resetTree :
    resetTree.Coherent ∧ resetTree.Substitutes ∧
      ∃ φ, resetTree.flatten? true = .ok φ ∧
        φ.holds (State.zero.set (.text "now") (.bits 8) (.bits 8 1)) = false ∧
        (resetTree.refutation (State.zero.set (.text "now") (.bits 8) (.bits 8 1))).goals ≠ [] := by
  obtain ⟨⟨φ, hφ, hiff⟩, -⟩ := refutation_goals_ne_nil_iff coherent_resetTree substitutes_resetTree
    (State.zero.set (.text "now") (.bits 8) (.bits 8 1))
  obtain ⟨ν, n, hν⟩ := coherent_resetTree.exists_listed
  have hfalse : φ.holds (State.zero.set (.text "now") (.bits 8) (.bits 8 1)) = false := by
    obtain ⟨-, rfl⟩ := hν.flatten?_eq_ok.mp hφ
    rw [← Bool.not_eq_true, hν.holds_flatten, ← reading_iff substitutes_resetTree,
      Bool.not_eq_true, reading_resetTree]
  exact ⟨coherent_resetTree, substitutes_resetTree, φ, hφ, hfalse, hiff.mpr hfalse⟩

end Constraint

end Antecedent
