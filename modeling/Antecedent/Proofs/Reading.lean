import Antecedent.Proofs.Flattening

/-!
# The reading of a tree

What a constraint says can be read off the tree node by node, with the state as the only context: a
branch picks a side, a clause is an implication, and a waiting substitution changes the state in
which its body is read.

* `Constraint.reading` is this reading, as a function that can be run.
* `Constraint.reading_iff` says that it is the truth of the formula of the tree.
-/

namespace Antecedent

/-! ## §1 Cut paths -/

theorem State.cutAs_of_flag {s : State} {b : Bool} (h : s.flag cutSymbol = b) :
    s.cutAs b = s := by
  obtain ⟨flag, word, memory, apply⟩ := s
  simp only [State.cutAs, State.set, State.mk.injEq, reduceCtorEq, and_false, if_false, and_true,
    Value.isTrue]
  funext n
  split
  · next hn => rw [hn, ← h]
  · rfl

@[simp] theorem State.flag_cutAs (s : State) (b : Bool) : (s.cutAs b).flag cutSymbol = b := by
  simp [State.cutAs, State.set, Value.isTrue]

/-! ## §2 Substitutions that write constants -/

@[simp] theorem Replacement.find?_nil (t : Term) : Replacement.find? [] t = none := rfl

@[simp] theorem Replacement.find?_cons (old new : Term) (σ : Replacement) (t : Term) :
    Replacement.find? ((old, new) :: σ) t = if old = t then some new else σ.find? t := by
  rw [Replacement.find?, Replacement.find?, List.find?_cons]
  by_cases h : old = t
  · simp [h]
  · simp [h, beq_false_of_ne h]

/-- Whether a replacement is of constants, not of the one for cut paths, by well-sorted terms of
their sorts. -/
def Replacement.Writes (σ : Replacement) : Prop :=
  ∀ p ∈ σ, ∃ name srt, p.1 = .const name srt ∧ p.1 ≠ Term.loopCut ∧ p.2.WellSorted ∧
    p.2.sort = srt

namespace Replacement.Writes

variable {σ : Replacement} (h : σ.Writes)
include h

theorem fitsAt (s : State) : σ.FitsAt s := by
  intro p hp
  obtain ⟨name, srt, hold, -, hnew, rfl⟩ := h p hp
  exact ⟨name, _, hold, Term.eval_fits hnew s⟩

theorem keepsSorts : σ.keepsSorts = true := by
  rw [Replacement.keepsSorts, List.all_eq_true]
  rintro ⟨old, new⟩ hp
  obtain ⟨name, srt, rfl, -, -, hsort⟩ := h _ hp
  exact beq_iff_eq.mpr hsort.symm

/-- Cut paths count as before. -/
theorem flag_replaced (s : State) : (s.replaced σ).flag cutSymbol = s.flag cutSymbol := by
  have hnone : σ.find? Term.loopCut = none := by
    rw [Option.eq_none_iff_forall_ne_some]
    intro t ht
    obtain ⟨-, -, -, hne, -⟩ := h _ (Replacement.mem_of_find? ht)
    exact hne rfl
  have hcut : Term.const cutSymbol .bool = Term.loopCut := rfl
  simp [State.replaced, hcut, hnone]

end Replacement.Writes

namespace Constraint

/-- Whether the substitution of a node writes constants. -/
def WritesOwn : Constraint → Prop
  | .subst _ _ pairs => pairs.Writes
  | _ => True

/-- Whether all substitutions of a tree write constants. -/
def Substitutes (c : Constraint) : Prop :=
  c.Everywhere WritesOwn

theorem Substitutes.sorted {c : Constraint} (h : c.Substitutes) : c.Sorted := by
  refine Everywhere.mono h fun d hd => ?_
  cases d with
  | subst i body pairs => exact Replacement.Writes.keepsSorts hd
  | _ => trivial

/-! ## §3 Reading -/

mutual
/-- Whether a tree is true in a state, read node by node, with cut paths true or false. -/
def reading (b : Bool) : Constraint → State → Bool
  | .goal _ _ f, s => f.holds (s.cutAs b)
  | .ite _ _ cond yes no, s =>
    if cond.holds (s.cutAs b) then reading b yes s else reading b no s
  | .clause _ hyps concls, s => !readings b hyps s || readings b concls s
  -- all new terms are read before the first constant is written
  | .subst _ body pairs, s => reading b body ((s.cutAs b).replaced pairs)
/-- Whether all trees of a list are true in a state. -/
def readings (b : Bool) : List Constraint → State → Bool
  | [], _ => true
  | c :: cs, s => reading b c s && readings b cs s
end

variable {b : Bool} {s : State}

theorem readings_iff {cs : List Constraint} :
    readings b cs s = true ↔ ∀ c ∈ cs, c.reading b s = true := by
  induction cs with
  | nil => simp [readings]
  | cons c cs ih => simp [readings, ih]

theorem holds_subst_of_writes {i : Nat} {body : Constraint} {pairs : Replacement}
    (h : pairs.Writes) :
    (Constraint.subst i body pairs).Holds b s ↔ body.Holds b ((s.cutAs b).replaced pairs) := by
  -- cut paths count there as before, so nothing is lost by saying it again
  have hflag : ((s.cutAs b).replaced pairs).flag cutSymbol = b := by
    rw [h.flag_replaced, State.flag_cutAs]
  rw [Holds, Holds, State.cutAs_of_flag hflag, plain, Term.holds, Term.holds,
    Term.eval_subst (h.fitsAt _)]

/-- **The reading of a tree is the truth of its formula.** -/
theorem reading_iff {c : Constraint} (h : c.Substitutes) :
    c.reading b s = true ↔ c.Holds b s := by
  -- a substitution changes the state of what is below it
  induction c using byNodes generalizing s with
  | goal i name f => rw [reading, holds_goal]
  | ite i name cond yes no ihy ihn =>
    obtain ⟨-, hy, hn⟩ := everywhere_ite.mp h
    rw [reading, holds_ite]
    by_cases hcond : cond.holds (s.cutAs b) = true
    · rw [if_pos hcond, if_pos hcond]
      exact ihy hy
    · rw [if_neg hcond, if_neg hcond]
      exact ihn hn
  | clause i hyps concls ihh ihc =>
    obtain ⟨-, hh, hc⟩ := everywhere_clause.mp h
    have hhyps : readings b hyps s = true ↔ ∀ c ∈ hyps, c.Holds b s :=
      readings_iff.trans (forall₂_congr fun c hm => ihh c hm (hh c hm))
    have hconcls : readings b concls s = true ↔ ∀ c ∈ concls, c.Holds b s :=
      readings_iff.trans (forall₂_congr fun c hm => ihc c hm (hc c hm))
    rw [reading, holds_clause, ← hhyps, ← hconcls]
    cases readings b hyps s <;> simp
  | subst i body pairs ih =>
    obtain ⟨hpairs, hbody⟩ := everywhere_subst.mp h
    have hpairs : pairs.Writes := hpairs
    rw [reading, ih hbody, holds_subst_of_writes hpairs]

/-! ## §4 An example -/

/-- A counter is set to zero and its old value kept.  The cut path behind the branch is also the
hypothesis. -/
def resetTree : Constraint :=
  let now := Term.const (.text "now") (.bits 8)
  let before := Term.const (.text "before") (.bits 8)
  let cut := Constraint.goal 1 "cut" Term.loopCut
  .clause 0 [cut]
    [.subst 2
      (.ite 3 (.str "jump") (.app .eq [now, .num 8 0])
        (.goal 4 "unchanged" (.app .eq [now, before])) cut)
      [(now, .num 8 0), (before, now)]]

theorem coherent_resetTree : resetTree.Coherent := by
  simp [Coherent, resetTree, subtrees, subtreesList, id]

theorem substitutes_resetTree : resetTree.Substitutes := by
  have hwrites : Replacement.Writes
      [(.const (.text "now") (.bits 8), .num 8 0),
        (.const (.text "before") (.bits 8), .const (.text "now") (.bits 8))] := by
    rintro p hp
    rcases List.mem_cons.mp hp with rfl | hp
    · exact ⟨_, _, rfl, by simp [Term.loopCut], .num (by decide), rfl⟩
    · obtain rfl := List.mem_singleton.mp hp
      exact ⟨_, _, rfl, by simp [Term.loopCut], .const _ _, rfl⟩
  simpa [Substitutes, resetTree, WritesOwn] using hwrites

/-- Setting a counter to zero that is not zero changes it. -/
theorem reading_resetTree :
    resetTree.reading true (State.zero.set (.text "now") (.bits 8) (.bits 8 1)) = false := by
  simp [resetTree, reading, readings, Term.holds, Op.eval, State.const, State.replaced,
    State.cutAs, State.set, cutSymbol, Term.loopCut, Value.same, Value.isTrue, Value.toNat]

end Constraint

end Antecedent
