import Antecedent.Proofs.Carrying
import Antecedent.Proofs.Exactness
import Antecedent.Proofs.Filling

/-!
# Laws of preconditions

The tree that a walk leaves behind leads from every state to one place where the condition on exit
is read, or to none.  Which place this is depends on the walk only, so the precondition of a
conjunction is the conjunction of the preconditions, the same is true of disjunctions, and
preconditions of weaker conditions are weaker.

* `Constraint.exists_ending` is the place where a tree with gaps leads to.
* `precondition_healthy` gives the three laws.
-/

namespace Antecedent

/-! ## §1 What walks keep -/

theorem carried_lists : Carried fun σ ν c => σ.Lists ν c where
  mono hb hc := hb.lists hc
  frame _ hc := hc
  new hid _ hbelow := (Builds.new hid hbelow).2

theorem carried_passes : Carried fun _ _ c => c.Everywhere Constraint.Passes where
  mono _ hc := hc
  frame _ hc := hc
  new _ hpass hbelow := Constraint.everywhere_iff.mpr ⟨hpass, hbelow⟩

/-! ## §2 Where a tree with gaps leads to -/

namespace Constraint

variable {P K : Constraint}

/-- Goals have no gaps. -/
theorem IsGoal.fill (h : K.IsGoal) (P : Constraint) : fill P K = K := by
  cases K with
  | goal i name f => exact (atEnds_fill P).goal i name f
  | _ => exact h.elim

theorem map_fill_of_isGoal {cs : List Constraint} (h : ∀ c ∈ cs, c.IsGoal) (P : Constraint) :
    cs.map (fill P) = cs := by
  rw [List.map_congr_left fun c hc => (h c hc).fill P, List.map_id']

/-- The parts of a clause without gaps of its own. -/
theorem fill_clause {i : Nat} {hyps concls : List Constraint} (hne : concls ≠ []) :
    fill P (.clause i hyps concls) = .clause i (hyps.map (fill P)) (concls.map (fill P)) :=
  (atEnds_fill P).clause i hyps concls hne

/-- A tree keeps sorts if it does with its gaps filled. -/
theorem sorted_of_fill (hpass : K.Everywhere Passes) (h : (fill P K).Sorted) : K.Sorted := by
  induction K using byNodes with
  | goal i name f => exact sorted_goal
  | ite i name cond yes no ihy ihn =>
    rw [(atEnds_fill P).ite, sorted_ite] at h
    obtain ⟨-, hy, hn⟩ := everywhere_ite.mp hpass
    exact sorted_ite.mpr ⟨ihy hy h.1, ihn hn h.2⟩
  | clause i hyps concls ihh ihc =>
    obtain ⟨hown, hh, hc⟩ := everywhere_clause.mp hpass
    rcases hown with ⟨rfl, rfl⟩ | ⟨-, goals, c, rfl, -⟩
    · simp
    · rw [fill_clause (by simp), sorted_clause, List.forall_mem_map, List.forall_mem_map] at h
      exact sorted_clause.mpr
        ⟨fun d hd => ihh d hd (hh d hd) (h.1 d hd), fun d hd => ihc d hd (hc d hd) (h.2 d hd)⟩
  | subst i body pairs ih =>
    rw [(atEnds_fill P).subst, sorted_subst] at h
    exact sorted_subst.mpr ⟨h.1, ih (everywhere_subst.mp hpass).2 h.2⟩

theorem Sorted.fill (h : K.Sorted) (hpass : K.Everywhere Passes) (hP : P.Sorted) :
    (fill P K).Sorted := by
  induction K using byNodes with
  | goal i name f =>
    rw [(atEnds_fill P).goal]
    exact sorted_goal
  | ite i name cond yes no ihy ihn =>
    rw [(atEnds_fill P).ite, sorted_ite]
    obtain ⟨-, hy, hn⟩ := everywhere_ite.mp hpass
    exact ⟨ihy (sorted_ite.mp h).1 hy, ihn (sorted_ite.mp h).2 hn⟩
  | clause i hyps concls ihh ihc =>
    obtain ⟨hown, hh, hc⟩ := everywhere_clause.mp hpass
    -- a clause is the gap itself, or has goals beside the condition that it passes on
    rcases hown with ⟨rfl, rfl⟩ | ⟨-, goals, c, rfl, -⟩
    · rw [Constraint.fill]
      exact hP
    · obtain ⟨hsh, hsc⟩ := sorted_clause.mp h
      rw [fill_clause (by simp), sorted_clause, List.forall_mem_map, List.forall_mem_map]
      exact ⟨fun d hd => ihh d hd (hsh d hd) (hh d hd), fun d hd => ihc d hd (hsc d hd) (hc d hd)⟩
  | subst i body pairs ih =>
    obtain ⟨hpairs, hbody⟩ := sorted_subst.mp h
    rw [(atEnds_fill P).subst, sorted_subst]
    exact ⟨hpairs, ih hbody (everywhere_subst.mp hpass).2⟩

/-- What does not depend on the condition on exit is decided. -/
private theorem exists_ending_of_fixed {b : Bool} {X : Constraint → Prop} {c : Prop}
    (h : ∀ P, X P ↔ c) : ∃ o : Ending, ∀ P, X P ↔ o.Accepts (Holds b · P) b := by
  by_cases hc : c
  · exact ⟨.excused, fun P => by simp [h, hc, Ending.Accepts]⟩
  · exact ⟨.failed, fun P => by simp [h, hc, Ending.Accepts]⟩

/-- **A tree with gaps leads to one place**: from a given state, what the tree says with its gaps
filled is what is filled in says at one other state, or is decided without it. -/
theorem exists_ending (hpass : K.Everywhere Passes) (hsorted : K.Sorted) (b : Bool) (s : State) :
    ∃ o : Ending, ∀ P, (Constraint.fill P K).Holds b s ↔ o.Accepts (Holds b · P) b := by
  induction K using byNodes generalizing s with
  | goal i name f =>
    refine exists_ending_of_fixed (c := (Constraint.goal i name f).Holds b s) fun P => ?_
    rw [(atEnds_fill P).goal]
  | ite i name cond yes no ihy ihn =>
    obtain ⟨-, hy, hn⟩ := everywhere_ite.mp hpass
    obtain ⟨hsy, hsn⟩ := sorted_ite.mp hsorted
    simp only [(atEnds_fill _).ite, holds_ite]
    by_cases hcond : cond.holds (s.cutAs b) = true
    · simpa only [if_pos hcond] using ihy hy hsy s
    · simpa only [if_neg hcond] using ihn hn hsn s
  | clause i hyps concls ihh ihc =>
    obtain ⟨hown, -, hc⟩ := everywhere_clause.mp hpass
    obtain ⟨-, hsc⟩ := sorted_clause.mp hsorted
    rcases hown with ⟨rfl, rfl⟩ | ⟨hhyps, goals, c, rfl, hgoals⟩
    · -- the gap itself
      refine ⟨.exit s, fun P => ?_⟩
      rw [Constraint.fill]
      rfl
    · have hmem : c ∈ goals ++ [c] := by simp
      obtain ⟨o, ho⟩ := ihc c hmem (hc c hmem) (hsc c hmem) s
      have hfilled : ∀ P, (Constraint.fill P (.clause i hyps (goals ++ [c]))).Holds b s ↔
          ((∀ h ∈ hyps, h.Holds b s) → (∀ g ∈ goals, g.Holds b s) ∧ o.Accepts (Holds b · P) b) := by
        intro P
        rw [fill_clause (by simp), holds_clause, map_fill_of_isGoal hhyps, List.map_append,
          map_fill_of_isGoal hgoals, List.forall_mem_append, List.map_singleton,
          List.forall_mem_singleton, ho]
      -- false hypotheses or goals decide the clause, whatever fills the gap
      by_cases hh : ∀ h ∈ hyps, h.Holds b s
      · by_cases hg : ∀ g ∈ goals, g.Holds b s
        · exact ⟨o, fun P => (hfilled P).trans ⟨fun h => (h hh).2, fun h _ => ⟨hg, h⟩⟩⟩
        · exact exists_ending_of_fixed (c := False) fun P =>
            (hfilled P).trans ⟨fun h => hg (h hh).1, False.elim⟩
      · exact exists_ending_of_fixed (c := True) fun P =>
          (hfilled P).trans ⟨fun _ => True.intro, fun _ h => absurd h hh⟩
  | subst i body pairs ih =>
    obtain ⟨hown, hbody⟩ := everywhere_subst.mp hpass
    obtain ⟨hkeeps, hsbody⟩ := sorted_subst.mp hsorted
    have hwrites : pairs.Writes := Replacement.Replaces.writes hown hkeeps
    simp only [(atEnds_fill _).subst, holds_subst_of_writes hwrites]
    exact ih hbody hsbody _

end Constraint

/-! ## §3 The laws -/

namespace Ending

variable {P Q R : State → Prop} {b : Bool}

theorem accepts_and {o : Ending} (h : ∀ s, R s ↔ P s ∧ Q s) :
    o.Accepts R b ↔ o.Accepts P b ∧ o.Accepts Q b := by
  cases o <;> simp [Accepts, h]

theorem accepts_or {o : Ending} (h : ∀ s, R s ↔ P s ∨ Q s) :
    o.Accepts R b ↔ o.Accepts P b ∨ o.Accepts Q b := by
  cases o <;> simp [Accepts, h]

theorem Accepts.mono {o : Ending} (ho : o.Accepts P b) (h : ∀ s, P s → Q s) : o.Accepts Q b := by
  cases o with
  | exit s => exact h s ho
  | cut | excused | failed => exact ho

end Ending

section Walk

variable {σ σ' : Session} {sub : Sub} {P K : Constraint} {b : Bool} {ψ : Term}

theorem Constraint.Stands.lists_fill (h : P.Stands σ b ψ) (hsound : σ.env.Sound)
    (hflagged : σ.env.Flagged) (hwalk : (precondition Constraint.gap sub).Ends σ K σ') :
    ∃ ν, σ'.Lists ν (Constraint.fill P K) := by
  obtain ⟨ν, hν⟩ := h.exists_lists
  have hends : (precondition P sub).Ends σ (Constraint.fill P K) σ' := by
    rw [ends_precondition_fill]
    exact ⟨K, hwalk, rfl⟩
  obtain ⟨ν', -, hl⟩ := carried_lists.precondition hν sub hflagged hsound _ _ hends
  exact ⟨ν', hl⟩

/-- The formula of a precondition follows where the walk leads to. -/
theorem Constraint.Stands.exists_formula (h : P.Stands σ b ψ) (hsound : σ.env.Sound)
    (hflagged : σ.env.Flagged) (hwalk : (precondition Constraint.gap sub).Ends σ K σ')
    (hpass : K.Everywhere Passes) (hsorted : K.Sorted) :
    ∃ φ, (Constraint.fill P K).flatten? b = .ok φ ∧
      ∀ s, φ.holds s = true ↔ (Constraint.fill P K).Holds b s := by
  obtain ⟨ν, hl⟩ := h.lists_fill hsound hflagged hwalk
  exact ⟨_, hl.flatten?_eq_ok.mpr ⟨hsorted.fill hpass h.sorted, rfl⟩, hl.holds_flatten b⟩

end Walk

/-! ## §4 A guess -/

/-- Guesses the counter, and leaves by a call. -/
def guessBlk : Blk where
  tid := .str "only"
  defs := [{ tid := .str "guess", lhs := counter, rhs := .unknown (.int 8) (.str "input") }]
  jmps := [{ tid := .str "ask", kind := .call, target := .str "g" }]

def guess : Sub where
  name := .str "guess"
  blks := [guessBlk]

/-- The counter, with meanings of calls and a condition on loads. -/
def guessEnv : Environment :=
  { counterEnv false with
    summaries := Summary.standard [] true
    hooks := [.nonNull .load .verify] }

/-- The condition before the call. -/
def guessCall (post : Constraint) : Constraint :=
  .subst 1 post [(.const (.ofText "called_g") .bool, .lit true)]

/-- The condition before the guess. -/
def guessPre (post : Constraint) : Constraint :=
  .subst 2 (guessCall post)
    [(counterTerm false, .const (.ofText (Environment.numbered "unknown" 1)) (.bits 8))]

set_option maxRecDepth 1000 in
theorem ends_guess (post : Constraint) :
    ∃ σ, (precondition post guess).Ends ⟨{ nodes := 1 }, guessEnv⟩ (guessPre post) σ :=
  ⟨_, rfl⟩

/-! ## §5 Healthiness -/

/-- **Preconditions are healthy.**  If the walk of a subroutine returns and its result has a formula
for one condition on exit, then it returns for all of them, their preconditions have formulas, and
for both values of cut paths and in every state the precondition of a conjunction is the conjunction
of the preconditions, the precondition of a disjunction is the disjunction of the preconditions, and
a condition that implies another one has a precondition that implies the other's. -/
theorem precondition_healthy {σ σ' : Session} {sub : Sub} {P0 pre0 : Constraint} {b0 : Bool}
    {ψ0 φ0 : Term} (hsound : σ.env.Sound) (hflagged : σ.env.Flagged) (hP0 : P0.Stands σ b0 ψ0)
    (hwalk : (precondition P0 sub).Ends σ pre0 σ') (hφ0 : pre0.flatten? b0 = .ok φ0) :
    ∃ wp : Constraint → Constraint, (∀ P, (precondition P sub).Ends σ (wp P) σ') ∧
      ∀ b P Q R ψ χ ω, P.Stands σ b ψ → Q.Stands σ b χ → R.Stands σ b ω →
        ∃ φP φQ φR, (wp P).flatten? b = .ok φP ∧ (wp Q).flatten? b = .ok φQ ∧
          (wp R).flatten? b = .ok φR ∧
          ((∀ s, ω.holds s = (ψ.holds s && χ.holds s)) →
            ∀ s, φR.holds s = (φP.holds s && φQ.holds s)) ∧
          ((∀ s, ω.holds s = (ψ.holds s || χ.holds s)) →
            ∀ s, φR.holds s = (φP.holds s || φQ.holds s)) ∧
          ((∀ s, ψ.holds s = true → χ.holds s = true) →
            ∀ s, φP.holds s = true → φQ.holds s = true) := by
  -- the walk with a gap
  rw [ends_precondition_fill] at hwalk
  obtain ⟨K, hwalk, rfl⟩ := hwalk
  have hpass : K.Everywhere Constraint.Passes := by
    have hgap : Constraint.gap.Everywhere Constraint.Passes := by
      simp [Constraint.gap, Constraint.Passes]
    obtain ⟨-, -, hK⟩ :=
      carried_passes.precondition (ν := fun _ => Constraint.gap) hgap sub hflagged hsound _ _ hwalk
    exact hK
  have hsorted : K.Sorted := by
    obtain ⟨ν, hl⟩ := hP0.lists_fill hsound hflagged hwalk
    exact Constraint.sorted_of_fill hpass (hl.flatten?_eq_ok.mp hφ0).1
  refine ⟨fun P => Constraint.fill P K, fun P => ?_, fun b P Q R ψ χ ω hP hQ hR => ?_⟩
  · rw [ends_precondition_fill]
    exact ⟨K, hwalk, rfl⟩
  · obtain ⟨φP, hφP, hholdsP⟩ := hP.exists_formula hsound hflagged hwalk hpass hsorted
    obtain ⟨φQ, hφQ, hholdsQ⟩ := hQ.exists_formula hsound hflagged hwalk hpass hsorted
    obtain ⟨φR, hφR, hholdsR⟩ := hR.exists_formula hsound hflagged hwalk hpass hsorted
    refine ⟨φP, φQ, φR, hφP, hφQ, hφR, fun hand s => ?_, fun hor s => ?_, fun himp s => ?_⟩
    · obtain ⟨o, ho⟩ := Constraint.exists_ending hpass hsorted b s
      have hlaw : ∀ s, R.Holds b s ↔ P.Holds b s ∧ Q.Holds b s := fun s => by
        rw [← hP.holds_iff, ← hQ.holds_iff, ← hR.holds_iff, hand, Bool.and_eq_true]
      rw [Bool.eq_iff_iff, Bool.and_eq_true, hholdsP, hholdsQ, hholdsR, ho, ho, ho,
        Ending.accepts_and hlaw]
    · obtain ⟨o, ho⟩ := Constraint.exists_ending hpass hsorted b s
      have hlaw : ∀ s, R.Holds b s ↔ P.Holds b s ∨ Q.Holds b s := fun s => by
        rw [← hP.holds_iff, ← hQ.holds_iff, ← hR.holds_iff, hor, Bool.or_eq_true]
      rw [Bool.eq_iff_iff, Bool.or_eq_true, hholdsP, hholdsQ, hholdsR, ho, ho, ho,
        Ending.accepts_or hlaw]
    · obtain ⟨o, ho⟩ := Constraint.exists_ending hpass hsorted b s
      rw [hholdsP, hholdsQ, ho, ho]
      intro haccepts
      refine haccepts.mono fun s' => ?_
      rw [← hP.holds_iff, ← hQ.holds_iff]
      exact himp s'

/-- The precondition of the guess is healthy. -/
theorem precondition_healthy_guess :
    ∃ (wp : Constraint → Constraint) (σ : Session),
      (∀ P, (precondition P guess).Ends ⟨{ nodes := 1 }, guessEnv⟩ (wp P) σ) ∧
      ∀ b P Q R ψ χ ω, P.Stands ⟨{ nodes := 1 }, guessEnv⟩ b ψ →
        Q.Stands ⟨{ nodes := 1 }, guessEnv⟩ b χ → R.Stands ⟨{ nodes := 1 }, guessEnv⟩ b ω →
        ∃ φP φQ φR, (wp P).flatten? b = .ok φP ∧ (wp Q).flatten? b = .ok φQ ∧
          (wp R).flatten? b = .ok φR ∧
          ((∀ s, ω.holds s = (ψ.holds s && χ.holds s)) →
            ∀ s, φR.holds s = (φP.holds s && φQ.holds s)) ∧
          ((∀ s, ω.holds s = (ψ.holds s || χ.holds s)) →
            ∀ s, φR.holds s = (φP.holds s || φQ.holds s)) ∧
          ((∀ s, ψ.holds s = true → χ.holds s = true) →
            ∀ s, φP.holds s = true → φQ.holds s = true) := by
  have hpre : (guessPre counterIsZero).Coherent := by
    simp [Constraint.Coherent, guessPre, guessCall, counterIsZero, Constraint.subtrees,
      Constraint.id]
  have hsorted : (guessPre counterIsZero).Sorted := by
    simp [guessPre, guessCall, counterIsZero, counterTerm, Replacement.keepsSorts,
      Term.sort]
  obtain ⟨ν, n, hν⟩ := hpre.exists_listed
  obtain ⟨σ, hends⟩ := ends_guess counterIsZero
  obtain ⟨wp, hwp, hhealthy⟩ := precondition_healthy (sound_counterEnv false)
    (Environment.flagged_of_nil rfl) (stands_counterIsZero (by decide) true) hends
    (hν.flatten?_eq_ok.mpr ⟨hsorted, rfl⟩)
  exact ⟨wp, σ, hwp, hhealthy⟩

end Antecedent
