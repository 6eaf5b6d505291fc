import Antecedent.Proofs.Verdict

/-!
# Cut paths and exact proofs

A check counts cut paths as true, and a proof is exact if it does not need that.  This is sound
because cut paths stand in positive places only: counting them as true instead of false can make the
formula of a tree true, but never false.

* `Term.Positive` says that a term mentions cut paths in positive places only, and
  `Constraint.PositiveCuts` is the same for trees.
* `check_exact` says what the answers of a check mean.
-/

namespace Antecedent

/-! ## §1 Terms without cut paths -/

namespace Term

variable {σ : Replacement} {t : Term}

theorem subst_of_leaf (h : ∀ op args, t ≠ .app op args) : t.subst σ = (σ.find? t).getD t := by
  rw [Term.subst, foldShared_eq]
  cases t with
  | lit b => rw [Term.fold, Replacement.step.eq_def]; cases σ.find? (.lit b) <;> rfl
  | num w n => rw [Term.fold, Replacement.step.eq_def]; cases σ.find? (.num w n) <;> rfl
  | const name srt =>
    rw [Term.fold, Replacement.step.eq_def]
    cases σ.find? (.const name srt) <;> rfl
  | app op args => exact absurd rfl (h op args)

theorem subst_app (op : Op) (args : List Term) :
    (Term.app op args).subst σ =
      (σ.find? (.app op args)).getD (.app op (args.map (Term.subst σ))) := by
  have hargs : foldList σ.step args = args.map (Term.subst σ) := by
    induction args with
    | nil => simp [foldList]
    | cons t ts ih => simp [foldList, ih, Term.subst]
  rw [Term.subst, foldShared_eq, Term.fold, Replacement.step, hargs]
  cases σ.find? (.app op args) <;> rfl

/-- Terms that do not mention cut paths. -/
inductive CutFree : Term → Prop where
  | lit (b : Bool) : CutFree (.lit b)
  | num (w n : Nat) : CutFree (.num w n)
  | const {name : Symbol} {srt : Srt} (h : Term.const name srt ≠ loopCut) :
      CutFree (.const name srt)
  | app {op : Op} {args : List Term} (hargs : ∀ t ∈ args, CutFree t) : CutFree (.app op args)

/-- What a substitution puts in is one of its new terms, or the term itself. -/
theorem find?_getD_of {P : Term → Prop} (hσ : ∀ p ∈ σ, P p.2) {u : Term} (hu : P u) :
    P ((σ.find? t).getD u) := by
  cases hfind : σ.find? t with
  | none => exact hu
  | some new => exact hσ _ (Replacement.mem_of_find? hfind)

theorem CutFree.subst (h : t.CutFree) (hσ : ∀ p ∈ σ, p.2.CutFree) : (t.subst σ).CutFree := by
  induction h with
  | lit b => rw [subst_of_leaf (by simp)]; exact find?_getD_of hσ (.lit b)
  | num w n => rw [subst_of_leaf (by simp)]; exact find?_getD_of hσ (.num w n)
  | const h => rw [subst_of_leaf (by simp)]; exact find?_getD_of hσ (.const h)
  | app _ ih =>
    rw [subst_app]
    refine find?_getD_of hσ (.app fun u hu => ?_)
    obtain ⟨t, ht, rfl⟩ := List.mem_map.mp hu
    exact ih t ht

/-- A term that does not mention cut paths does not depend on how they count. -/
theorem CutFree.eval_cutAs (h : t.CutFree) (s : State) (b : Bool) :
    t.eval (s.cutAs b) = t.eval s := by
  induction h with
  | lit b => simp
  | num w n => simp
  | @const name srt h =>
    rw [eval_const, eval_const]
    refine s.const_set_ne (not_and_or.mp ?_)
    rintro ⟨rfl, rfl⟩
    exact h rfl
  | @app op args _ ih =>
    rw [eval_app, eval_app, List.map_congr_left ih]
    -- function symbols mean the same, since only a flag is set
    cases op <;> rfl

theorem CutFree.holds_cutAs (h : t.CutFree) (s : State) (b : Bool) :
    t.holds (s.cutAs b) = t.holds s := by
  rw [Term.holds, Term.holds, h.eval_cutAs]

/-! ## §2 Terms with cut paths in positive places -/

/-- Terms that mention cut paths in positive places only, as the formulas of trees do. -/
inductive Positive : Term → Prop where
  | free {t : Term} (h : t.CutFree) : Positive t
  | cut : Positive loopCut
  | ite {c t u : Term} (hc : c.CutFree) (ht : Positive t) (hu : Positive u) :
      Positive (.app .ite [c, t, u])
  | and {ts : List Term} (hts : ∀ t ∈ ts, Positive t) : Positive (.app .and ts)
  | implies {t u : Term} (ht : t.CutFree) (hu : Positive u) : Positive (.app .implies [t, u])

/-- A substitution that does not mention cut paths leaves them where they are. -/
theorem Positive.subst (h : t.Positive) (hσ : ∀ p ∈ σ, p.1.CutFree ∧ p.2.CutFree) :
    (t.subst σ).Positive := by
  have hnew : ∀ p ∈ σ, p.2.CutFree := fun p hp => (hσ p hp).2
  have hpos : ∀ p ∈ σ, p.2.Positive := fun p hp => .free (hnew p hp)
  -- what is put in has no cut paths, so a place does not matter where it goes
  induction h with
  | free h => exact .free (h.subst hnew)
  | cut =>
    have hnone : σ.find? loopCut = none := by
      rw [Option.eq_none_iff_forall_ne_some]
      intro new hfind
      obtain ⟨hold, -⟩ := hσ _ (Replacement.mem_of_find? hfind)
      cases hold with
      | const h => exact h rfl
    rw [subst_of_leaf (by simp [loopCut]), hnone]
    exact .cut
  | ite hc _ _ iht ihu =>
    rw [subst_app]
    exact find?_getD_of hpos (.ite (hc.subst hnew) iht ihu)
  | and _ ih =>
    rw [subst_app]
    refine find?_getD_of hpos (.and fun u hu => ?_)
    obtain ⟨t, ht, rfl⟩ := List.mem_map.mp hu
    exact ih t ht
  | implies ht _ ih =>
    rw [subst_app]
    exact find?_getD_of hpos (.implies (ht.subst hnew) ih)

/-- **Cut paths in positive places are monotone**: what is true with cut paths false is true with
cut paths true. -/
theorem Positive.holds_mono (h : t.Positive) {s : State} (hfalse : t.holds (s.cutAs false) = true) :
    t.holds (s.cutAs true) = true := by
  induction h with
  | free h => rwa [h.holds_cutAs] at hfalse ⊢
  | cut => rfl
  | ite hc _ _ iht ihu =>
    rw [holds_ite, hc.holds_cutAs] at hfalse ⊢
    split at hfalse
    · next hcond => rw [if_pos hcond]; exact iht hfalse
    · next hcond => rw [if_neg hcond]; exact ihu hfalse
  | and _ ih =>
    rw [holds_and, List.all_eq_true] at hfalse ⊢
    exact fun t ht => ih t ht (hfalse t ht)
  | implies ht _ ih =>
    rw [holds_implies, ht.holds_cutAs, Bool.or_eq_true] at hfalse ⊢
    exact hfalse.imp_right ih

end Term

/-! ## §3 Trees -/

namespace Constraint

/-- Whether what a node itself mentions is free of cut paths. -/
def CutFreeOwn : Constraint → Prop
  | .goal _ _ f => f.CutFree
  | .ite _ _ cond _ _ => cond.CutFree
  | .clause _ _ _ => True
  | .subst _ _ pairs => ∀ p ∈ pairs, p.1.CutFree ∧ p.2.CutFree

/-- Trees that do not mention cut paths. -/
def CutFree (c : Constraint) : Prop :=
  c.Everywhere CutFreeOwn

/-- Trees in which cut paths are whole goals that do not lie in hypotheses. -/
inductive PositiveCuts : Constraint → Prop where
  | goal {i : Nat} {name : String} {f : Term} (h : f = Term.loopCut ∨ f.CutFree) :
      PositiveCuts (.goal i name f)
  | ite {i : Nat} {name : Json} {cond : Term} {yes no : Constraint} (hcond : cond.CutFree)
      (hyes : PositiveCuts yes) (hno : PositiveCuts no) : PositiveCuts (.ite i name cond yes no)
  | clause {i : Nat} {hyps concls : List Constraint} (hhyps : ∀ c ∈ hyps, c.CutFree)
      (hconcls : ∀ c ∈ concls, PositiveCuts c) : PositiveCuts (.clause i hyps concls)
  | subst {i : Nat} {body : Constraint} {pairs : Replacement}
      (hpairs : ∀ p ∈ pairs, p.1.CutFree ∧ p.2.CutFree) (hbody : PositiveCuts body) :
      PositiveCuts (.subst i body pairs)

variable {c : Constraint}

/-- The formula of a tree without cut paths does not mention them. -/
theorem CutFree.plain (h : c.CutFree) : c.plain.CutFree := by
  have hand : ∀ {ts : List Term}, (∀ t ∈ ts, t.CutFree) → (conjunction ts).CutFree := by
    intro ts hts
    cases ts with
    | nil => exact .lit true
    | cons t ts => exact .app hts
  -- a node adds no cut paths of its own
  induction c using byNodes with
  | goal i name f =>
    rw [Constraint.plain]
    exact everywhere_goal.mp h
  | ite i name cond yes no ihy ihn =>
    obtain ⟨hcond, hyes, hno⟩ := everywhere_ite.mp h
    rw [Constraint.plain]
    refine .app ?_
    simp only [List.forall_mem_cons, List.not_mem_nil, false_imp_iff, implies_true, and_true]
    exact ⟨hcond, ihy hyes, ihn hno⟩
  | clause i hyps concls ihh ihc =>
    obtain ⟨-, hhyps, hconcls⟩ := everywhere_clause.mp h
    have hh : ∀ t ∈ plainList hyps, t.CutFree := by
      simpa [plainList_eq_map] using fun d hd => ihh d hd (hhyps d hd)
    have hc : ∀ t ∈ plainList concls, t.CutFree := by
      simpa [plainList_eq_map] using fun d hd => ihc d hd (hconcls d hd)
    rw [Constraint.plain, clauseFormula.eq_def]
    split
    · exact hand hc
    · refine .app ?_
      simp only [List.forall_mem_cons, List.not_mem_nil, false_imp_iff, implies_true, and_true]
      exact ⟨.app hh, hand hc⟩
  | subst i body pairs ih =>
    obtain ⟨hpairs, hbody⟩ := everywhere_subst.mp h
    rw [Constraint.plain]
    exact (ih hbody).subst fun p hp => (hpairs p hp).2

/-- The formula of a tree with cut paths in positive places mentions them there only. -/
theorem PositiveCuts.plain (h : c.PositiveCuts) : c.plain.Positive := by
  induction h with
  | @goal i name f h =>
    rw [Constraint.plain]
    rcases h with rfl | h
    · exact .cut
    · exact .free h
  | ite hcond _ _ ihy ihn =>
    rw [Constraint.plain]
    exact .ite hcond ihy ihn
  | @clause i hyps concls hhyps _ ihc =>
    -- hypotheses are in negative places, and have no cut paths at all
    have hh : ∀ t ∈ plainList hyps, t.CutFree := by
      simpa [plainList_eq_map] using fun d hd => (hhyps d hd).plain
    have hc : (conjunction (plainList concls)).Positive := by
      rw [plainList_eq_map, conjunction.eq_def]
      split
      · exact .free (.lit true)
      · exact .and (by simpa using ihc)
    rw [Constraint.plain, clauseFormula.eq_def]
    split
    · exact hc
    · exact .implies (.app hh) hc
  | subst hpairs _ ih =>
    rw [Constraint.plain]
    exact ih.subst hpairs

theorem PositiveCuts.cutFree (h : c.PositiveCuts)
    (hnone : ∀ d ∈ c.subtrees, d.isCut = false) : c.CutFree := by
  change c.Everywhere (·.isCut = false) at hnone
  induction h with
  | @goal i name f h =>
    refine everywhere_goal.mpr (h.resolve_left ?_)
    rintro rfl
    simpa [isCut] using everywhere_goal.mp hnone
  | ite hcond _ _ ihy ihn =>
    obtain ⟨-, hyes, hno⟩ := everywhere_ite.mp hnone
    exact everywhere_ite.mpr ⟨hcond, ihy hyes, ihn hno⟩
  | clause hhyps _ ihc =>
    obtain ⟨-, -, hconcls⟩ := everywhere_clause.mp hnone
    exact everywhere_clause.mpr ⟨trivial, hhyps, fun d hd => ihc d hd (hconcls d hd)⟩
  | subst hpairs _ ih =>
    obtain ⟨-, hbody⟩ := everywhere_subst.mp hnone
    exact everywhere_subst.mpr ⟨hpairs, ih hbody⟩

/-- Whether the formula of a tree is true in every state, with cut paths true or false. -/
def Valid (c : Constraint) (b : Bool) : Prop :=
  ∀ s, (c.flatten b).holds s = true

section Coherent

variable (hc : c.Coherent) (hcuts : c.PositiveCuts)
include hc hcuts

theorem Coherent.flatten_mono {s : State} (h : (c.flatten false).holds s = true) :
    (c.flatten true).holds s = true := by
  obtain ⟨ν, n, hl⟩ := hc.exists_listed
  rw [hl.holds_flatten, Holds] at h ⊢
  exact hcuts.plain.holds_mono h

/-- Where no cut path is found, it does not matter how they count. -/
theorem Coherent.flatten_eq_of_hasCuts (hnone : c.hasCuts = false) (s : State) :
    (c.flatten false).holds s = (c.flatten true).holds s := by
  obtain ⟨ν, n, hl⟩ := hc.exists_listed
  have hfree : c.plain.CutFree := by
    refine (hcuts.cutFree fun d hd => ?_).plain
    rw [hasCuts, List.any_eq_false] at hnone
    simpa using hnone d ((hl.mem_nodes d).mpr hd)
  rw [Bool.eq_iff_iff, hl.holds_flatten, hl.holds_flatten, Holds, Holds, hfree.holds_cutAs,
    hfree.holds_cutAs]

end Coherent

end Constraint

/-! ## §4 Solvers that decide -/

/-- Whether a solver decides validity: it is right, and it always gives an answer. -/
structure Solver.Decides (solver : Solver) : Prop extends solver.Sound where
  known : ∀ φ reason, solver φ ≠ .unknown reason

namespace Solver.Decides

variable {solver : Solver} (h : solver.Decides)
include h

theorem eq_valid_iff {φ : Term} : solver φ = .valid ↔ ∀ s, φ.holds s = true := by
  refine ⟨h.valid, fun hall => ?_⟩
  cases hφ : solver φ with
  | valid => rfl
  | invalid m => exact absurd (hall m.state) (by simp [h.invalid hφ])
  | unknown reason => exact absurd hφ (h.known φ reason)

theorem exists_invalid {φ : Term} (hφ : ¬∀ s, φ.holds s = true) :
    ∃ m, solver φ = .invalid m ∧ φ.holds m.state = false := by
  cases hs : solver φ with
  | valid => exact absurd (h.valid hs) hφ
  | invalid m => exact ⟨m, rfl, h.invalid hs⟩
  | unknown reason => exact absurd hs (h.known φ reason)

end Solver.Decides

open Classical in
noncomputable def Solver.ideal : Solver := fun φ =>
  if h : ∃ s, φ.holds s = false then .invalid ⟨h.choose, []⟩ else .valid

theorem Solver.decides_ideal : Solver.ideal.Decides where
  valid {φ} hφ s := by
    unfold ideal at hφ
    split at hφ
    · cases hφ
    · next hnone => simpa using fun hs => hnone ⟨s, hs⟩
  invalid {φ m} hφ := by
    unfold ideal at hφ
    split at hφ
    · next hsome =>
      cases hφ
      exact hsome.choose_spec
    · cases hφ
  known φ reason hφ := by
    unfold ideal at hφ
    split at hφ <;> cases hφ

/-! ## §5 What the answers of a check mean -/

section Check

variable {c : Constraint} {solver : Solver} (hsolver : solver.Decides)
include hsolver

/-- A check refutes what is not valid with cut paths true. -/
theorem check_of_not_valid (h : ¬c.Valid true) :
    ∃ m, check solver c = .refuted m ∧ (c.flatten true).holds m.state = false := by
  obtain ⟨m, hm, hfalse⟩ := hsolver.exists_invalid h
  exact ⟨m, by rw [check, hm], hfalse⟩

/-- A check proves the rest, and the proof is exact if the tree is valid with cut paths false. -/
theorem check_of_valid (hc : c.Coherent) (hcuts : c.PositiveCuts) (h : c.Valid true)
    {b : Bool} (hexact : b = true ↔ c.Valid false) : check solver c = .proved b := by
  rw [check, hsolver.eq_valid_iff.mpr h]
  cases hnone : c.hasCuts with
  | false =>
    have hfalse : c.Valid false := fun s => (hc.flatten_eq_of_hasCuts hcuts hnone s).trans (h s)
    rw [hexact.mpr hfalse]
    rfl
  | true =>
    cases b with
    | true => simp [hsolver.eq_valid_iff.mpr (hexact.mp rfl)]
    | false =>
      have hfalse : ¬c.Valid false := by simpa using hexact
      obtain ⟨m, hm, -⟩ := hsolver.exists_invalid hfalse
      simp [hm]

end Check

/-- **What the answers of a check mean**, for a solver that decides validity, on a tree with cut
paths in positive places.  Counting cut paths as true never makes the tree false, and it does not
matter where the tree has none.  A proof is exact if the tree is valid either way, a proof that is
not exact needs cut paths to be true, and a refutation is exact and gives a state in which the tree
is false even with cut paths true. -/
theorem check_exact {c : Constraint} {solver : Solver} (hc : c.Coherent) (hcuts : c.PositiveCuts)
    (hsolver : solver.Decides) :
    (∀ s, (c.flatten false).holds s = true → (c.flatten true).holds s = true) ∧
      (c.hasCuts = false → ∀ s, (c.flatten false).holds s = (c.flatten true).holds s) ∧
      (check solver c = .proved true ↔ c.Valid true ∧ c.Valid false) ∧
      (check solver c = .proved false ↔ c.Valid true ∧ ¬c.Valid false) ∧
      ((check solver c).verdict = .refuted ↔ ¬c.Valid true) ∧
      ∀ m, check solver c = .refuted m →
        (check solver c).exact = true ∧ (c.flatten true).holds m.state = false := by
  refine ⟨fun s => hc.flatten_mono hcuts, hc.flatten_eq_of_hasCuts hcuts, ?_⟩
  by_cases htrue : c.Valid true
  · by_cases hfalse : c.Valid false
    · have hcheck := check_of_valid hsolver hc hcuts htrue (b := true) (by simp [hfalse])
      simp [hcheck, htrue, hfalse, Outcome.verdict]
    · have hcheck := check_of_valid hsolver hc hcuts htrue (b := false) (by simp [hfalse])
      simp [hcheck, htrue, hfalse, Outcome.verdict]
  · obtain ⟨m, hcheck, hm⟩ := check_of_not_valid hsolver htrue
    simp [hcheck, htrue, hm, Outcome.verdict, Outcome.exact]

/-- A small number is counted down once; unless it is zero then, the path is cut. -/
def countTree : Constraint :=
  let n := Term.const (.text "n") (.bits 8)
  .clause 0 [.goal 1 "small" (.app (.order .ule) [n, .num 8 3])]
    [.subst 2
      (.ite 3 (.str "done") (.app .eq [n, .num 8 0]) (.goal 4 "true" (.lit true))
        (.goal 5 "cut" Term.loopCut))
      [(n, .app (.arith .sub) [n, .num 8 1])]]

theorem coherent_countTree : countTree.Coherent := by
  simp [Constraint.Coherent, countTree, Constraint.subtrees, Constraint.subtreesList, Constraint.id]

theorem positiveCuts_countTree : countTree.PositiveCuts := by
  have hn : (Term.const (.text "n") (.bits 8)).CutFree := .const (by simp [Term.loopCut])
  have happ : ∀ (op : Op) (k : Nat),
      (Term.app op [.const (.text "n") (.bits 8), .num 8 k]).CutFree :=
    fun op k => .app (by simpa using ⟨hn, .num 8 k⟩)
  refine .clause ?_ (List.forall_mem_singleton.mpr (.subst ?_ ?_))
  · exact List.forall_mem_singleton.mpr (Constraint.everywhere_goal.mpr (happ _ _))
  · exact List.forall_mem_singleton.mpr ⟨hn, happ _ _⟩
  · exact .ite (happ _ _) (.goal (.inr (.lit true))) (.goal (.inl rfl))

/-- The tree is true where the number is large, where it is one, and where cut paths are true. -/
theorem holds_countTree {b : Bool} {s : State} : countTree.Holds b s ↔
    (s.word (.text "n") 8 % 256 ≤ 3 → s.word (.text "n") 8 % 256 = 1 ∨ b = true) := by
  -- the tree has three conditions on the counter: small, taken one from, and done
  have hover : (Term.app (.arith .sub) [.const (.text "n") (.bits 8), .num 8 1]).Over
      fun _ srt => srt ≠ .bool :=
    .app (by simp) (by simpa using ⟨.const (by simp), .num 8 1⟩)
  have hsmall : (Term.app (.order .ule) [.const (.text "n") (.bits 8), .num 8 3]).holds
      (s.cutAs b) = true ↔ s.word (.text "n") 8 % 256 ≤ 3 := by
    simp [Term.holds, Op.eval, State.const, State.cutAs, State.set, Value.isTrue, Order.eval,
      BitVec.ule_eq_decide]
  have hdown : (Term.app (.arith .sub) [.const (.text "n") (.bits 8), .num 8 1]).eval s =
      .bits 8 ((s.word (.text "n") 8 + 255) % 256) := by
    simp [Op.eval, State.const, Value.toNat, Arith.evalAll, Arith.eval, Value.ofBitVec,
      Nat.add_comm]
  have hdone : (Term.app .eq [.const (.text "n") (.bits 8), .num 8 0]).holds
      ((s.set (.text "n") (.bits 8) (.bits 8 ((s.word (.text "n") 8 + 255) % 256))).cutAs b) =
        true ↔ s.word (.text "n") 8 % 256 = 1 := by
    simp only [Term.holds, Term.eval_app, Op.eval, List.map_cons, List.map_nil, Term.eval_const,
      Term.eval_num, State.const, State.cutAs, State.set, Value.same, Value.isTrue, Value.toNat]
    simp
    omega
  have hcut : ∀ s : State, Term.loopCut.holds (s.cutAs b) = b := fun _ => rfl
  rw [countTree, Constraint.holds_clause]
  simp only [List.forall_mem_singleton, Constraint.holds_goal, hsmall]
  rw [Constraint.holds_subst (.inr (by simp)) hover (Value.fits_ofBitVec _), hdown]
  simp only [Constraint.holds_ite, Constraint.holds_goal, hcut, Term.holds_lit, hdone]
  by_cases hone : s.word (.text "n") 8 % 256 = 1 <;> simp [hone]

theorem valid_countTree : countTree.Valid true ∧ ¬countTree.Valid false := by
  obtain ⟨ν, n, hl⟩ := coherent_countTree.exists_listed
  constructor
  · intro s
    rw [hl.holds_flatten, holds_countTree]
    exact fun _ => .inr rfl
  · intro h
    have hzero := h State.zero
    rw [hl.holds_flatten, holds_countTree] at hzero
    simp [State.zero] at hzero

/-- The check of the tree proves it up to the bound. -/
theorem check_exact_countTree :
    countTree.Coherent ∧ countTree.PositiveCuts ∧ Solver.ideal.Decides ∧
      check Solver.ideal countTree = .proved false :=
  ⟨coherent_countTree, positiveCuts_countTree, Solver.decides_ideal,
    (check_exact coherent_countTree positiveCuts_countTree Solver.decides_ideal).2.2.2.1.mpr
      valid_countTree⟩

end Antecedent
