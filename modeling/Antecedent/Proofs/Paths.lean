import Antecedent.Proofs.Inlining
import Antecedent.Proofs.Refutation

/-!
# The path that is reported is the path that is run

Looking for refuted goals in the precondition of a subroutine decides the branches of the tree one
after the other.  These are the jumps that the run from the same state decides, in this order,
except for those whose conditions were folded.

* `Constraint.Reaches` is the way through a tree that a state selects.
* `Pursues` says that a condition goes the way of the runs of some code.
* `refutation_precondition` is the result.
-/

namespace Antecedent

open Constraint (PathStep Refutation)

variable {e : Environment} {k : Key} {s : State} {path : List PathStep} {o : Ending} {j : Jmp}
  {σ σ' : Session} {cond : Term} {c : Constraint} {ν : Nat → Constraint}

/-! ## §1 Ways through a tree -/

namespace Constraint

/-- A state selects a way through a tree: it decides some branches, and below the substitutions that
it passes there is a tree that is read in another state. -/
inductive Reaches : Constraint → State → List PathStep → Constraint → State → Prop where
  | refl (c : Constraint) (s : State) : Reaches c s [] c s
  | ite {i : Nat} {name : Json} {cond : Term} {yes no d : Constraint} {s s' : State}
      {path : List PathStep} (h : Reaches (if cond.holds s then yes else no) s path d s') :
      Reaches (.ite i name cond yes no) s (⟨name, cond.holds s⟩ :: path) d s'
  | subst {i : Nat} {body d : Constraint} {pairs : Replacement} {s s' : State}
      {path : List PathStep} (hpairs : pairs.Writes)
      (h : Reaches body (s.replaced pairs) path d s') :
      Reaches (.subst i body pairs) s path d s'

variable {d k : Constraint} {s' s'' : State} {path' : List PathStep}

theorem Reaches.trans (h : c.Reaches s path d s') (h' : d.Reaches s' path' k s'') :
    c.Reaches s (path ++ path') k s'' := by
  induction h with
  | refl => exact h'
  | ite _ ih => exact .ite (ih h')
  | subst hpairs _ ih => exact .subst hpairs (ih h')

/-- The goals of a tree are those at the end of the way, and the path is the way to there. -/
theorem Reaches.refute_eq (h : c.Reaches s path d s') {root : State} {scope : List Replacement}
    (hscope : ∀ pairs ∈ scope, pairs.Writes) (hs : s = (root.cutAs true).under scope) :
    ∃ scope', (∀ pairs ∈ scope', pairs.Writes) ∧ s' = (root.cutAs true).under scope' ∧
      refute root scope c = Refutation.append { path } (refute root scope' d) := by
  induction h generalizing scope with
  | refl => exact ⟨scope, hscope, hs, rfl⟩
  | @ite i name cond yes no d s s' path _ ih =>
    obtain ⟨scope', hscope', hs', hrefute⟩ := ih hscope hs
    refine ⟨scope', hscope', hs', ?_⟩
    rw [refute, holdsIn_inScope hscope, ← hs]
    split <;> simp_all [Refutation.append]
  | @subst i body d pairs s s' path hpairs _ ih =>
    have hscope' : ∀ p ∈ pairs :: scope, p.Writes := List.forall_mem_cons.mpr ⟨hpairs, hscope⟩
    rw [refute]
    exact ih hscope' (by rw [State.under, ← hs])

end Constraint

/-! ## §2 Runs with the jumps that they decide -/

namespace Jmp

/-- Whether the condition of a jump is folded to a truth value. -/
def folds (e : Environment) (j : Jmp) : Bool :=
  (j.folded? e).isSome

def holds (e : Environment) (s : State) (j : Jmp) : Bool :=
  (j.cond.value (e.look s)).toNat != 0

def steps (e : Environment) (s : State) (j : Jmp) : List PathStep :=
  if j.folds e then [] else [⟨j.branchName, j.holds e s⟩]

/-- What the jumps of a block add to a path, up to the one that is taken. -/
def trail (e : Environment) (s : State) : List Jmp → List PathStep
  | [] => []
  | j :: js => j.steps e s ++ if j.holds e s then [] else trail e s js

end Jmp

/-- Runs from the block of a key, with the jumps decided on the way, to the exit or a cut. -/
inductive Flow.Follows (f : Flow) (e : Environment) :
    Key → State → List PathStep → Ending → Prop where
  | cut {k : Key} {s : State} (hcut : f.isCut e.unroll k = .ok true) : Follows f e k s [] .cut
  | leave {k : Key} {s s' : State} {n : Node} {j : Option Jmp}
      (hcut : f.isCut e.unroll k = .ok false) (hnode : f.node k = .ok n)
      (hrun : n.block.run e s = .ok (s', j)) (hafter : f.graph.after n j = some .outside) :
      Follows f e k s (Jmp.trail e s' n.block.jmps) (.exit s')
  | go {k : Key} {s s' : State} {n : Node} {j : Option Jmp} {l : Label} {path : List PathStep}
      {o : Ending} (hcut : f.isCut e.unroll k = .ok false) (hnode : f.node k = .ok n)
      (hrun : n.block.run e s = .ok (s', j)) (hafter : f.graph.after n j = some (.block l))
      (next : Follows f e (f.key (f.graph.resolve l) k.counts) s' path o) :
      Follows f e k s (Jmp.trail e s' n.block.jmps ++ path) o

theorem Flow.Follows.runs {f : Flow} (h : f.Follows e k s path o) : f.Runs e k s o := by
  induction h with
  | cut hcut => exact .cut hcut
  | leave hcut hnode hrun hafter => exact .leave hcut hnode hrun hafter
  | go hcut hnode hrun hafter _ ih => exact .go hcut hnode hrun hafter ih

theorem Flow.Follows.unique {f : Flow} {path' : List PathStep} {o' : Ending}
    (h : f.Follows e k s path o) (h' : f.Follows e k s path' o') : path = path' := by
  -- a run is at one key at a time, and the block there leaves one rule
  induction h generalizing path' with
  | cut hcut =>
    cases h' with
    | cut _ => rfl
    | leave hcut' | go hcut' => cases hcut.symm.trans hcut'
  | leave hcut hnode hrun hafter =>
    cases h' with
    | cut hcut' => cases hcut.symm.trans hcut'
    | leave _ hnode' hrun' =>
      cases hnode.symm.trans hnode'
      cases hrun.symm.trans hrun'
      rfl
    | go _ hnode' hrun' hafter' =>
      cases hnode.symm.trans hnode'
      cases hrun.symm.trans hrun'
      cases hafter.symm.trans hafter'
  | go hcut hnode hrun hafter _ ih =>
    cases h' with
    | cut hcut' => cases hcut.symm.trans hcut'
    | leave _ hnode' hrun' hafter' =>
      cases hnode.symm.trans hnode'
      cases hrun.symm.trans hrun'
      cases hafter.symm.trans hafter'
    | go _ hnode' hrun' hafter' next' =>
      cases hnode.symm.trans hnode'
      cases hrun.symm.trans hrun'
      cases hafter.symm.trans hafter'
      rw [ih next']

/-- Runs of a subroutine with the jumps that they decide. -/
def Sub.Follows (sub : Sub) (e : Environment) (s : State) (path : List PathStep) (o : Ending) :
    Prop :=
  if sub.blks.isEmpty then path = [] ∧ o = .exit s
  else ∃ f n rest, sub.flow = .ok f ∧ f.graph = n :: rest ∧
    f.Follows e (f.key n.label []) s path o

/-! ## §3 Folded conditions -/

theorem Jmp.folds_iff {accesses : List Access}
    (h : (j.cond.condition j.tid).Ends σ (cond, accesses) σ') (hj : j.cond.isKnown = true)
    (hg : σ'.env.Grows e) : j.folds e = true ↔ ∃ b, cond = .lit b := by
  have hagain := (Expr.repeats_condition hj h).2 ⟨{}, e⟩ hg
  rw [folds, Option.isSome_iff_exists]
  simp only [folded?_iff hagain]

/-! ## §4 Conditions that go the way of runs -/

/-- A condition goes the way of a run: to the condition on exit, or to a cut. -/
def Constraint.Arrives (c post : Constraint) (s : State) (path : List PathStep) : Ending → Prop
  | .exit s' => c.Reaches (s.cutAs true) path post (s'.cutAs true)
  | .cut => ∃ d s', d.isCut = true ∧ c.Reaches (s.cutAs true) path d s'
  | _ => False

theorem Constraint.Reaches.arrives {d post : Constraint} {s' : State} {path' : List PathStep}
    (h : c.Reaches (s.cutAs true) path d (s'.cutAs true)) (hd : d.Arrives post s' path' o) :
    c.Arrives post s (path ++ path') o := by
  cases o with
  | exit s'' => exact h.trans hd
  | cut =>
    obtain ⟨k, s'', hk, hd⟩ := hd
    exact ⟨k, s'', hk, h.trans hd⟩
  | excused | failed => exact hd

/-- How runs of a piece of code may go and end, from every state of an environment. -/
abbrev Course := Environment → State → List PathStep → Ending → Prop

/-- A condition made in a session goes the way of a run, from every state. -/
def Pursues (post : Constraint) (X : Course) (σ : Session) (ν : Nat → Constraint)
    (c : Constraint) : Prop :=
  σ.Lists ν c ∧ ∀ e, σ.env.Grows e → e.Sound → c.Sorted → ∀ s, ∃ path o, X e s path o ∧
    c.Arrives post s path o

theorem Pursues.mono {post : Constraint} {X : Course} {ν' : Nat → Constraint}
    (hb : Builds σ ν σ' ν') (h : Pursues post X σ ν c) : Pursues post X σ' ν' c :=
  ⟨hb.lists h.1, fun e hg hs => h.2 e (hb.step.env.trans hg) hs⟩

namespace Build

variable {post : Constraint}

/-- A branch is the side of a literal, and otherwise it keeps both sides. -/
theorem branch_cases {name : Json} {yes no : Constraint} (h : (branch name cond yes no).Ends σ c σ')
    :
    (∃ b, cond = .lit b ∧ c = if b then yes else no) ∨
      (∀ b, cond ≠ .lit b) ∧ ∃ i, c = .ite i name cond yes no := by
  unfold branch at h
  split at h
  · obtain ⟨rfl, -⟩ := ends_pure.mp h
    exact .inl ⟨true, rfl, rfl⟩
  · obtain ⟨rfl, -⟩ := ends_pure.mp h
    exact .inl ⟨false, rfl, rfl⟩
  · next htrue hfalse =>
    simp only [ends_bind, ends_nodeId, ends_pure] at h
    obtain ⟨_, _, ⟨rfl, rfl⟩, rfl, rfl⟩ := h
    refine .inr ⟨fun b hb => ?_, _, rfl⟩
    cases b with
    | true => exact htrue hb
    | false => exact hfalse hb

theorem reaches_definition {d : Def} (h : (definition post d).Ends σ c σ')
    (hhooks : σ.env.hooks = []) (hd : d.rhs.isKnown = true) (hpost : σ.Lists ν post) :
    ∃ ν', Builds σ ν σ' ν' ∧ σ'.Lists ν' c ∧ ∀ e, σ'.env.Grows e → e.Sound → c.Sorted →
      post.Sorted ∧ ∀ s, ∃ s', d.run e s = .ok s' ∧
        c.Reaches (s.cutAs true) [] post (s'.cutAs true) := by
  simp only [definition, ends_bind] at h
  obtain ⟨⟨rhs, accesses⟩, τ, hrhs, lhs, τ', hlhs, body, τ'', hbody, h⟩ := h
  obtain ⟨hstep1, -, htr⟩ := Expr.ends_toTerm hrhs hd
  obtain ⟨hstep2, -, hgives⟩ := ends_getVar hlhs
  have hb1 : Builds σ ν τ' ν := .of_step (hstep1.trans hstep2)
  obtain ⟨i, ν', rfl, hb2, hl⟩ := ends_substitution hbody (hb1.lists hpost)
  have hb := hb1.trans hb2
  obtain ⟨rfl, rfl⟩ := guarded_eq h (hb.step.env.hooks.trans hhooks)
  refine ⟨ν', hb, hl, fun e hg hs hsorted => ?_⟩
  have hgrow := hb2.step.env.trans hg
  have htr := htr e (hstep2.env.trans hgrow) hs
  have hgives := hgives.grows hgrow
  obtain ⟨name, srt, rfl, howns⟩ := hgives.const hs
  obtain ⟨hkeeps, hpost⟩ := Constraint.sorted_subst.mp hsorted
  have hsort : srt = rhs.sort := by
    simpa [Replacement.keepsSorts, Term.sort] using hkeeps
  have hbool := hs.owns_ne_bool howns
  -- the constant of a variable is no mark for cut paths
  have hwrites : Replacement.Writes [(.const name srt, rhs)] := by
    intro p hp
    obtain rfl := List.mem_singleton.mp hp
    refine ⟨name, srt, rfl, fun hcut => hbool ?_, htr.denotes.proper.sorted, hsort.symm⟩
    exact (Term.const.inj hcut).2
  refine ⟨hpost, fun s => ⟨e.assign s d.lhs (d.rhs.value (e.look s)), ?_, ?_⟩⟩
  · rw [Def.run, Environment.objection?_eq_none (hg.hooks.trans (hb.step.env.hooks.trans hhooks))]
  · have heval := Term.eval_cutAs (htr.denotes.proper.uses.mono fun _ _ => hs.owns_ne_bool) s true
    -- to put the term in is to assign the value
    have hstate : (s.cutAs true).replaced [(.const name srt, rhs)] =
        (e.assign s d.lhs (d.rhs.value (e.look s))).cutAs true := by
      rw [State.replaced_single, heval, htr.denotes.eval, hgives.assign_eq, State.cutAs,
        State.set_comm _ (.inr hbool)]
      rfl
    exact .subst hwrites (hstate ▸ .refl _ _)

end Build

/-- Conditions of jumps: what they decide, and whether they are folded. -/
theorem Jmp.makes_condition (hj : j.cond.isKnown = true) :
    (j.cond.condition j.tid).Makes σ ν fun σ' _ r =>
      (j.cond.isAlways = true → ∀ look, (j.cond.value look).toNat ≠ 0) ∧
        ∀ e, σ'.env.Grows e → e.Sound → j.cond.Decides e r.1 r.2 ∧
          (j.folds e = true ↔ ∃ b, r.1 = .lit b) := by
  intro _ r σ' hends
  obtain ⟨hstep, -, hdecides⟩ := Expr.ends_condition hends hj
  exact ⟨ν, .of_step hstep, Expr.value_of_isAlways hends,
    fun e hg hs => ⟨hdecides e hg hs, folds_iff hends hj hg⟩⟩

/-- A branch is decided as the jump is, and seen on the path if the condition is not folded. -/
theorem Build.reaches_branch {accesses : List Access} {yes no : Constraint} (hs : e.Sound)
    (hdec : j.cond.Decides e cond accesses) (hfolds : j.folds e = true ↔ ∃ b, cond = .lit b)
    (h : (branch j.branchName cond yes no).Ends σ c σ') (s : State) :
    c.Reaches (s.cutAs true) (j.steps e s) (if j.holds e s then yes else no) (s.cutAs true) := by
  have hvalue : cond.holds (s.cutAs true) = j.holds e s := by
    rw [Term.holds, Term.eval_cutAs (hdec.denotes.proper.uses.mono fun _ _ => hs.owns_ne_bool),
      hdec.denotes.eval]
    rfl
  rcases branch_cases h with ⟨b, rfl, rfl⟩ | ⟨hne, i, rfl⟩
  · obtain rfl : b = j.holds e s := by
      rw [← hvalue, Term.holds, Term.eval_lit]
      rfl
    rw [Jmp.steps, if_pos (hfolds.mpr ⟨_, rfl⟩)]
    exact .refl _ _
  · rw [Jmp.steps, if_neg fun hf => (hfolds.mp hf).elim hne, ← hvalue]
    exact .ite (.refl _ _)

/-! ## §5 Walks -/

/-- Runs from where control goes. -/
def Flow.Heads (f : Flow) (counts : Counts) : Target → Course
  | .outside => fun _ s path o => path = [] ∧ o = .exit s
  | .block l => fun e => f.Follows e (f.key (f.graph.resolve l) counts)

/-- Runs from the jumps of a block that are still to be tried, with the target past the last one. -/
def Flow.Tries (f : Flow) (counts : Counts) (t : Target) (js : List Jmp) : Course :=
  fun e s path o => ∃ chosen t' rest, Jmp.choose e s js = .ok chosen ∧
    chosen.elim (some t) Jmp.goal? = some t' ∧ path = Jmp.trail e s js ++ rest ∧
    f.Heads counts t' e s rest o

section Tries

variable {f : Flow} {counts : Counts} {t t' : Target} {js : List Jmp} (he : e.hooks = [])
include he

theorem Flow.tries_taken (hj : j.holds e s = true) (hgoal : j.goal? = some t')
    (h : f.Heads counts t' e s path o) :
    f.Tries counts t (j :: js) e s (j.steps e s ++ path) o := by
  refine ⟨some j, t', path, ?_, hgoal, ?_, h⟩
  · rw [Jmp.choose, Environment.objection?_eq_none he]
    exact if_pos (by simpa [Jmp.holds] using hj)
  · rw [Jmp.trail, if_pos hj, List.append_nil]

/-- A jump that is not taken. -/
theorem Flow.tries_missed (hj : j.holds e s = false) (h : f.Tries counts t js e s path o) :
    f.Tries counts t (j :: js) e s (j.steps e s ++ path) o := by
  obtain ⟨chosen, t', rest, hchoose, htarget, rfl, hheads⟩ := h
  refine ⟨chosen, t', rest, ?_, htarget, ?_, hheads⟩
  · rw [Jmp.choose, Environment.objection?_eq_none he]
    exact (if_neg (by simpa [Jmp.holds] using hj)).trans hchoose
  · rw [Jmp.trail, if_neg (by simp [hj]), List.append_assoc]

end Tries

/-- **Branches** go the way of the side that the jump decides for. -/
theorem pursues_branch {f : Flow} {counts : Counts} {t t' : Target} {js : List Jmp}
    {post taken otherwise : Constraint} {accesses : List Access} (hhooks : σ.env.hooks = [])
    (hgoal : j.goal? = some t') (hcond : ∀ e, σ.env.Grows e → e.Sound →
      j.cond.Decides e cond accesses ∧ (j.folds e = true ↔ ∃ b, cond = .lit b))
    (htaken : Pursues post (f.Heads counts t') σ ν taken)
    (hother : Pursues post (f.Tries counts t js) σ ν otherwise) :
    (Build.branch j.branchName cond taken otherwise).Makes σ ν
      (Pursues post (f.Tries counts t (j :: js))) := by
  intro _ c σ' hends
  obtain ⟨ν', hb, hl, hsides⟩ := Build.ends_branch hends htaken.1 hother.1
  refine ⟨ν', hb, hl, fun e hg hs hsorted s => ?_⟩
  have hgrows := hb.step.env.trans hg
  obtain ⟨hdec, hfolds⟩ := hcond e hgrows hs
  have he : e.hooks = [] := hgrows.hooks.trans hhooks
  have hreaches := Build.reaches_branch hs hdec hfolds hends s
  have hside := hsorted.of_mem (hsides.leads hdec hs s).below
  cases hholds : j.holds e s with
  | true =>
    rw [hholds, if_pos rfl] at hreaches
    rw [if_pos (by simpa [Jmp.holds] using hholds)] at hside
    obtain ⟨path, o, hheads, harrives⟩ := htaken.2 e hgrows hs hside s
    exact ⟨_, o, Flow.tries_taken he hholds hgoal hheads, hreaches.arrives harrives⟩
  | false =>
    rw [hholds, if_neg Bool.false_ne_true] at hreaches
    rw [if_neg (by simpa [Jmp.holds] using hholds)] at hside
    obtain ⟨path, o, htries, harrives⟩ := hother.2 e hgrows hs hside s
    exact ⟨_, o, Flow.tries_missed he hholds htries, hreaches.arrives harrives⟩

namespace Walker

variable {w : Walker} {counts : Counts}

/-- The conditions of a table go the way of the runs from their keys. -/
def PursuesKeys (w : Walker) (k : Key) : Session → (Nat → Constraint) → Constraint → Prop :=
  Pursues w.post fun e => w.flow.Follows e k

theorem pursues_lift {α : Type} {act : Build α} {Q : Session → (Nat → Constraint) → α → Prop}
    (h : act.Makes σ ν Q) : Walking.Makes w.PursuesKeys (liftM act) σ ν Q :=
  Walking.makes_lift (T := w.PursuesKeys) Pursues.mono h

theorem pursues_post (hpost : σ.Lists ν w.post) :
    Pursues w.post (w.flow.Heads counts .outside) σ ν w.post :=
  ⟨hpost, fun _ _ _ _ s => ⟨[], .exit s, ⟨rfl, rfl⟩, .refl _ _⟩⟩

section Steps

variable (hhooks : σ.env.hooks = []) (hpost : σ.Lists ν w.post)
include hhooks hpost

/-- **Jumps** go the way of the runs from the jumps at hand, if the rest does. -/
theorem pursues_jump {js : List Jmp} {t : Target} {otherwise : Constraint} (hcall : j.kind ≠ .call)
    (hknown : j.cond.isKnown = true)
    (hother : Pursues w.post (w.flow.Tries counts t js) σ ν otherwise) :
    Walking.Makes w.PursuesKeys (w.jump counts j otherwise) σ ν fun σ' ν' c =>
      Pursues w.post (w.flow.Tries counts t (j :: js)) σ' ν' c ∧
        (j.cond.isAlways = true → ∀ look, (j.cond.value look).toNat ≠ 0) := by
  refine (pursues_lift (Jmp.makes_condition hknown)).bind fun p σ1 ν1 hb1 hp => ?_
  obtain ⟨cond, accesses⟩ := p
  obtain ⟨halways, hcond⟩ := hp
  have hhooks1 : σ1.env.hooks = [] := hb1.step.env.hooks.trans hhooks
  have hother1 := hother.mono hb1
  dsimp only
  split
  · next hfalse =>
    -- the jump is never taken, and its condition is folded
    rw [Term.isFalse_iff] at hfalse
    refine pursues_lift fun _ c σ2 hends => ?_
    obtain ⟨rfl, rfl⟩ := Build.guarded_eq hends hhooks1
    refine ⟨ν1, .refl _ _, ⟨hother1.1, fun e hg hs hsorted s => ?_⟩, halways⟩
    obtain ⟨path, o, htries, harrives⟩ := hother1.2 e hg hs hsorted s
    obtain ⟨hdec, hfolds⟩ := hcond e hg hs
    have hholds : j.holds e s = false := by
      have hvalue := hdec.denotes.eval s
      rw [hfalse, Term.eval_lit] at hvalue
      exact (Value.bool.inj hvalue).symm
    refine ⟨_, o, Flow.tries_missed (hg.hooks.trans hhooks1) hholds htries, ?_⟩
    rwa [Jmp.steps, if_pos (hfolds.mpr ⟨_, hfalse⟩)]
  · refine (makes_destination (P := fun t => Pursues w.post (w.flow.Heads counts t) σ1 ν1)
      (R := fun σ ν c => ∃ t, j.goal? = some t ∧ Pursues w.post (w.flow.Heads counts t) σ ν c)
      (fun _ _ h => h) (pursues_post (hb1.lists hpost)) (fun t _ hgoal h => ⟨t, hgoal, h⟩)
      fun _ _ hkind => absurd hkind hcall).bind fun taken σ2 ν2 hb2 htaken => ?_
    obtain ⟨t', hgoal, htaken⟩ := htaken
    have hbranch := pursues_branch (hb2.step.env.hooks.trans hhooks1) hgoal
      (fun e hg => hcond e (hb2.step.env.trans hg)) htaken (hother1.mono hb2)
    refine (pursues_lift hbranch).bind fun c σ3 ν3 hb3 hc => pursues_lift fun _ g σ4 hends => ?_
    obtain ⟨rfl, rfl⟩ :=
      Build.guarded_eq hends ((hb2.trans hb3).step.env.hooks.trans hhooks1)
    exact ⟨ν3, .refl _ _, hc, halways⟩

/-- The condition before the jumps of a block goes the way of the runs from there, and if one of
them is always taken, control does not run past them. -/
theorem pursues_jumps {js : List Jmp} {t : Target} {last : Constraint}
    (hcalls : ∀ j ∈ js, j.kind ≠ .call) (hknown : ∀ j ∈ js, j.cond.isKnown = true)
    (hlast : Pursues w.post (w.flow.Heads counts t) σ ν last) :
    Walking.Makes w.PursuesKeys (js.foldrM (w.jump counts) last) σ ν fun σ' ν' c =>
      Pursues w.post (w.flow.Tries counts t js) σ' ν' c ∧
        Jmp.Leave js := by
  induction js with
  | nil =>
    refine Walking.makes_pure ⟨⟨hlast.1, fun e hg hs hsorted s => ?_⟩, by simp [Jmp.Leave]⟩
    obtain ⟨path, o, hheads, harrives⟩ := hlast.2 e hg hs hsorted s
    exact ⟨path, o, ⟨none, t, path, rfl, rfl, rfl, hheads⟩, harrives⟩
  | cons j js ih =>
    obtain ⟨hcall, hcalls⟩ := List.forall_mem_cons.mp hcalls
    obtain ⟨hkj, hknown⟩ := List.forall_mem_cons.mp hknown
    rw [List.foldrM_cons]
    refine (ih hcalls hknown).bind fun otherwise σ1 ν1 hb1 h => ?_
    obtain ⟨hother, hnever⟩ := h
    intro m hm
    refine (pursues_jump (hb1.step.env.hooks.trans hhooks) (hb1.lists hpost) hcall hkj hother m
      hm).mono fun σ2 ν2 p _ => ?_
    rintro ⟨hm2, hpursues, halways⟩
    exact ⟨hm2, hpursues, hnever.cons halways⟩

omit hpost in
/-- The condition before some definitions goes the way of the runs from the state after them. -/
theorem pursues_definitions {ds : List Def} {X : Course} (hknown : ∀ d ∈ ds, d.rhs.isKnown = true)
    (hc : Pursues w.post X σ ν c) : (ds.foldrM (fun d post => Build.definition post d) c).Makes σ ν
      (Pursues w.post fun e s path o =>
        ∃ s', ds.foldlM (Def.run e) s = .ok s' ∧ X e s' path o) := by
  -- the last definition is built first, and run last
  induction ds with
  | nil =>
    refine Build.makes_pure ⟨hc.1, fun e hg hs hsorted s => ?_⟩
    obtain ⟨path, o, hx, harrives⟩ := hc.2 e hg hs hsorted s
    exact ⟨path, o, ⟨s, rfl, hx⟩, harrives⟩
  | cons d ds ih =>
    obtain ⟨hd, hknown⟩ := List.forall_mem_cons.mp hknown
    rw [List.foldrM_cons]
    refine (ih hknown).bind fun mid σ1 ν1 hb1 hmid _ g σ2 hends => ?_
    obtain ⟨ν2, hb2, hl, hdef⟩ :=
      Build.reaches_definition hends (hb1.step.env.hooks.trans hhooks) hd hmid.1
    refine ⟨ν2, hb2, hl, fun e hg hs hsorted s => ?_⟩
    obtain ⟨hmidsorted, hrun⟩ := hdef e hg hs hsorted
    obtain ⟨s1, hs1, hreaches⟩ := hrun s
    obtain ⟨path, o, ⟨s', hs', hx⟩, harrives⟩ :=
      hmid.2 e (hb2.step.env.trans hg) hs hmidsorted s1
    refine ⟨path, o, ⟨s', ?_, hx⟩, hreaches.arrives harrives⟩
    rw [List.foldlM_cons, hs1]
    exact hs'

/-- **Blocks**: the condition of a block goes the way of the runs from its key. -/
theorem pursues_block {n : Node} (hcut : w.flow.isCut σ.env.unroll k = .ok false)
    (hnode : w.flow.node k = .ok n) (hcalls : n.block.CallFree) (hknown : n.block.IsKnown) :
    Walking.Makes w.PursuesKeys (w.block n k.counts) σ ν (w.PursuesKeys k) := by
  refine makes_block (P := fun t => Pursues w.post (w.flow.Heads k.counts t) σ ν)
    (fun _ _ h => h) (pursues_post hpost) fun t last hfall hlast => ?_
  refine (pursues_jumps hhooks hpost hcalls hknown.2 hlast).bind fun jumps σ1 ν1 hb1 h => ?_
  obtain ⟨hjumps, hnever⟩ := h
  refine Walking.makes_foldrM_lift (T := w.PursuesKeys) Pursues.mono (Build.Makes.mono
    (pursues_definitions (hb1.step.env.hooks.trans hhooks) hknown.1 hjumps)
    fun σ2 ν2 c hb2 hc => ⟨hc.1, fun e hg hs hsorted s => ?_⟩)
  have hgrows : σ.env.Grows e := (hb1.trans hb2).step.env.trans hg
  obtain ⟨path, o, ⟨s', hs', chosen, t', rest, hchoose, htarget, rfl, hheads⟩, harrives⟩ :=
    hc.2 e hg hs hsorted s
  refine ⟨_, o, ?_, harrives⟩
  have hcut' : w.flow.isCut e.unroll k = .ok false := hgrows.unroll ▸ hcut
  have hrun : n.block.run e s = .ok (s', chosen) := by
    simp only [Blk.run, bind_eq_ok, pure_eq_ok]
    exact ⟨s', hs', chosen, hchoose, rfl⟩
  -- past the last jump control goes where the graph says
  have hto : w.flow.graph.after n chosen = some t' := by
    cases chosen with
    | some j => exact htarget
    | none => exact (hfall (Blk.fallsThrough_of_choose hnever hchoose)).trans htarget
  cases t' with
  | outside =>
    obtain ⟨rfl, rfl⟩ := hheads
    rw [List.append_nil]
    exact .leave hcut' hnode hrun hto
  | block l => exact .go hcut' hnode hrun hto hheads

theorem pursues_build (hcalls : ∀ n ∈ w.flow.graph, n.block.CallFree)
    (hknown : ∀ n ∈ w.flow.graph, n.block.IsKnown) (k : Key) :
    Walking.Makes w.PursuesKeys (w.build k) σ ν (w.PursuesKeys k) := by
  refine Walking.makes_env_bind (Walking.makes_lift_bind fun isCut hcut => ?_)
  split
  · next htrue =>
    refine pursues_lift fun _ c σ' hends => ?_
    obtain ⟨ν', hb, hl, -, hisCut, -⟩ := ends_cut (ν := ν) hends
    refine ⟨ν', hb, hl, fun e hg _ _ s => ⟨[], .cut, .cut ?_, c, _, hisCut, .refl _ _⟩⟩
    rw [(hb.step.env.trans hg).unroll, hcut, htrue]
  · next hfalse =>
    refine Walking.makes_lift_bind fun n hnode => ?_
    have hn := Flow.mem_of_node hnode
    exact pursues_block hhooks hpost (by rw [hcut]; simpa using hfalse) hnode
      (hcalls n hn) (hknown n hn)

/-- **Walks**: the condition on entry goes the way of the runs from the first block. -/
theorem pursues_run (hcalls : ∀ n ∈ w.flow.graph, n.block.CallFree)
    (hknown : ∀ n ∈ w.flow.graph, n.block.IsKnown) {n : Node} {rest : List Node}
    (hgraph : w.flow.graph = n :: rest) :
    w.run.Makes σ ν (w.PursuesKeys (w.flow.key n.label [])) :=
  makes_run (T := w.PursuesKeys) (I := fun σ ν => σ.env.hooks = [] ∧ σ.Lists ν w.post)
    (fun hb h => ⟨hb.step.env.hooks.trans h.1, hb.lists h.2⟩)
    (fun k h => pursues_build h.1 h.2 hcalls hknown k) hgraph ⟨hhooks, hpost⟩

end Steps

end Walker

/-! ## §6 Reported paths -/

section Reported

variable {post pre : Constraint} {sub : Sub} {path' : List PathStep} {o' : Ending}

theorem Sub.Follows.unique (h : sub.Follows e s path o) (h' : sub.Follows e s path' o') :
    path = path' ∧ o = o' := by
  unfold Follows at h h'
  split at h
  · next hb =>
    rw [if_pos hb] at h'
    exact ⟨h.1.trans h'.1.symm, h.2.trans h'.2.symm⟩
  · next hb =>
    rw [if_neg hb] at h'
    obtain ⟨f, n, rest, hf, hg, hrun⟩ := h
    obtain ⟨f', n', rest', hf', hg', hrun'⟩ := h'
    cases hf.symm.trans hf'
    cases hg.symm.trans hg'
    exact ⟨hrun.unique hrun', hrun.runs.unique hrun'.runs⟩

/-- **Preconditions** go the way of the runs of the subroutine. -/
theorem Build.pursues_precondition (hhooks : σ.env.hooks = []) (hcalls : sub.CallFree)
    (hknown : sub.IsKnown) (hpost : σ.Lists ν post) :
    (precondition post sub).Makes σ ν (Pursues post sub.Follows) := by
  intro hsound pre σ' hends
  rcases precondition_cases hends with ⟨hempty, rfl, rfl⟩ | ⟨f, bound, hf, hgraph, hends⟩
  · refine ⟨ν, .refl _ _, hpost, fun e _ _ _ s => ⟨[], .exit s, ?_, .refl _ _⟩⟩
    rw [Sub.Follows, if_pos hempty]
    exact ⟨rfl, rfl⟩
  · have hmem := Sub.block_mem_of_flow hf
    obtain ⟨n, rest, hcons⟩ := List.exists_cons_of_ne_nil hgraph
    obtain ⟨ν', hb, hl, hpursues⟩ := Walker.pursues_run (w := ⟨f, post, preconditionWithin bound⟩)
      hhooks hpost (fun n hn => hcalls _ (hmem n hn)) (fun n hn => hknown _ (hmem n hn)) hcons
      hsound pre σ' hends
    refine ⟨ν', hb, hl, fun e hg hs hsorted s => ?_⟩
    obtain ⟨path, o, hfollows, harrives⟩ := hpursues e hg hs hsorted s
    refine ⟨path, o, ?_, harrives⟩
    have hnonempty : sub.blks.isEmpty = false := by
      rw [← Sub.map_block_flow hf, List.isEmpty_map, hcons]
      rfl
    rw [Sub.Follows, if_neg (by simp [hnonempty])]
    exact ⟨f, n, rest, hf, hcons, hfollows⟩

/-- What is reported for a goal on exit, if a condition goes the way of a run. -/
theorem Constraint.Arrives.refutation_eq {i : Nat} {name : String} {ψ : Term}
    (h : c.Arrives (.goal i name ψ) s path o) : (c.refutation s).path = path ∧
      ((∃ s', o = .exit s' ∧ holdsIn s' ψ = false ∧
          ∃ scope, (c.refutation s).goals = [⟨name, inScope scope ψ⟩]) ∨
        ((∃ s', o = .exit s' ∧ holdsIn s' ψ = true) ∨ o = .cut) ∧ (c.refutation s).goals = []) := by
  -- the goals are those of the tree at the end of the way, which is a goal
  have hend : ∀ {j name f s'}, c.Reaches (s.cutAs true) path (.goal j name f) s' →
      s'.flag cutSymbol = true ∧ ∃ scope, c.refutation s =
        { path, goals := if f.holds s' then [] else [⟨name, inScope scope f⟩] } := by
    intro j name f s' h
    obtain ⟨scope, hscope, rfl, hrefute⟩ :=
      h.refute_eq (List.forall_mem_nil _) (rfl : s.cutAs true = (s.cutAs true).under [])
    refine ⟨(State.flag_under hscope).trans (s.flag_cutAs true), scope, ?_⟩
    rw [refutation, hrefute, refute, holdsIn_inScope hscope]
    split <;> simp [Refutation.append]
  cases o with
  | exit s' =>
    obtain ⟨-, scope, hrefutation⟩ := hend h
    have hholds : ψ.holds (s'.cutAs true) = holdsIn s' ψ :=
      (holdsIn_inScope (List.forall_mem_nil _) ψ).symm
    rw [hrefutation, hholds]
    refine ⟨rfl, ?_⟩
    cases hψ : holdsIn s' ψ with
    | true => exact .inr ⟨.inl ⟨s', rfl, hψ⟩, rfl⟩
    | false => exact .inl ⟨s', rfl, hψ, scope, rfl⟩
  | cut =>
    obtain ⟨d, s', hd, hreaches⟩ := h
    cases d with
    | goal j name f =>
      obtain rfl : f = Term.loopCut := by simpa [isCut] using hd
      obtain ⟨hflag, scope, hrefutation⟩ := hend hreaches
      have hholds : Term.loopCut.holds s' = true := by
        rw [Term.loopCut, Term.holds, Term.eval_const]
        exact hflag
      rw [hrefutation, hholds]
      exact ⟨rfl, .inr ⟨.inr rfl, rfl⟩⟩
    | ite | clause | subst => cases hd
  | excused | failed => exact h.elim

end Reported

/-- **The path that is reported is the path that is run**: from every state the subroutine has one
run, up to its exit or its first cut; the path reported for the state is the list of the jumps that
this run decides and that were not folded, in order and with what their conditions are then; and the
goal on exit is reported, with the substitutions of the path made, if the run leaves where it is
false, and otherwise no goal is. -/
theorem refutation_precondition {σ σ' : Session} {pre : Constraint} {sub : Sub} {i : Nat}
    {name : String} {ψ φ : Term} (hσ : σ.env.Sound) (hhooks : σ.env.hooks = [])
    (hi : i < σ.supply.nodes) (hcalls : sub.CallFree) (hknown : sub.IsKnown)
    (hrun : (precondition (.goal i name ψ) sub).Ends σ pre σ') (hpre : pre.flatten? true = .ok φ)
    (s : State) :
    ∃ path o, (∀ path' o', sub.Follows σ'.env s path' o' ↔ path' = path ∧ o' = o) ∧
      (pre.refutation s).path = path ∧
        ((∃ s', o = .exit s' ∧ Constraint.holdsIn s' ψ = false ∧
            ∃ scope, (pre.refutation s).goals = [⟨name, Constraint.inScope scope ψ⟩]) ∨
          ((∃ s', o = .exit s' ∧ Constraint.holdsIn s' ψ = true) ∨ o = .cut) ∧
            (pre.refutation s).goals = []) := by
  have hcoherent : (Constraint.goal i name ψ).Coherent := by
    simp [Constraint.Coherent, Constraint.subtrees]
  obtain ⟨ν, hν⟩ := hcoherent.listed (n := σ.supply.nodes)
    (by simpa [Constraint.subtrees, Constraint.id] using hi)
  obtain ⟨ν', hb, hl, hpursues⟩ :=
    Build.pursues_precondition hhooks hcalls hknown hν hσ pre σ' hrun
  have hsorted : pre.Sorted := (hl.flatten?_eq_ok.mp hpre).1
  obtain ⟨path, o, hfollows, harrives⟩ := hpursues σ'.env (.refl _) (hb.step.sound hσ) hsorted s
  refine ⟨path, o, fun path' o' => ⟨fun h => h.unique hfollows, ?_⟩, harrives.refutation_eq⟩
  rintro ⟨rfl, rfl⟩
  exact hfollows

/-- From zero the drain goes past its jump, and takes two from the counter. -/
theorem follows_drain : ∃ s, drain.Follows (counterEnv false) State.zero [⟨.str "done", false⟩]
    (.exit s) ∧ Constraint.holdsIn s (.app .eq [counterTerm false, .num 8 0]) = false := by
  let step (s : State) : State := (counterEnv false).assign s counter
    ((Expr.binop .minus (.var counter) (.int 1 (.int 8))).value ((counterEnv false).look s))
  let s1 := step State.zero
  let s2 := step s1
  have hone : (drainBlk "one" [drained]).run (counterEnv false) State.zero = .ok (s1, none) := rfl
  have hmore : (drainBlk "more" []).run (counterEnv false) s1 = .ok (s2, none) := rfl
  have htrail : Jmp.trail (counterEnv false) s1 [drained] ++ [] = [⟨.str "done", false⟩] := rfl
  refine ⟨s2, ⟨_, _, _, rfl, rfl, ?_⟩,
    (Constraint.holdsIn_inScope (List.forall_mem_nil _) _).trans (by decide)⟩
  rw [← htrail]
  exact .go (n := ⟨.text "one", drainBlk "one" [drained], []⟩) rfl rfl hone rfl
    (.leave (n := ⟨.text "more", drainBlk "more" [], []⟩) rfl rfl hmore rfl)

/-- From zero the drain leaves where the counter is not zero, and this is reported. -/
theorem refutation_precondition_drain :
    ((drainPre 1 (counterTerm false) counterIsZero).refutation State.zero).path =
        [⟨.str "done", false⟩] ∧
      ∃ scope, ((drainPre 1 (counterTerm false) counterIsZero).refutation State.zero).goals =
        [⟨"zero", Constraint.inScope scope (.app .eq [counterTerm false, .num 8 0])⟩] := by
  have hcoherent : (drainPre 1 (counterTerm false) counterIsZero).Coherent := by
    simp [Constraint.Coherent, drainPre, oneLess, counterIsZero, Constraint.subtrees, Constraint.id]
  obtain ⟨hφ, -⟩ := hcoherent.flatten?_eq (by simp [drainPre, oneLess, counterIsZero,
    Replacement.keepsSorts, Term.sort, counterTerm]) true
  -- the run of the drain is known, so it is the one that is reported
  obtain ⟨path, o, hiff, hpath, hgoals⟩ := refutation_precondition (sound_counterEnv false)
    rfl Nat.zero_lt_one callFree_drain isKnown_drain
    (ends_drain false { nodes := 1 } counterIsZero) hφ State.zero
  obtain ⟨s, hfollows, hfalse⟩ := follows_drain
  obtain ⟨rfl, rfl⟩ := (hiff _ _).mp hfollows
  refine ⟨hpath, ?_⟩
  obtain ⟨-, -, -, hscope⟩ | ⟨⟨s', hs', hholds⟩ | hcut, -⟩ := hgoals
  · exact hscope
  · obtain rfl := Ending.exit.inj hs'
    exact absurd (hfalse.symm.trans hholds) Bool.false_ne_true
  · cases hcut

end Antecedent
