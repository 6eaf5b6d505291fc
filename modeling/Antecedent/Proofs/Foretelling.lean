import Antecedent.Proofs.Making

/-!
# Conditions that foretell runs

The condition that a walk builds for a key foretells how the runs from this key end.  What runs are
is a parameter: they may be those of code without calls, or of code whose calls are inlined.

* `Foretells` says what a condition has to do with the runs of a piece of code.
* `Walker.Foresight` is what a walk relies on, and `Walker.Foresight.shows_run` the result.
-/

namespace Antecedent

variable {S : Environment → Prop} {post c : Constraint} {σ σ' : Session} {ν ν' : Nat → Constraint}
  {e : Environment} {s : State} {o : Ending} {t : Target} {j : Jmp} {js : List Jmp} {n : Node}
  {counts : Counts}

/-! ## §1 Behaviours -/

/-- How the runs of a piece of code may end, from every state of an environment. -/
abbrev Behaviour := Environment → State → Ending → Prop

/-- A condition foretells a behaviour: from every state there is a run, the condition predicts how
it ends, and its substitutions keep sorts if the definitions do. -/
structure Foretells (S : Environment → Prop) (post : Constraint) (X : Behaviour) (e : Environment)
    (c : Constraint) : Prop where
  runs : ∀ s, ∃ o, X e s o
  predicts : ∀ s o, X e s o → c.Predicts s post o
  sorted : post.Sorted → S e → c.Sorted

/-- A condition made in a session foretells a behaviour from there on. -/
def Shows (S : Environment → Prop) (post : Constraint) (X : Behaviour) (σ : Session)
    (ν : Nat → Constraint) (c : Constraint) : Prop :=
  σ.Lists ν c ∧ ∀ e, σ.env.Grows e → e.Sound → Foretells S post X e c

namespace Shows

variable {X Y : Behaviour}

theorem mono (hb : Builds σ ν σ' ν') (h : Shows S post X σ ν c) : Shows S post X σ' ν' c :=
  ⟨hb.lists h.1, fun e hg hs => h.2 e (hb.step.env.trans hg) hs⟩

theorem congr (hXY : ∀ e, σ.env.Grows e → e.Sound → ∀ s o, Y e s o ↔ X e s o)
    (h : Shows S post X σ ν c) : Shows S post Y σ ν c := by
  refine ⟨h.1, fun e hg hs => ?_⟩
  obtain ⟨hruns, hpredicts, hsorted⟩ := h.2 e hg hs
  refine ⟨fun s => ?_, fun s o ho => hpredicts s o ((hXY e hg hs s o).mp ho), hsorted⟩
  obtain ⟨o, ho⟩ := hruns s
  exact ⟨o, (hXY e hg hs s o).mpr ho⟩

theorem exit (h : σ.Lists ν post) : Shows S post (fun _ s o => o = .exit s) σ ν post := by
  refine ⟨h, fun e _ _ => ⟨fun s => ⟨_, rfl⟩, ?_, fun hpost _ => hpost⟩⟩
  rintro s _ rfl
  exact .refl post s

/-- A guarded condition foretells that the run ends at one of the accesses, or goes on. -/
theorem guarded {accesses : List Access} {touches : Environment → State → List Touch}
    (hfit : ∀ hook ∈ σ.env.hooks, hook.Fit)
    (haddr : ∀ e, σ.env.Grows e → e.Sound → (∀ a ∈ accesses, a.addr.Proper e.Owns) ∧
      ∀ s, accesses.map (Access.touch s) = touches e s) (h : Shows S post X σ ν c) :
    (Build.guarded c accesses).Makes σ ν (Shows S post fun e s o =>
      e.objection? s (touches e s) = some o ∨ e.objection? s (touches e s) = none ∧ X e s o) := by
  intro _ g σ' hends
  obtain ⟨ν', hb, hl, hkeep, hguard⟩ := Build.ends_guarded hends hfit h.1
  refine ⟨ν', hb, hl, fun e hg hs => ?_⟩
  have hg' := hb.step.env.trans hg
  obtain ⟨hruns, hpredicts, hsorted⟩ := h.2 e hg' hs
  obtain ⟨haddr, htouches⟩ := haddr e hg' hs
  have hguard := hguard e hg hs haddr
  simp only [htouches] at hguard
  refine ⟨fun s => ?_, fun s o ho => ?_, fun hpost hall => hkeep.mpr (hsorted hpost hall)⟩
  -- one of the conditions objects, or the run goes on
  · cases e.objection? s (touches e s) with
    | some o => exact ⟨o, .inl rfl⟩
    | none =>
      obtain ⟨o, ho⟩ := hruns s
      exact ⟨o, .inr ⟨rfl, ho⟩⟩
  · have hguard := hguard s
    rcases ho with ho | ⟨hnone, ho⟩
    · rw [ho] at hguard
      exact hguard post
    · rw [hnone] at hguard
      exact hguard.predicts (hpredicts s o ho)

/-- A branch foretells what the side that is taken does. -/
theorem branch {name : Json} {x : Expr} {cond : Term} {accesses : List Access}
    {yes no : Constraint} (hdec : ∀ e, σ.env.Grows e → e.Sound → x.Decides e cond accesses)
    (hyes : Shows S post X σ ν yes) (hno : Shows S post Y σ ν no) :
    (Build.branch name cond yes no).Makes σ ν (Shows S post fun e s o =>
      if (x.value (e.look s)).toNat ≠ 0 then X e s o else Y e s o) := by
  intro _ c σ' hends
  obtain ⟨ν', hb, hl, hbranch⟩ := Build.ends_branch hends hyes.1 hno.1
  refine ⟨ν', hb, hl, fun e hg hs => ?_⟩
  have hg' := hb.step.env.trans hg
  obtain ⟨hruns1, hpredicts1, hsorted1⟩ := hyes.2 e hg' hs
  obtain ⟨hruns2, hpredicts2, hsorted2⟩ := hno.2 e hg' hs
  refine ⟨fun s => ?_, fun s o ho => ?_, fun hpost hall => ?_⟩
  · split
    · exact hruns1 s
    · exact hruns2 s
  · have hleads := hbranch.leads (hdec e hg' hs) hs s
    split at ho
    · next hne =>
      rw [if_pos hne] at hleads
      exact hleads.predicts (hpredicts1 s o ho)
    · next hzero =>
      rw [if_neg hzero] at hleads
      exact hleads.predicts (hpredicts2 s o ho)
  · -- both sides keep sorts, also the one that a literal condition drops
    rcases hbranch with ⟨-, rfl⟩ | ⟨-, rfl⟩ | ⟨i, rfl⟩
    · exact hsorted1 hpost hall
    · exact hsorted2 hpost hall
    · exact Constraint.sorted_ite.mpr ⟨hsorted1 hpost hall, hsorted2 hpost hall⟩

/-- The condition before some definitions foretells that the run ends at one of them, or goes on in
the state after them. -/
theorem definitions {ds : List Def} (hfit : ∀ hook ∈ σ.env.hooks, hook.Fit)
    (hknown : ∀ d ∈ ds, d.rhs.isKnown = true) (hkeeps : ∀ e, S e → ∀ d ∈ ds, d.KeepsSort e)
    (h : Shows S post X σ ν c) :
    (ds.foldrM (fun d post => Build.definition post d) c).Makes σ ν fun σ' ν' g =>
      (∀ e, σ'.env.Grows e → e.Sound →
        (∀ d ∈ ds, d.rhs.Local e) ∧ ∀ d ∈ ds, ∃ t, e.Gives d.lhs t) ∧
      Shows S post (fun e s o => ds.foldlM (Def.run e) s = .error o ∨
        ∃ s', ds.foldlM (Def.run e) s = .ok s' ∧ X e s' o) σ' ν' g := by
  intro _ g σ' hends
  obtain ⟨ν', hb, hl, hdefs⟩ := Build.ends_definitions hends hfit hknown h.1
  refine ⟨ν', hb, fun e hg hs => ⟨(hdefs e hg hs).1, (hdefs e hg hs).2.1⟩, hl, fun e hg hs => ?_⟩
  obtain ⟨-, -, hkeep, hleads⟩ := hdefs e hg hs
  obtain ⟨hruns, hpredicts, hsorted⟩ := h.2 e (hb.step.env.trans hg) hs
  refine ⟨fun s => ?_, fun s o ho => ?_,
    fun hpost hall => hkeep.mpr ⟨hkeeps e hall, hsorted hpost hall⟩⟩
  -- one of the definitions ends the run, or it goes on in the state after them
  · cases ds.foldlM (Def.run e) s with
    | error o => exact ⟨o, .inl rfl⟩
    | ok s' =>
      obtain ⟨o, ho⟩ := hruns s'
      exact ⟨o, .inr ⟨s', rfl, ho⟩⟩
  · have hleads := hleads s
    rcases ho with ho | ⟨s', hs', ho⟩
    · rw [ho] at hleads
      exact hleads post
    · rw [hs'] at hleads
      exact hleads.predicts (hpredicts s' o ho)

end Shows

theorem Expr.makes_decides {x : Expr} {tid : Json} (hx : x.isKnown = true) :
    (x.condition tid).Makes σ ν fun σ' _ r =>
      (x.isAlways = true → ∀ look, (x.value look).toNat ≠ 0) ∧
        ∀ e, σ'.env.Grows e → e.Sound → x.Decides e r.1 r.2 := by
  intro _ r σ' hends
  obtain ⟨hstep, -, hdecides⟩ := Expr.ends_condition hends hx
  exact ⟨ν, .of_step hstep, Expr.value_of_isAlways hends, hdecides⟩

/-! ## §2 Steps -/

namespace Flow

variable {f : Flow} {B : Key → Behaviour} {J : Counts → Jmp → Behaviour}

/-- Runs from where control goes, for those from keys. -/
def Onward (f : Flow) (B : Key → Behaviour) (counts : Counts) : Target → Behaviour
  | .outside => fun _ s o => o = .exit s
  | .block l => B (f.key (f.graph.resolve l) counts)

/-- Runs from the jump that is taken, or from the target past the last one. -/
def Past (f : Flow) (B : Key → Behaviour) (J : Counts → Jmp → Behaviour) (counts : Counts)
    (t : Target) : Option Jmp → Behaviour
  | some j => J counts j
  | none => f.Onward B counts t

/-- Runs from the jumps of a block that are still to be tried. -/
def Jumps (f : Flow) (B : Key → Behaviour) (J : Counts → Jmp → Behaviour) (counts : Counts)
    (t : Target) (js : List Jmp) : Behaviour :=
  fun e s o => Jmp.choose e s js = .error o ∨
    ∃ chosen, Jmp.choose e s js = .ok chosen ∧ f.Past B J counts t chosen e s o

/-- What the runs from keys and from jumps are like: a jump goes to its target, a key may be cut,
and otherwise its block is run if it reads and writes constants of the environment only. -/
structure Steps (f : Flow) (B : Key → Behaviour) (J : Counts → Jmp → Behaviour) : Prop where
  goes : ∀ {counts j t e s o}, j.goal? = some t → (J counts j e s o ↔ f.Onward B counts t e s o)
  cut : ∀ {k e s o}, f.isCut e.unroll k = .ok true → (B k e s o ↔ o = .cut)
  block : ∀ {k n t e s o}, f.isCut e.unroll k = .ok false → f.node k = .ok n → n.block.Local e →
    (∀ {s s'}, n.block.run e s = .ok (s', none) → f.graph.after n none = some t) →
    (B k e s o ↔ n.block.run e s = .error o ∨
      ∃ s' chosen, n.block.run e s = .ok (s', chosen) ∧ f.Past B J k.counts t chosen e s' o)

theorem jumps_cons : f.Jumps B J counts t (j :: js) e s o ↔
      e.objection? s (j.cond.touches (e.look s)) = some o ∨
        e.objection? s (j.cond.touches (e.look s)) = none ∧
          if (j.cond.value (e.look s)).toNat ≠ 0 then J counts j e s o
          else f.Jumps B J counts t js e s o := by
  simp only [Jumps, Jmp.choose]
  cases e.objection? s (j.cond.touches (e.look s)) with
  | some o' => simp
  | none =>
    dsimp only
    by_cases hne : (j.cond.value (e.look s)).toNat ≠ 0
    · simp [if_pos hne, Past]
    · simp [if_neg hne]

end Flow

theorem Blk.choose_of_run {b : Blk} {s' : State} {chosen : Option Jmp}
    (h : b.run e s = .ok (s', chosen)) : Jmp.choose e s' b.jmps = .ok chosen := by
  simp only [run, bind_eq_ok, pure_eq_ok, Prod.mk.injEq] at h
  obtain ⟨_, -, _, hchoose, rfl, rfl⟩ := h
  exact hchoose

theorem Blk.run_iff {b : Blk} {X : Option Jmp → State → Prop} :
    (b.run e s = .error o ∨ ∃ s' chosen, b.run e s = .ok (s', chosen) ∧ X chosen s') ↔
      b.defs.foldlM (Def.run e) s = .error o ∨ ∃ s', b.defs.foldlM (Def.run e) s = .ok s' ∧
        (Jmp.choose e s' b.jmps = .error o ∨
          ∃ chosen, Jmp.choose e s' b.jmps = .ok chosen ∧ X chosen s') := by
  rw [run]
  cases b.defs.foldlM (Def.run e) s with
  | error o' => simp [bind, Except.bind]
  | ok s' => cases hchoose : Jmp.choose e s' b.jmps <;>
      simp [bind, Except.bind, pure, Except.pure, hchoose]

/-! ## §3 Walks -/

namespace Walker

variable {w : Walker} {B : Key → Behaviour} {J : Counts → Jmp → Behaviour} {I : Session → Prop}

/-- What a walk relies on: the runs take steps, a property of sessions survives building and gives
conditions on accesses that compare with constants, the blocks have no unknown parts, and calls
foretell the runs from there. -/
structure Foresight (w : Walker) (S : Environment → Prop) (B : Key → Behaviour)
    (J : Counts → Jmp → Behaviour) (I : Session → Prop) : Prop where
  steps : w.flow.Steps B J
  mono : ∀ {σ σ'}, σ.Step σ' → I σ → I σ'
  fit : ∀ {σ}, I σ → ∀ hook ∈ σ.env.hooks, hook.Fit
  known : ∀ n ∈ w.flow.graph, n.block.IsKnown
  sorts : ∀ {e}, S e → ∀ n ∈ w.flow.graph, n.block.WellSorted e
  call : ∀ {σ ν counts n j t after}, I σ → n ∈ w.flow.graph → j ∈ n.block.jmps →
    j.kind = .call → j.returns? = some t →
    Shows S w.post (w.flow.Onward B counts t) σ ν after →
    (w.call j after).Makes σ ν (Shows S w.post (J counts j))

namespace Foresight

/-- A builder without a table. -/
theorem lift {α : Type} {act : Build α} {Q : Session → (Nat → Constraint) → α → Prop}
    (h : act.Makes σ ν Q) :
    Walking.Makes (fun k => Shows S post (B k)) (liftM act) σ ν Q :=
  Walking.makes_lift (T := fun k => Shows S post (B k)) Shows.mono h

variable (h : w.Foresight S B J I) (hσ : I σ) (hpost : σ.Lists ν w.post)
include h hσ hpost

/-- A jump foretells the runs from the jumps at hand, if the rest does. -/
theorem shows_jump {otherwise : Constraint} (hn : n ∈ w.flow.graph) (hj : j ∈ n.block.jmps)
    (hother : Shows S w.post (w.flow.Jumps B J counts t js) σ ν otherwise) :
    Walking.Makes (fun k => Shows S w.post (B k)) (w.jump counts j otherwise) σ ν fun σ' ν' c =>
      Shows S w.post (w.flow.Jumps B J counts t (j :: js)) σ' ν' c ∧
        (j.cond.isAlways = true → ∀ look, (j.cond.value look).toNat ≠ 0) ∧
        ∀ e, σ'.env.Grows e → e.Sound → j.cond.Local e := by
  refine (lift (Expr.makes_decides ((h.known n hn).2 j hj))).bind fun p σ1 ν1 hb1 hp => ?_
  obtain ⟨cond, accesses⟩ := p
  obtain ⟨halways, hdec⟩ := hp
  have hσ1 := h.mono hb1.step hσ
  -- whatever is guarded by the condition's accesses foretells the jumps at hand
  have hguard : ∀ {c σ2 ν2}, Builds σ1 ν1 σ2 ν2 →
      Shows S w.post (fun e s o => if (j.cond.value (e.look s)).toNat ≠ 0 then J counts j e s o
        else w.flow.Jumps B J counts t js e s o) σ2 ν2 c →
      Walking.Makes (fun k => Shows S w.post (B k)) (liftM (Build.guarded c accesses)) σ2 ν2
        fun σ' ν' c => Shows S w.post (w.flow.Jumps B J counts t (j :: js)) σ' ν' c ∧
          (j.cond.isAlways = true → ∀ look, (j.cond.value look).toNat ≠ 0) ∧
          ∀ e, σ'.env.Grows e → e.Sound → j.cond.Local e := by
    intro c σ2 ν2 hb2 hc
    have hdec2 := fun e hg hs => hdec e (hb2.step.env.trans hg) hs
    refine lift ((Shows.guarded (h.fit (h.mono hb2.step hσ1))
      (fun e hg hs => ⟨(hdec2 e hg hs).addresses, (hdec2 e hg hs).touches⟩) hc).mono
      fun σ3 ν3 g hb3 hg3 => ⟨hg3.congr fun _ _ _ _ _ => Flow.jumps_cons, halways, ?_⟩)
    exact fun e hg hs => (hdec2 e (hb3.step.env.trans hg) hs).isLocal
  dsimp only
  split
  · next hfalse =>
    -- the jump is never taken
    refine hguard (.refl _ _) ((hother.mono hb1).congr fun e hg hs s o => ?_)
    rw [if_neg (not_not.mpr ((hdec e hg hs).value_eq_zero (Term.isFalse_iff.mp hfalse) s))]
  · refine (makes_destination (P := fun t => Shows S w.post (w.flow.Onward B counts t) σ1 ν1)
      (fun _ _ hc => hc) (.exit (hb1.lists hpost))
      (fun t c hgoal hc => hc.congr fun _ _ _ _ _ => h.steps.goes hgoal)
      fun t c hkind hreturn hc => lift (h.call hσ1 hn hj hkind hreturn hc)).bind
      fun taken σ2 ν2 hb2 htaken => ?_
    refine (lift (Shows.branch (fun e hg hs => hdec e (hb2.step.env.trans hg) hs) htaken
      (hother.mono (hb1.trans hb2)))).bind fun c σ3 ν3 hb3 hc => ?_
    exact hguard (hb2.trans hb3) hc

/-- **Jumps**: the condition before the jumps of a block foretells the runs from there, and if one
of them is always taken, control does not run past them. -/
theorem shows_jumps {last : Constraint} (hn : n ∈ w.flow.graph) (hjs : ∀ j ∈ js, j ∈ n.block.jmps)
    (hlast : Shows S w.post (w.flow.Onward B counts t) σ ν last) :
    Walking.Makes (fun k => Shows S w.post (B k)) (js.foldrM (w.jump counts) last) σ ν
      fun σ' ν' c => Shows S w.post (w.flow.Jumps B J counts t js) σ' ν' c ∧ Jmp.Leave js ∧
        ∀ e, σ'.env.Grows e → e.Sound → ∀ j ∈ js, j.cond.Local e := by
  -- the last jump is built first, so the rest of the list is what is still to be tried
  induction js with
  | nil =>
    refine Walking.makes_pure ⟨hlast.congr fun e _ _ s o => ?_, by simp [Jmp.Leave], by simp⟩
    simp [Flow.Jumps, Jmp.choose, Flow.Past]
  | cons j js ih =>
    obtain ⟨hj, hjs⟩ := List.forall_mem_cons.mp hjs
    rw [List.foldrM_cons]
    refine (ih hjs).bind fun otherwise σ1 ν1 hb1 hrest => ?_
    obtain ⟨hother, hleave, hlocal⟩ := hrest
    intro m hm
    refine (h.shows_jump (h.mono hb1.step hσ) (hb1.lists hpost) hn hj hother m hm).mono
      fun σ2 ν2 p hb2 => ?_
    rintro ⟨hm2, hshows, halways, hlocal2⟩
    exact ⟨hm2, hshows, hleave.cons halways, fun e hg hs => List.forall_mem_cons.mpr
      ⟨hlocal2 e hg hs, hlocal e (hb2.step.env.trans hg) hs⟩⟩

/-- **Blocks**: the condition of a block foretells the runs from its key. -/
theorem shows_block {k : Key} (hcut : w.flow.isCut σ.env.unroll k = .ok false)
    (hnode : w.flow.node k = .ok n) :
    Walking.Makes (fun k => Shows S w.post (B k)) (w.block n k.counts) σ ν
      (Shows S w.post (B k)) := by
  have hn := Flow.mem_of_node hnode
  refine makes_block (P := fun t => Shows S w.post (w.flow.Onward B k.counts t) σ ν)
    (fun _ _ hc => hc) (.exit hpost) fun t last hfall hlast => ?_
  refine (h.shows_jumps hσ hpost hn (fun _ hj => hj) hlast).bind fun jumps σ1 ν1 hb1 hrest => ?_
  obtain ⟨hjumps, hleave, hlocal⟩ := hrest
  refine Walking.makes_foldrM_lift (T := fun k => Shows S w.post (B k)) Shows.mono (Build.Makes.mono
    (Shows.definitions (h.fit (h.mono hb1.step hσ)) (h.known n hn).1
      (fun e hall => h.sorts hall n hn) hjumps)
    fun σ2 ν2 c hb2 hc => hc.2.congr fun e hg hs s o => ?_)
  have hgrows : σ.env.Grows e := (hb1.trans hb2).step.env.trans hg
  obtain ⟨hreads, hwrites⟩ := hc.1 e hg hs
  rw [h.steps.block (hgrows.unroll ▸ hcut) hnode
    ⟨hreads, hwrites, hlocal e (hb2.step.env.trans hg) hs⟩
    fun hrun => hfall (Blk.fallsThrough_of_choose hleave (Blk.choose_of_run hrun)), Blk.run_iff]
  rfl

/-- **Walks**: the condition on entry foretells the runs from the first block. -/
theorem shows_run {rest : List Node} (hgraph : w.flow.graph = n :: rest) :
    w.run.Makes σ ν (Shows S w.post (B (w.flow.key n.label []))) := by
  refine makes_run (T := fun k => Shows S w.post (B k)) (I := fun σ ν => I σ ∧ σ.Lists ν w.post)
    (fun hb hσ => ⟨h.mono hb.step hσ.1, hb.lists hσ.2⟩) (fun {σ ν} k hσ => ?_) hgraph ⟨hσ, hpost⟩
  refine Walking.makes_env_bind (Walking.makes_lift_bind fun isCut hcut => ?_)
  split
  · next htrue =>
    refine lift fun _ c σ' hends => ?_
    obtain ⟨ν', hb, hl, hsorted, hisCut, hholds⟩ := ends_cut (ν := ν) hends
    refine ⟨ν', hb, hl, fun e hg _ => ?_⟩
    have hcut' : w.flow.isCut e.unroll k = .ok true := by
      rw [(hb.step.env.trans hg).unroll, hcut, htrue]
    refine ⟨fun s => ⟨_, (h.steps.cut hcut').mpr rfl⟩, fun s o ho => ?_, fun _ _ => hsorted⟩
    rw [(h.steps.cut hcut').mp ho]
    exact ⟨⟨c, c.mem_subtrees_self, hisCut⟩, fun _ b => hholds b s⟩
  · next hfalse =>
    exact Walking.makes_lift_bind fun n hnode =>
      h.shows_block hσ.1 hσ.2 (by rw [hcut]; simpa using hfalse) hnode

end Foresight

end Walker

end Antecedent
