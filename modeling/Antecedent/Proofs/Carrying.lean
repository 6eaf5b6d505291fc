import Antecedent.Proofs.Scope

/-!
# What walks do with the condition on exit

Whatever a walk meets, calls and unknown values included, it passes the condition on exit on: it
branches around it, puts goals beside it, or lets a substitution wait for it.  It never uses it as a
hypothesis, and it never replaces anything but constants in it.

* `Constraint.Passes` says this of one node, and `Constraint.ReadsOwn` what the node itself reads.
* `Carries.precondition` says that a property that such nodes keep is kept by walks.
-/

namespace Antecedent

variable {post : Constraint} {b : Blk} {j : Jmp}

/-! ## §1 Nodes that pass a condition on -/

/-- Whether a replacement is of constants, not of the one for cut paths, by well-sorted terms. -/
def Replacement.Replaces (σ : Replacement) : Prop :=
  ∀ p ∈ σ, (∃ name srt, p.1 = .const name srt) ∧ p.1 ≠ Term.loopCut ∧ p.2.WellSorted

theorem Replacement.Replaces.writes {σ : Replacement} (h : σ.Replaces)
    (hk : σ.keepsSorts = true) : σ.Writes := by
  rintro ⟨old, new⟩ hp
  obtain ⟨⟨name, srt, rfl⟩, hne, hsorted⟩ := h _ hp
  have hsort := List.all_eq_true.mp hk _ hp
  exact ⟨name, srt, rfl, hne, hsorted, (beq_iff_eq.mp hsort).symm⟩

namespace Constraint

def IsGoal : Constraint → Prop
  | .goal .. => True
  | _ => False

/-- Whether a node passes on what stands below it: goals are all that a clause has beside its last
conclusion, and a substitution replaces constants.  A clause without parts stands for what is to be
passed on. -/
def Passes : Constraint → Prop
  | .clause _ hyps concls =>
    hyps = [] ∧ concls = [] ∨
      (∀ h ∈ hyps, h.IsGoal) ∧ ∃ goals c, concls = goals ++ [c] ∧ ∀ g ∈ goals, g.IsGoal
  | .subst _ _ pairs => pairs.Replaces
  | _ => True

/-- What the terms of a node itself read; what a substitution replaces is not read. -/
def ReadsOwn (V : Symbol → Srt → Prop) : Constraint → Prop
  | .goal _ _ f => f.RestsOn V
  | .ite _ _ cond _ _ => cond.RestsOn V
  | .clause .. => True
  | .subst _ _ pairs => ∀ p ∈ pairs, p.2.RestsOn V

end Constraint

/-! ## §2 Properties that go up -/

/-- A property of trees survives building, and goes up to new nodes that pass conditions on and read
what is in a scope.  It is not about open activations. -/
structure Carries {e : Environment} (S : Scope e)
    (T : Session → (Nat → Constraint) → Constraint → Prop) : Prop where
  mono : ∀ {σ ν σ' ν' c}, Builds σ ν σ' ν' → T σ ν c → T σ' ν' c
  frame : ∀ {σ ν c} (l : Label) (n : Nat), T σ ν c → T { σ with env := σ.env.setDepth l n } ν c
  new : ∀ {σ ν c}, c.id = σ.supply.nodes → c.Passes → c.ReadsOwn (S.reads σ.env) →
    (∀ d ∈ c.children, T σ ν d) → T σ.bump (Function.update ν σ.supply.nodes c) c

namespace Carries

open Build

variable {e : Environment} {S : Scope e} {T : Session → (Nat → Constraint) → Constraint → Prop}
  (hT : Carries S T) {σ : Session} {ν : Nat → Constraint}
include hT

theorem node {f : Nat → Constraint} (hid : ∀ i, (f i).id = i) (hpass : ∀ i, (f i).Passes)
    (hreads : ∀ i, (f i).ReadsOwn (S.reads σ.env)) (hbelow : ∀ i, ∀ d ∈ (f i).children, T σ ν d) :
    (do return f (← nodeId)).Makes σ ν T := by
  intro _ c σ' hends
  simp only [ends_bind, ends_nodeId, ends_pure] at hends
  obtain ⟨_, _, ⟨rfl, rfl⟩, rfl, rfl⟩ := hends
  exact ⟨_, .bump _, hT.new (hid _) (hpass _) (hreads _) (hbelow _)⟩

theorem goal (name : String) {f : Term} (hf : f.RestsOn (S.reads σ.env)) :
    (Build.goal name f).Makes σ ν fun σ' ν' c => c.IsGoal ∧ T σ' ν' c := by
  intro hsound c σ' hends
  obtain ⟨ν', hb, hc⟩ := hT.node (f := (.goal · name f)) (fun _ => rfl) (fun _ => True.intro)
    (fun _ => hf) (by simp [Constraint.children]) hsound c σ' hends
  obtain ⟨i, -, rfl, -⟩ := Build.ends_goal (ν := ν) hends
  exact ⟨ν', hb, True.intro, hc⟩

theorem branch {name : Json} {cond : Term} {yes no : Constraint}
    (hcond : cond.RestsOn (S.reads σ.env)) (hy : T σ ν yes) (hn : T σ ν no) :
    (Build.branch name cond yes no).Makes σ ν T := by
  unfold Build.branch
  split
  · exact makes_pure hy
  · exact makes_pure hn
  · exact hT.node (fun _ => rfl) (fun _ => True.intro) (fun _ => hcond)
      (by simp [Constraint.children, hy, hn])

/-- A clause with goals beside its last conclusion. -/
theorem clause {hyps : List Constraint} (goals : List Constraint) {c : Constraint}
    (hhyps : ∀ h ∈ hyps, h.IsGoal ∧ T σ ν h) (hgoals : ∀ g ∈ goals, g.IsGoal ∧ T σ ν g)
    (hc : T σ ν c) : (Build.clause hyps (goals ++ [c])).Makes σ ν T := by
  refine hT.node (fun _ => rfl)
    (fun _ => .inr ⟨fun h hh => (hhyps h hh).1, goals, c, rfl, fun g hg => (hgoals g hg).1⟩)
    (fun _ => True.intro) ?_
  intro _ d hd
  simp only [Constraint.children, List.mem_append, List.mem_singleton] at hd
  rcases hd with hd | hd | rfl
  · exact (hhyps d hd).2
  · exact (hgoals d hd).2
  · exact hc

theorem substitution {body : Constraint} {olds news : List Term} (hbody : T σ ν body)
    (h : Replacement.Replaces (olds.zip news))
    (hreads : ∀ p ∈ olds.zip news, p.2.RestsOn (S.reads σ.env)) :
    (Build.substitution body olds news).Makes σ ν T := by
  unfold Build.substitution
  split
  · exact makes_throw
  · split
    · exact makes_pure hbody
    · exact hT.node (fun _ => rfl) (fun _ => h) (fun _ => hreads)
        (by simpa [Constraint.children] using hbody)

omit hT in
/-- A pair that may be substituted: a constant that is not Boolean, by a term that may be read. -/
def Replaceable (S : Scope e) (σ : Session) (p : Term × Term) : Prop :=
  (∃ name srt, p.1 = .const name srt ∧ srt ≠ .bool) ∧ p.2.WellSorted ∧
    p.2.RestsOn (S.reads σ.env)

omit hT in
theorem Replaceable.mono {σ' : Session} {ν' : Nat → Constraint} (hb : Builds σ ν σ' ν')
    {p : Term × Term} (h : Replaceable S σ p) : Replaceable S σ' p :=
  ⟨h.1, h.2.1, S.restsOn_mono hb h.2.2⟩

theorem pairs {body : Constraint} (pairs : List (Term × Term)) (hbody : T σ ν body)
    (h : ∀ p ∈ pairs, Replaceable S σ p) :
    (Build.substitution body (pairs.map (·.1)) (pairs.map (·.2))).Makes σ ν T := by
  have hzip : (pairs.map (·.1)).zip (pairs.map (·.2)) = pairs := by
    rw [List.zip_map', List.map_id']
  refine hT.substitution hbody ?_ ?_ <;> rw [hzip]
  · intro p hp
    obtain ⟨⟨name, srt, hold, hne⟩, hnew, -⟩ := h p hp
    refine ⟨⟨name, srt, hold⟩, fun hcut => hne ?_, hnew⟩
    rw [hold, Term.loopCut] at hcut
    exact (Term.const.inj hcut).2
  · exact fun p hp => (h p hp).2.2

/-! ## §3 Definitions and calls -/

section Builders

variable (hσ : e.Grows σ.env)
include hσ

theorem hookGoal {a : Access} (ha : a.addr.Proper (S.reads σ.env)) {hook : Hook}
    (hhook : hook ∈ e.hooks) :
    (Build.hookGoal a hook).Makes σ ν fun σ' ν' r =>
      ∀ p ∈ r, p.2.IsGoal ∧ T σ' ν' p.2 := by
  -- whatever is attached to an access, what it makes is a goal
  have hgoal : ∀ {σ : Session} {ν : Nat → Constraint} (duty : Duty) (name : String) {f : Term},
      f.RestsOn (S.reads σ.env) → (do return some (duty, ← Build.goal name f)).Makes σ ν
        fun σ' ν' r => ∀ p ∈ r, p.2.IsGoal ∧ T σ' ν' p.2 := by
    intro σ ν duty name f hf
    refine (hT.goal name hf).bind fun c σ' ν' _ hc => makes_pure ?_
    simpa using hc
  cases hook with
  | nonNull kind duty =>
    rw [Build.hookGoal]
    split
    · exact makes_pure (by simp)
    · refine makes_lift_bind fun w _ => makes_lift_bind fun t ht => hgoal _ _ ?_
      exact (Term.mkDistinct_ok ha (Term.proper_num (Nat.two_pow_pos w)) ht).proper.uses.restsOn
  | sameAs memory map =>
    rw [Build.hookGoal]
    split
    · exact makes_pure (by simp)
    · refine Makes.bind (makes_env_bind (S.makes_getVar hσ (hσ.memVar ▸ S.memory)))
        fun m σ1 ν1 hb1 hm => ?_
      refine makes_lift_bind fun mine hmine => makes_lift_bind fun addr haddr =>
        makes_lift_bind fun other hother => makes_lift_bind fun t ht => hgoal _ _ ?_
      rcases S.hooks hhook (hσ.trans hb1.step.env) with hmemory | hall
      · have ha := S.proper_mono hb1 ha
        obtain ⟨w, hw⟩ := Term.loadBytes_sort hmine
        have haddr := (AddressMap.term_ok ha hw haddr).proper
        exact (Term.mkEq_ok (Term.loadBytes_ok hm ha hmine).proper
          (Term.loadBytes_ok hmemory haddr hother).proper ht).proper.uses.restsOn
      · exact Term.restsOn_of_mentions t fun name srt _ => hall name srt

theorem guarded {c : Constraint} (hc : T σ ν c) {accesses : List Access}
    (ha : ∀ a ∈ accesses, a.addr.Proper (S.reads σ.env)) :
    (Build.guarded c accesses).Makes σ ν T := by
  have hmono : ∀ {σ ν σ' ν'} {p : Duty × Constraint}, Builds σ ν σ' ν' →
      p.2.IsGoal ∧ T σ ν p.2 → p.2.IsGoal ∧ T σ' ν' p.2 := fun hb hp => ⟨hp.1, hT.mono hb hp.2⟩
  -- all that is found for the accesses are goals
  have hfound : ∀ a ∈ accesses, ∀ σ' ν', Builds σ ν σ' ν' →
      (do (← env).hooks.filterMapM (Build.hookGoal a)).Makes σ' ν' fun σ' ν' ps =>
        ∀ p ∈ ps, p.2.IsGoal ∧ T σ' ν' p.2 := by
    refine fun a hmem σ1 ν1 hb1 => makes_env_bind ?_
    refine makes_filterMapM hmono fun hook hhook σ2 ν2 hb2 => ?_
    have hb := hb1.trans hb2
    refine hT.hookGoal (hσ.trans hb.step.env) (S.proper_mono hb (ha a hmem)) ?_
    rwa [← (hσ.trans hb1.step.env).hooks]
  refine Makes.bind (makes_flatMapM (R := fun σ ν p => p.2.IsGoal ∧ T σ ν p.2) hmono hfound)
    fun found σ' ν' hb hfound => ?_
  -- and these are the hypotheses and the conclusions of the clause
  have hpick : ∀ pick : Duty × Constraint → Option Constraint,
      (∀ p c, pick p = some c → p.2 = c) → ∀ d ∈ found.filterMap pick, d.IsGoal ∧ T σ' ν' d := by
    intro pick hpick d hd
    obtain ⟨p, hmem, hsome⟩ := List.mem_filterMap.mp hd
    exact hpick p d hsome ▸ hfound p hmem
  dsimp only
  split
  · exact makes_pure (hT.mono hb hc)
  · refine hT.clause _ (hpick _ fun p c hp => ?_) (hpick _ fun p c hp => ?_) (hT.mono hb hc)
    · exact Option.some.inj (Option.ite_none_right_eq_some.mp hp).2
    · exact Option.some.inj (Option.ite_none_right_eq_some.mp hp).2

/-- Definitions read what the variables of their values do. -/
theorem definition (hpost : T σ ν post) {d : Def} (hd : ∀ v ∈ d.rhs.vars, v.ReadIn S.reads e) :
    (Build.definition post d).Makes σ ν T := by
  refine (S.makes_toTerm hσ hd).bind₂ fun rhs accesses σ1 ν1 hb1 hrhs => ?_
  refine makes_getVar.bind fun lhs σ2 ν2 hb2 hlhs => ?_
  have hrhs := hrhs.mono hb2
  have hsub := hT.pairs [(lhs, rhs)] (hT.mono (hb1.trans hb2) hpost)
    (by simpa using ⟨hlhs.2, hrhs.term.sorted, hrhs.term.uses.restsOn⟩)
  refine Makes.bind hsub fun c σ3 ν3 hb3 hc => ?_
  exact hT.guarded (hσ.trans ((hb1.trans hb2).trans hb3).step.env) hc (hrhs.mono hb3).accesses

omit hT in
theorem makes_inputValues :
    inputValues.Makes σ ν fun σ' _ ts => ∀ t ∈ ts, t.Proper (S.reads σ'.env) := by
  refine makes_env_bind ?_
  split
  · refine makes_mapM (fun hb ht => S.proper_mono hb ht) fun r hr σ1 ν1 hb1 => ?_
    exact S.makes_getInput (hσ.trans hb1.step.env) (hσ.arch ▸ hr)
  · exact makes_pure (by simp)

theorem havoc (hpost : T σ ν post) (callee : Sub) (registers functional : List String) :
    (Build.havoc post callee registers functional).Makes σ ν T := by
  refine (makes_inputValues (S := S) hσ).bind fun inputs σ1 ν1 hb1 hinputs => ?_
  refine Makes.bind (makes_filterMapM (R := fun σ _ p => Replaceable S σ p)
    (fun hb hp => hp.mono hb) fun r _ σ2 ν2 hb2 => makes_env_bind ?_)
    fun pairs σ2 ν2 hb2 hpairs => hT.pairs pairs (hT.mono (hb1.trans hb2) hpost) hpairs
  split
  · exact makes_pure (by simp)
  · refine makes_getRegister.bind fun old σ3 ν3 hb3 hold => ?_
    dsimp only
    split
    · refine (S.makes_callResult fun t ht =>
        S.proper_mono (hb2.trans hb3) (hinputs t ht)).bind fun new _ _ _ hnew => makes_pure ?_
      simpa using ⟨hold.2, hnew⟩
    · refine S.makes_fresh.bind fun new _ _ _ hnew => makes_pure ?_
      simpa using ⟨hold.2, hnew.sorted, hnew.uses.restsOn⟩

theorem assumeArgument (hpost : T σ ν post) (callee : Sub) (tid : Json) :
    (Build.assumeArgument post callee tid).Makes σ ν T := by
  refine makes_env_bind ?_
  split
  · exact makes_pure hpost
  · next r rest hinputs =>
    have hr : r ∈ e.arch.inputRegisters := by
      rw [← hσ.arch, hinputs]
      exact List.mem_cons_self ..
    refine (S.makes_getInput hσ hr).bind fun arg σ1 ν1 hb1 harg => makes_lift_bind fun w _ =>
      makes_lift_bind fun t ht => (hT.goal _ ?_).bind fun hyp σ2 ν2 hb2 hhyp => ?_
    · exact (Term.mkDistinct_ok harg (Term.proper_num (Nat.two_pow_pos w)) ht).proper.uses.restsOn
    · exact hT.clause [] (by simpa using hhyp) (by simp) (hT.mono (hb1.trans hb2) hpost)

theorem argumentTerms (hpost : T σ ν post) {callee : Sub} (hcallee : S.callee callee) :
    (Build.argumentTerms post callee).Makes σ ν T := by
  refine Makes.bind (makes_mapM (R := fun σ _ t => t.Proper (S.reads σ.env))
    (fun hb ht => S.proper_mono hb ht) fun a ha σ1 ν1 hb1 => ?_) fun inputs σ1 ν1 hb1 hinputs => ?_
  · obtain ⟨hmem, hinput⟩ := List.mem_filter.mp ha
    exact S.makes_getVar (hσ.trans hb1.step.env) (S.args hcallee hmem hinput)
  refine makes_env_bind ?_
  have hused : ∀ t ∈ (if σ1.env.useInputs then inputs else []), t.Proper (S.reads σ1.env) := by
    split
    · exact hinputs
    · simp
  refine Makes.bind (makes_mapM (R := fun σ _ p => Replaceable S σ p) (fun hb hp => hp.mono hb)
    fun a _ σ2 ν2 hb2 => ?_) fun pairs σ2 ν2 hb2 hpairs =>
      hT.pairs pairs (hT.mono (hb1.trans hb2) hpost) hpairs
  refine makes_getVar.bind fun old σ3 ν3 hb3 hold => ?_
  refine (S.makes_callResult fun t ht => S.proper_mono (hb2.trans hb3) (hused t ht)).bind
    fun new _ _ _ hnew => ?_
  exact makes_pure ⟨hold.2, hnew⟩

omit hT hσ in
theorem makes_returnRegisters :
    returnRegisters.Makes σ ν fun _ _ _ => True :=
  makes_env_bind (makes_pure True.intro)

/-- **Calls**: whatever summary covers the callee, the condition after the call is passed on. -/
theorem summarize {walk : Constraint → Sub → Build Constraint} {callee : Sub} (hpost : T σ ν post)
    (hcallee : S.callee callee) (tid : Json) (s : Summary) (hf : σ.env.Flagged)
    (hwalk : ∀ {σ ν c}, e.Grows σ.env → T σ ν c → σ.env.Flagged → (walk c callee).Makes σ ν T) :
    (Build.summarize walk post callee tid s).Makes σ ν T := by
  cases s with
  | error =>
    exact (hT.goal _ fun _ _ _ => by simp).mono fun _ _ _ _ h => h.2
  | assume => exact hT.assumeArgument hσ hpost callee tid
  | nondet =>
    exact makes_returnRegisters.bind fun _ _ _ hb _ =>
      hT.havoc (hσ.trans hb.step.env) (hT.mono hb hpost) _ _ _
  | instrumentation => exact hT.havoc hσ hpost _ _ _
  | inline names =>
    -- the body is walked in an activation of its own, which is closed again
    intro hsound c σ' hends
    obtain ⟨l, τ, -, hbody, rfl⟩ := ends_inline.mp hends
    obtain ⟨ν', hb, hc⟩ := hwalk (hσ.trans (σ.env.grows_setDepth l _))
      (hT.frame l (σ.env.depth l + 1) hpost) hf hsound c τ hbody
    exact ⟨ν', ⟨hb.step.activation, hb.table⟩, hT.frame l _ hc⟩
  | empty => exact makes_pure hpost
  | arguments => exact hT.argumentTerms hσ hpost hcallee
  | clobber =>
    refine makes_env_bind (makes_returnRegisters.bind fun _ _ _ hb _ => ?_)
    exact hT.havoc (hσ.trans hb.step.env) (hT.mono hb hpost) _ _ _
  | result =>
    exact makes_returnRegisters.bind fun _ _ _ hb _ =>
      hT.havoc (hσ.trans hb.step.env) (hT.mono hb hpost) _ _ _

end Builders

end Carries

/-! ## §4 Walks -/

namespace Carries

open Build

variable {e : Environment} {S : Scope e} {T : Session → (Nat → Constraint) → Constraint → Prop}
  (hT : Carries S T) {σ : Session} {ν : Nat → Constraint} {w : Walker} {sub : Sub}
  (hsub : S.body sub) (hblocks : ∀ n ∈ w.flow.graph, n.block ∈ sub.blks)
  (hinline : ∀ {σ ν c} g, S.body g → e.Grows σ.env → T σ ν c → σ.env.Flagged →
    (w.inline c g).Makes σ ν T)
  (hσ : e.Grows σ.env) (hf : σ.env.Flagged)

include hT in
/-- A builder without a table. -/
theorem lift {α : Type} {act : Build α} {Q : Session → (Nat → Constraint) → α → Prop}
    (h : act.Makes σ ν Q) : Walking.Makes (fun _ => T) (liftM act) σ ν Q :=
  Walking.makes_lift (T := fun _ => T) hT.mono h

include hT hsub hinline hσ hf

theorem call {after : Constraint} (hafter : T σ ν after) (hb : b ∈ sub.blks) (hj : j ∈ b.jmps)
    (hkind : j.kind = .call) : (w.call j after).Makes σ ν T := by
  refine makes_lift_bind fun name hname => (makes_callFlag hf).bind fun flag σ1 ν1 hb1 hflag => ?_
  obtain ⟨symbol, rfl, hne⟩ := hflag
  refine (hT.substitution (hT.mono hb1 hafter) ?_ ?_).bind fun c σ2 ν2 hb2 hc => ?_
  · rintro p hp
    obtain rfl := List.mem_singleton.mp hp
    refine ⟨⟨symbol, .bool, rfl⟩, fun hcut => hne ?_, .lit true⟩
    exact (Term.const.inj hcut).1
  · rintro p hp
    obtain rfl := List.mem_singleton.mp hp
    exact fun _ _ _ => by simp
  · have hσ2 := hσ.trans (hb1.trans hb2).step.env
    refine makes_env_bind (makes_lift_bind fun s _ => ?_)
    have hcallee : S.callee ((σ2.env.findSub? name).getD { name := .str name }) := by
      rw [Environment.findSub?, hσ2.subs]
      exact S.calls hsub hb hj hkind hname
    exact hT.summarize hσ2 hc hcallee j.tid s ((hb1.trans hb2).step.flagged hf)
      (hinline _ (S.walks hcallee))

theorem destination (hpost : T σ ν w.post) (hb : b ∈ sub.blks) (hj : j ∈ b.jmps) (counts : Counts) :
    Walking.Makes (fun _ => T) (w.destination j counts) σ ν T :=
  Walker.makes_destination (P := fun _ => T σ ν) (fun _ _ hc => hc) hpost (fun _ _ _ hc => hc)
    fun _ _ hkind _ hc => hT.lift (hT.call hsub hinline hσ hf hc hb hj hkind)

theorem jump (hpost : T σ ν w.post) {otherwise : Constraint} (hother : T σ ν otherwise)
    (hb : b ∈ sub.blks) (hj : j ∈ b.jmps) (counts : Counts) :
    Walking.Makes (fun _ => T) (w.jump counts j otherwise) σ ν T := by
  have hcond : ∀ v ∈ j.cond.vars, v.ReadIn S.reads e := fun v hv =>
    S.vars hsub (List.mem_flatMap.mpr
      ⟨b, hb, List.mem_append_right _ (List.mem_flatMap.mpr ⟨j, hj, hv⟩)⟩)
  refine (hT.lift (S.makes_condition hσ hcond)).bind fun p σ1 ν1 hb1 hp => ?_
  obtain ⟨cond, accesses⟩ := p
  have hσ1 := hσ.trans hb1.step.env
  dsimp only
  split
  · exact hT.lift (hT.guarded hσ1 (hT.mono hb1 hother) hp.accesses)
  · refine (hT.destination hsub hinline hσ1 (hb1.step.flagged hf) (hT.mono hb1 hpost) hb hj
      counts).bind fun taken σ2 ν2 hb2 htaken => ?_
    have hp := hp.mono hb2
    refine (hT.lift (hT.branch hp.term.uses.restsOn htaken
      (hT.mono (hb1.trans hb2) hother))).bind fun c σ3 ν3 hb3 hc => ?_
    exact hT.lift (hT.guarded (hσ1.trans (hb2.trans hb3).step.env) hc (hp.mono hb3).accesses)

theorem block (hpost : T σ ν w.post) {n : Node} (hn : n.block ∈ sub.blks) (counts : Counts) :
    Walking.Makes (fun _ => T) (w.block n counts) σ ν T := by
  refine Walker.makes_block (P := fun _ => T σ ν) (fun _ _ hc => hc) hpost fun _ last _ hlast => ?_
  refine Walking.Makes.bind (Walking.makes_foldrM hlast fun j hj c σ1 ν1 hb1 hc =>
    hT.jump hsub hinline (hσ.trans hb1.step.env) (hb1.step.flagged hf) (hT.mono hb1 hpost) hc hn hj
      counts)
    fun jumps σ1 ν1 hb1 hjumps => ?_
  refine Walking.makes_foldrM hjumps fun d hd c σ2 ν2 hb2 hc => hT.lift ?_
  refine hT.definition (hσ.trans (hb1.trans hb2).step.env) hc fun v hv => S.vars hsub ?_
  exact List.mem_flatMap.mpr ⟨n.block, hn, List.mem_append_left _
    (List.mem_flatMap.mpr ⟨d, hd, List.mem_cons_of_mem _ hv⟩)⟩

omit hsub hinline hσ hf in
theorem cut (l : Label) : (w.cut l).Makes σ ν T := by
  have hgoal : ∀ {σ ν} name, (Build.cut name).Makes σ ν T := fun {σ ν} name =>
    (hT.goal name (Term.restsOn_const (S.cut σ.env))).mono fun _ _ _ _ h => h.2
  intro hsound c σ' hends
  obtain ⟨τ, name, hstep, hcut⟩ := Walker.cut_cases hends
  obtain ⟨ν', hb, hc⟩ :=
    hgoal (ν := ν) name (hstep.sound hsound) c σ' hcut
  exact ⟨ν', (Builds.of_step hstep).trans hb, hc⟩

include hblocks

theorem build (hpost : T σ ν w.post) (k : Key) : Walking.Makes (fun _ => T) (w.build k) σ ν T := by
  refine Walking.makes_env_bind (Walking.makes_lift_bind fun isCut _ => ?_)
  split
  · exact hT.lift (hT.cut k.label)
  · exact Walking.makes_lift_bind fun n hn =>
      hT.block hsub hinline hσ hf hpost (hblocks n (Flow.mem_of_node hn)) k.counts

/-- **Walks**: what goes up is true of the condition that a walk gives. -/
theorem run (hpost : T σ ν w.post) : w.run.Makes σ ν T := by
  cases hgraph : w.flow.graph with
  | nil =>
    unfold Walker.run
    rw [hgraph]
    exact makes_pure hpost
  | cons n rest =>
    exact Walker.makes_run (I := fun σ ν => e.Grows σ.env ∧ σ.env.Flagged ∧ T σ ν w.post)
      (fun hb h => ⟨h.1.trans hb.step.env, hb.step.flagged h.2.1, hT.mono hb h.2.2⟩)
      (fun k h => hT.build hsub hblocks hinline h.1 h.2.1 h.2.2 k) hgraph ⟨hσ, hf, hpost⟩

omit hsub hblocks hinline hσ hf

theorem preconditionWithin (bound : Nat) {sub : Sub} (hsub : S.body sub) (hσ : e.Grows σ.env)
    (hpost : T σ ν post) (hflagged : σ.env.Flagged) :
    (Antecedent.preconditionWithin bound post sub).Makes σ ν T := by
  induction bound generalizing σ ν post sub with
  | zero => exact makes_throw
  | succ bound ih =>
    unfold Antecedent.preconditionWithin
    split
    · exact makes_pure hpost
    · refine makes_lift_bind fun f hf =>
        hT.run (w := ⟨f, post, Antecedent.preconditionWithin bound⟩) hsub (fun n hn => ?_)
          (fun g hg hσ hc hflagged => ih hg hσ hc hflagged) hσ hflagged hpost
      exact Sub.map_block_flow hf ▸ List.mem_map_of_mem hn

/-- **The walk of a subroutine** keeps what goes up to nodes that pass conditions on and read what
is in scope. -/
theorem precondition {sub : Sub} (hsub : S.body sub) (hσ : e.Grows σ.env) (hpost : T σ ν post)
    (hflagged : σ.env.Flagged) : (Antecedent.precondition post sub).Makes σ ν T :=
  makes_env_bind (hT.preconditionWithin _ hsub hσ hpost hflagged)

end Carries

/-! ## §5 Whatever is read -/

/-- A property of trees survives building, and goes up to new nodes that pass conditions on.  It is
not about the environment. -/
structure Carried (T : Session → (Nat → Constraint) → Constraint → Prop) : Prop where
  mono : ∀ {σ ν σ' ν' c}, Builds σ ν σ' ν' → T σ ν c → T σ' ν' c
  frame : ∀ {σ ν c} (e : Environment), T σ ν c → T { σ with env := e } ν c
  new : ∀ {σ ν c}, c.id = σ.supply.nodes → c.Passes → (∀ d ∈ c.children, T σ ν d) →
    T σ.bump (Function.update ν σ.supply.nodes c) c

/-- The walk of a subroutine keeps what goes up to all nodes that pass conditions on. -/
theorem Carried.precondition {T : Session → (Nat → Constraint) → Constraint → Prop} (hT : Carried T)
    {σ : Session} {ν : Nat → Constraint} (hpost : T σ ν post) (sub : Sub)
    (hflagged : σ.env.Flagged) : (Antecedent.precondition post sub).Makes σ ν T :=
  Carries.precondition (S := .all σ.env) (T := T)
    ⟨hT.mono, fun _ _ hc => hT.frame _ hc, fun hid hpass _ hbelow => hT.new hid hpass hbelow⟩
    True.intro (.refl _) hpost hflagged

end Antecedent
