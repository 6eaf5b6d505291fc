import Antecedent.Proofs.Foretelling

/-!
# Weakest preconditions are exact

The condition that the walk of a subroutine builds is true in a state exactly if the run from this
state ends well: outside of the subroutine where the condition on exit is true, at a cut if cuts
count as true, or at an access whose assumption is broken.

* `Flow.steps_travels` says that runs without calls are what walks foretell.
* `precondition_exact` is the result.
-/

namespace Antecedent

variable {post pre : Constraint} {sub : Sub} {e : Environment} {s : State} {f : Flow}
  {σ σ' : Session}

/-! ## §1 Runs without calls -/

namespace Flow

/-- Runs from a jump that is no call, through local blocks. -/
def Leaps (f : Flow) (counts : Counts) (j : Jmp) : Behaviour := fun e s o =>
  ∃ t, j.goal? = some t ∧ f.Onward (fun k e => f.Travels e k) counts t e s o

/-- **Runs through local blocks** go from one key to the next. -/
theorem steps_travels (f : Flow) : f.Steps (fun k e => f.Travels e k) f.Leaps where
  goes hgoal := by simp [Leaps, hgoal]
  cut hcut := by
    constructor
    · exact fun h => h.runs.unique (.cut hcut)
    · rintro rfl
      exact .cut hcut
  block {k n t e s o} hcut hnode hlocal hafter := by
    -- past the last jump control goes to the target that the graph has for it
    have hpast : ∀ {s' chosen}, n.block.run e s = .ok (s', chosen) →
        (f.Past (fun k e => f.Travels e k) f.Leaps k.counts t chosen e s' o ↔
          ∃ t', f.graph.after n chosen = some t' ∧
            f.Onward (fun k e => f.Travels e k) k.counts t' e s' o) := by
      intro s' chosen hrun
      cases chosen with
      | some j => exact Iff.rfl
      | none => simp [Past, hafter hrun]
    constructor
    · intro h
      cases h with
      | cut hcut' => cases hcut.symm.trans hcut'
      | stop _ hnode' _ hrun =>
        cases hnode.symm.trans hnode'
        exact .inl hrun
      | leave _ hnode' _ hrun hout =>
        cases hnode.symm.trans hnode'
        exact .inr ⟨_, _, hrun, (hpast hrun).mpr ⟨_, hout, rfl⟩⟩
      | go _ hnode' _ hrun hnext next =>
        cases hnode.symm.trans hnode'
        exact .inr ⟨_, _, hrun, (hpast hrun).mpr ⟨_, hnext, next⟩⟩
    · rintro (hrun | ⟨s', chosen, hrun, h⟩)
      · exact .stop hcut hnode hlocal hrun
      · obtain ⟨t', ht', h⟩ := (hpast hrun).mp h
        cases t' with
        | outside =>
          obtain rfl : o = .exit s' := h
          exact .leave hcut hnode hlocal hrun ht'
        | block l => exact .go hcut hnode hlocal hrun ht' h

end Flow

/-! ## §2 Subroutines -/

def Sub.EndsWell (sub : Sub) (e : Environment) (post : Constraint) (b : Bool) (s : State) : Prop :=
  ∃ o, sub.Runs e s o ∧ o.Accepts (post.Holds b) b

/-- A run that ends well leaves where the condition on exit is true. -/
theorem Sub.EndsWell.holds {b : Bool} {s' : State} (h : sub.EndsWell e post b s)
    (hrun : sub.Runs e s (.exit s')) : post.Holds b s' := by
  obtain ⟨o, ho, haccepts⟩ := h
  rwa [ho.unique hrun] at haccepts

/-- What is known of the precondition of a subroutine. -/
structure Sub.Meets (sub : Sub) (e : Environment) (post pre : Constraint) : Prop where
  settled : sub.Settled e
  means : pre.Means (sub.EndsWell e post)
  exits : ∀ s s', sub.Runs e s (.exit s') → post ∈ pre.subtrees
  cuts : ∀ s, sub.Runs e s .cut → ∃ d ∈ pre.subtrees, d.isCut = true
  sorts : post.Sorted → sub.WellSorted e → pre.Sorted

/-- A condition meets a subroutine if it foretells runs of it. -/
theorem Sub.Meets.of_foretells {X : Behaviour} (h : Foretells sub.WellSorted post X e pre)
    (hX : ∀ s o, X e s o → sub.Runs e s o) (hsettled : sub.Settled e) : sub.Meets e post pre := by
  have hpredicts : ∀ {s o}, sub.Runs e s o → pre.Predicts s post o := fun {s o} hruns => by
    obtain ⟨o', ho'⟩ := h.runs s
    rw [hruns.unique (hX s o' ho')]
    exact h.predicts s o' ho'
  refine ⟨hsettled, fun hall b s => ?_, fun s s' hruns => (hpredicts hruns).below,
    fun s hruns => (hpredicts hruns).1, h.sorted⟩
  obtain ⟨o, ho⟩ := hsettled.runs s
  rw [(hpredicts ho).holds_iff hall b]
  constructor
  · exact fun haccepts => ⟨o, ho, haccepts⟩
  · rintro ⟨o', ho', haccepts⟩
    rwa [ho.unique ho']

theorem Sub.block_mem_of_flow (hf : sub.flow = .ok f) : ∀ n ∈ f.graph, n.block ∈ sub.blks :=
  fun _ hn => map_block_flow hf ▸ List.mem_map_of_mem hn

/-- What a precondition can be: the condition on exit if there are no blocks, and what the walk of
the blocks gives otherwise. -/
theorem Build.precondition_cases (h : (precondition post sub).Ends σ pre σ') :
    (sub.blks.isEmpty = true ∧ pre = post ∧ σ' = σ) ∨
      ∃ f bound, sub.flow = .ok f ∧ f.graph ≠ [] ∧
        (Walker.mk f post (preconditionWithin bound)).run.Ends σ pre σ' := by
  simp only [precondition, ends_bind, ends_env] at h
  obtain ⟨_, _, ⟨rfl, rfl⟩, h⟩ := h
  cases hbound : σ.env.nestingBound with
  | zero => simp [Environment.nestingBound] at hbound
  | succ bound =>
    rw [hbound, preconditionWithin] at h
    split at h
    · next hempty =>
      obtain ⟨rfl, rfl⟩ := ends_pure.mp h
      exact .inl ⟨hempty, rfl, rfl⟩
    · next hempty =>
      simp only [ends_bind, ends_lift] at h
      obtain ⟨f, _, ⟨hf, rfl⟩, h⟩ := h
      refine .inr ⟨f, bound, hf, fun hnil => ?_, h⟩
      simp [← Sub.map_block_flow hf, hnil] at hempty

/-- **Preconditions**: the precondition is true exactly where the run of the subroutine ends
well. -/
theorem Build.ends_precondition {ν : Nat → Constraint} (h : (precondition post sub).Ends σ pre σ')
    (hσ : σ.env.Sound) (hfit : ∀ hook ∈ σ.env.hooks, hook.Fit) (hcalls : sub.CallFree)
    (hknown : sub.IsKnown) (hpost : σ.Lists ν post) :
    ∃ ν', Builds σ ν σ' ν' ∧ σ'.Lists ν' pre ∧
      ∀ e, σ'.env.Grows e → e.Sound → sub.Meets e post pre := by
  rcases precondition_cases h with ⟨hempty, rfl, rfl⟩ | ⟨f, bound, hf, hgraph, h⟩
  · refine ⟨ν, .refl _ _, hpost, fun e hg hs => ?_⟩
    exact .of_foretells ((Shows.exit hpost).2 e hg hs) (by simp [Sub.Runs, hempty]) (.inl hempty)
  · obtain ⟨n, rest, hcons⟩ := List.exists_cons_of_ne_nil hgraph
    have hmem := Sub.block_mem_of_flow hf
    have hforesight : (Walker.mk f post (preconditionWithin bound)).Foresight sub.WellSorted
        (fun k e => f.Travels e k) f.Leaps fun σ => ∀ hook ∈ σ.env.hooks, hook.Fit :=
      { steps := f.steps_travels
        mono := fun hstep hfit => hstep.env.hooks ▸ hfit
        fit := fun hfit => hfit
        known := fun n hn => hknown _ (hmem n hn)
        sorts := fun hsorts n hn => hsorts _ (hmem n hn)
        call := fun _ hn hj hkind => absurd hkind (hcalls _ (hmem _ hn) _ hj) }
    obtain ⟨ν', hb, hl, hshows⟩ := hforesight.shows_run hfit hpost hcons hσ pre σ' h
    refine ⟨ν', hb, hl, fun e hg hs => ?_⟩
    exact .of_foretells (hshows e hg hs) (fun s o ho => (Sub.runs_iff hf hcons).mpr ho.runs)
      (.inr ⟨f, n, rest, hf, hcons, (hshows e hg hs).runs⟩)

/-- Without conditions on accesses, a run ends well if it leaves where the condition on exit is
true, or is cut and cuts count as true. -/
theorem Sub.endsWell_iff (he : e.hooks = []) {b : Bool} : sub.EndsWell e post b s ↔
      (∃ s', sub.Runs e s (.exit s') ∧ post.Holds b s') ∨ (sub.Runs e s .cut ∧ b = true) := by
  constructor
  · rintro ⟨o, hruns, ho⟩
    rcases hruns.exit_or_cut he with ⟨s', rfl⟩ | rfl
    · exact .inl ⟨s', hruns, ho⟩
    · exact .inr ⟨hruns, ho⟩
  · rintro (⟨s', hruns, hs'⟩ | ⟨hruns, hb⟩)
    · exact ⟨_, hruns, hs'⟩
    · exact ⟨_, hruns, hb⟩

/-! ## §3 Straight lines -/

namespace Sub

variable {ds : List Def}

def straight (ds : List Def) : Sub where
  name := .str "f"
  blks := [{ tid := .str "only", defs := ds }]

theorem flow_straight (ds : List Def) : (straight ds).flow =
    .ok ⟨.str "f", [⟨.text "only", { tid := .str "only", defs := ds }, []⟩], []⟩ :=
  rfl

theorem callFree_straight : (straight ds).CallFree := by
  simp [CallFree, straight, Blk.CallFree]

theorem isKnown_straight (h : ∀ d ∈ ds, d.rhs.isKnown = true) : (straight ds).IsKnown := by
  simpa [IsKnown, straight, Blk.IsKnown] using h

theorem loopFree_straight : (straight ds).LoopFree := by
  intro f hf
  cases hf
  rfl

/-- A run of definitions takes the first one first. -/
theorem runs_straight {s' : State} (h : ds.foldlM (Def.run e) s = .ok s') :
    (straight ds).Runs e s (.exit s') := by
  refine (runs_iff (flow_straight ds) rfl).mpr (.leave rfl rfl (j := none) ?_ rfl)
  rw [Blk.run, h]
  rfl

end Sub

/-! ## §4 A counter -/

def counter : Var :=
  { name := .str "n", width := .int 8 }

/-- Takes one from the counter. -/
def drainBlk (tid : String) (jmps : List Jmp) : Blk where
  tid := .str tid
  defs := [{ tid := .str "step", lhs := counter,
             rhs := .binop .minus (.var counter) (.int 1 (.int 8)) }]
  jmps := jmps

/-- Leaves when the counter is zero. -/
def drained : Jmp where
  tid := .str "done"
  kind := .ret
  cond := .binop .eq (.var counter) (.int 0 (.int 8))

/-- Takes one from the counter, and one more unless none is left. -/
def drain : Sub where
  name := .str "drain"
  blks := [drainBlk "one" [drained], drainBlk "more" []]

/-- The name of the counter's constant, plain or freshened. -/
def counterName (fresh : Bool) : String :=
  if fresh then "n_mod" else "n"

def counterTerm (fresh : Bool) : Term :=
  .const (.text (counterName fresh)) (.bits 8)

def counterEnv (fresh : Bool) : Environment where
  arch := { name := "small", addressWidth := 8 }
  freshened := fresh
  vars := [(.text "n", counterTerm fresh)]
  introduced := [.text (counterName fresh)]

/-- The condition before the counter goes down by one. -/
def oneLess (i : Nat) (n : Term) (post : Constraint) : Constraint :=
  .subst i post [(n, .app (.arith .sub) [n, .num 8 1])]

/-- The condition before the two blocks. -/
def drainPre (i : Nat) (n : Term) (post : Constraint) : Constraint :=
  oneLess (i + 2) n (.ite (i + 1) (.str "done")
    (.app .eq [.num 1 1, .app .ite [.app .eq [.num 8 0, n], .num 1 1, .num 1 0]]) post
    (oneLess i n post))

theorem sound_counterEnv (fresh : Bool) : (counterEnv fresh).Sound := by
  intro t ht
  obtain rfl : t = counterTerm fresh := by simpa [Environment.constants, counterEnv] using ht
  exact ⟨.text (counterName fresh), .bits 8, rfl, by simp, by cases fresh <;> decide⟩

theorem callFree_drain : drain.CallFree := by
  simp [Sub.CallFree, drain, Blk.CallFree, drainBlk, drained]

theorem isKnown_drain : drain.IsKnown := by
  simp [Sub.IsKnown, drain, Blk.IsKnown, drainBlk, drained, Expr.isKnown]

theorem wellSorted_drain (fresh : Bool) : drain.WellSorted (counterEnv fresh) := by
  have hstep : ∀ tid jmps, (drainBlk tid jmps).WellSorted (counterEnv fresh) := by
    simp only [Blk.WellSorted, drainBlk, List.forall_mem_singleton]
    intro _ _ s
    cases fresh <;> rfl
  simp [Sub.WellSorted, drain, hstep]

theorem ends_drain (fresh : Bool) (supply : Supply) (post : Constraint) :
    (precondition post drain).Ends ⟨supply, counterEnv fresh⟩
      (drainPre supply.nodes (counterTerm fresh) post)
      ⟨{ supply with nodes := supply.nodes + 3 }, counterEnv fresh⟩ := by
  cases fresh <;> exact rfl

def counterIsZero : Constraint :=
  .goal 0 "zero" (.app .eq [counterTerm false, .num 8 0])

theorem stands_counterIsZero (h : 0 < σ.supply.nodes) (b : Bool) :
    counterIsZero.Stands σ b (counterIsZero.flatten b) :=
  Constraint.stands_goal b h

/-! ## §5 Exactness -/

/-- **The weakest precondition is exact**: from every state the run of the subroutine leaves or is
cut, and the formula of the precondition is true exactly if it leaves in a state where the formula
of the postcondition is true, or is cut and cuts count as true. -/
theorem precondition_exact {σ σ' : Session} {post pre : Constraint} {sub : Sub} {b : Bool}
    {ψ : Term} (hσ : σ.env.Sound) (hhooks : σ.env.hooks = []) (hpost : post.Coherent)
    (hids : ∀ d ∈ post.subtrees, d.id < σ.supply.nodes) (hψ : post.flatten? b = .ok ψ)
    (hcalls : sub.CallFree) (hknown : sub.IsKnown) (hrun : (precondition post sub).Ends σ pre σ')
    (hsorts : sub.WellSorted σ'.env) :
    ∃ φ, pre.flatten? b = .ok φ ∧ ∀ s,
      ((∃ s', sub.Runs σ'.env s (.exit s')) ∨ sub.Runs σ'.env s .cut) ∧
      (φ.holds s = true ↔
        (∃ s', sub.Runs σ'.env s (.exit s') ∧ ψ.holds s' = true) ∨
          (sub.Runs σ'.env s .cut ∧ b = true)) := by
  obtain ⟨ν, hν⟩ := hpost.listed hids
  obtain ⟨hkeeps, rfl⟩ := hν.flatten?_eq_ok.mp hψ
  obtain ⟨ν', hb, hl, hexact⟩ :=
    Build.ends_precondition hrun hσ (by simp [hhooks]) hcalls hknown hν
  have hmeets := hexact σ'.env (.refl _) (hb.step.sound hσ)
  have hall := hmeets.sorts hkeeps hsorts
  have hhooks' : σ'.env.hooks = [] := hb.step.env.hooks.trans hhooks
  refine ⟨pre.flatten b, hl.flatten?_eq_ok.mpr ⟨hall, rfl⟩, fun s => ⟨?_, ?_⟩⟩
  · obtain ⟨o, hruns⟩ := hmeets.settled.runs s
    rcases hruns.exit_or_cut hhooks' with ⟨s', rfl⟩ | rfl
    · exact .inl ⟨s', hruns⟩
    · exact .inr hruns
  · simp only [hl.holds_flatten, hν.holds_flatten]
    rw [hmeets.means hall b s, Sub.endsWell_iff hhooks']

/-- The precondition of the two blocks is exact. -/
theorem precondition_exact_drain : ∃ φ,
    (drainPre 1 (counterTerm false) counterIsZero).flatten? true = .ok φ ∧ ∀ s,
      ((∃ s', drain.Runs (counterEnv false) s (.exit s')) ∨
        drain.Runs (counterEnv false) s .cut) ∧
      (φ.holds s = true ↔
        (∃ s', drain.Runs (counterEnv false) s (.exit s') ∧
          (counterIsZero.flatten true).holds s' = true) ∨
        (drain.Runs (counterEnv false) s .cut ∧ true = true)) := by
  have hcoherent : counterIsZero.Coherent := by
    simp [Constraint.Coherent, counterIsZero, Constraint.subtrees]
  have hids : ∀ d ∈ counterIsZero.subtrees, d.id < 1 := by
    simp [counterIsZero, Constraint.subtrees, Constraint.id]
  obtain ⟨ν, hν⟩ := hcoherent.listed hids
  have hflatten : counterIsZero.flatten? true = .ok (counterIsZero.flatten true) :=
    hν.flatten?_eq_ok.mpr ⟨Constraint.sorted_goal, rfl⟩
  exact precondition_exact (b := true) (sound_counterEnv false) rfl hcoherent hids hflatten
    callFree_drain isKnown_drain (ends_drain false { nodes := 1 } counterIsZero)
    (wellSorted_drain false)

end Antecedent
