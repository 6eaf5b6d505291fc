import Antecedent.Proofs.Calling
import Antecedent.Proofs.Exactness

/-!
# Inlining is execution

Where every call goes to a subroutine that is inlined, and no subroutine calls itself, the condition
that a walk builds says how the run with calls ends.

* `Environment.InlinesAll` says which subroutines are meant, and `Session.Inlines` that there is
  room for the activations that their walk opens.
* `Foretells.call` is the rule for calls.
* `precondition_exact_inlined` is the result.
-/

namespace Antecedent

open Relation (ReflTransGen TransGen)

variable {f : Flow} {e : Environment} {sub : Sub} {j : Jmp} {t : Target} {after : Constraint}
  {blk : Blk} {counts : Counts}

/-! ## §1 Call graphs -/

/-- Whether calls of a name have a meaning of their own. -/
def Summary.isIntrinsic (name : String) : Bool :=
  errorNames.contains name || name == assumeName || name.startsWith nondetMark ||
    name == instrumentationName

namespace Environment

/-- A call is inlined: it goes to a subroutine with blocks, under a name that is listed and has no
meaning of its own. -/
structure Inlines (e : Environment) (names : List Label) (j : Jmp) (name : String) (callee : Sub) :
    Prop where
  calls : e.Calls j name callee
  listed : Label.isAmong name names = true
  plain : Summary.isIntrinsic name = false
  body : callee.blks ≠ []

/-- All calls that a subroutine leads to are inlined, none of them is recursive, and no expression
has unknown parts. -/
structure InlinesAll (e : Environment) (names : List Label) (sub : Sub) : Prop where
  calls : ∀ sub', e.Reaches sub sub' → ∀ b ∈ sub'.blks, ∀ j ∈ b.jmps, j.kind = .call →
    ∃ name callee, e.Inlines names j name callee
  acyclic : ∀ sub', e.Reaches sub sub' → ¬TransGen e.Invokes sub' sub'
  known : ∀ sub', e.Reaches sub sub' → sub'.IsKnown

/-- All definitions that a subroutine leads to give their variables values of their sorts. -/
def SortsAll (e : Environment) (sub : Sub) : Prop :=
  ∀ sub', e.Reaches sub sub' → sub'.WellSorted e

variable {e' : Environment} {names : List Label} {callee : Sub} {name : String}

theorem InlinesAll.grows (h : e.InlinesAll names sub) (hg : e.Grows e') :
    e'.InlinesAll names sub := by
  have hreaches : e'.Reaches = e.Reaches := by rw [Reaches, Reaches, hg.invokes_eq]
  refine ⟨fun sub' hsub' b hb j hj hkind => ?_, ?_, hreaches ▸ h.known⟩
  · obtain ⟨name, callee, hinl⟩ := h.calls sub' (hreaches ▸ hsub') b hb j hj hkind
    exact ⟨name, callee, hg.calls_eq ▸ hinl.calls, hinl.listed, hinl.plain, hinl.body⟩
  · rw [hg.invokes_eq, hreaches]
    exact h.acyclic

theorem InlinesAll.of_invokes (h : e.InlinesAll names sub) (hcall : e.Invokes sub callee) :
    e.InlinesAll names callee :=
  ⟨fun sub' hsub' => h.calls sub' (.head hcall hsub'),
    fun sub' hsub' => h.acyclic sub' (.head hcall hsub'),
    fun sub' hsub' => h.known sub' (.head hcall hsub')⟩

theorem SortsAll.of_invokes (h : e.SortsAll sub) (hcall : e.Invokes sub callee) :
    e.SortsAll callee :=
  fun sub' hsub' => h sub' (.head hcall hsub')

theorem found_of_transGen (h : TransGen e.Invokes sub callee) (hname : callee.name = .str name) :
    e.findSub? name = some callee := by
  obtain ⟨_, -, _, _, _, _, name', hcall⟩ := TransGen.tail'_iff.mp h
  obtain rfl : name' = name := Json.str.inj (hcall.name_eq.symm.trans hname)
  exact hcall.found

/-- Summaries that do not cover a callee are passed over. -/
theorem firstCovering_append {skipped rest : List Summary}
    (h : ∀ s ∈ skipped, s.covers e callee = .ok false) :
    e.firstCovering callee (skipped ++ rest) = e.firstCovering callee rest := by
  induction skipped with
  | nil => rfl
  | cons s skipped ih =>
    obtain ⟨hs, hrest⟩ := List.forall_mem_cons.mp h
    rw [List.cons_append, firstCovering, hs]
    exact ih hrest

end Environment

/-! ## §2 Sessions -/

/-- A session in which all calls that a subroutine leads to will be inlined: they may be, and there
is room for one more activation of every callee. -/
structure Session.Inlines (σ : Session) (names : List Label) (trip : Bool) (sub : Sub) : Prop where
  hooks : σ.env.hooks = []
  flagged : σ.env.Flagged
  summaries : σ.env.summaries = Summary.standard names trip
  all : σ.env.InlinesAll names sub
  room : ∀ callee name, TransGen σ.env.Invokes sub callee → callee.name = .str name →
    boundAbove σ.env.unroll (σ.env.depth name) = .ok true

namespace Session.Inlines

variable {σ σ' : Session} {names : List Label} {trip : Bool} {callee : Sub} {name : String}

theorem step (h : σ.Inlines names trip sub) (hstep : σ.Step σ') : σ'.Inlines names trip sub where
  hooks := hstep.env.hooks.trans h.hooks
  flagged := hstep.flagged h.flagged
  summaries := hstep.summaries.trans h.summaries
  all := h.all.grows hstep.env
  room callee name hcallee hname := by
    rw [hstep.env.invokes_eq] at hcallee
    rw [hstep.env.unroll, hstep.depth]
    exact h.room callee name hcallee hname

/-- **Activations**: the walk of a callee has all the room that it needs, since it does not meet the
callee again. -/
theorem opened (h : σ.Inlines names trip sub) (hcall : σ.env.Calls j name callee)
    (hinvokes : σ.env.Invokes sub callee) (n : Nat) :
    Session.Inlines { σ with env := σ.env.setDepth name n } names trip callee := by
  have hgrows := σ.env.grows_setDepth name n
  refine ⟨h.hooks, h.flagged, h.summaries, (h.all.of_invokes hinvokes).grows hgrows,
    fun below name' hbelow hname => ?_⟩
  rw [hgrows.invokes_eq] at hbelow
  -- under the name of the callee it would be found again, and so call itself
  have hne : (name : Label) ≠ .text name' := by
    intro heq
    obtain rfl : name = name' := Label.text.inj heq
    obtain rfl : callee = below := Option.some.inj
      (hcall.found.symm.trans (Environment.found_of_transGen hbelow hname))
    exact h.all.acyclic callee (.single hinvokes) hbelow
  change boundAbove σ.env.unroll ((σ.env.setDepth name n).depth name') = .ok true
  rw [Environment.depth_setDepth, if_neg hne]
  exact h.room below name' (.head hinvokes hbelow) hname

theorem resolve (h : σ.Inlines names trip sub) (hinl : σ.env.Inlines names j name callee)
    (hinvokes : σ.env.Invokes sub callee) : σ.env.resolve callee = .ok (.inline names) := by
  have hname := hinl.calls.name_eq
  have hroom := h.room callee name (.single hinvokes) hname
  obtain ⟨⟨⟨herror, hassume⟩, hnondet⟩, hlog⟩ : ((name ∉ Summary.errorNames ∧
      name ≠ Summary.assumeName) ∧ name.startsWith Summary.nondetMark = false) ∧
      name ≠ Summary.instrumentationName := by
    simpa [Summary.isIntrinsic] using hinl.plain
  -- the summaries before it do not cover the callee
  have hskipped : ∀ s ∈ (if trip then [Summary.error] else []) ++
      [.assume, .nondet, .instrumentation], s.covers σ.env callee = .ok false := by
    cases trip <;>
      simp [Summary.covers, hname, Json.str?, herror, hassume, hnondet, hlog]
  have hinline : (Summary.inline names).covers σ.env callee = .ok true := by
    simp [Summary.covers, hname, Json.label, Json.label?, hinl.listed, hinl.body, hroom, bind,
      Except.bind]
  have hstandard : Summary.standard names trip = ((if trip then [.error] else []) ++
      [.assume, .nondet, .instrumentation]) ++
        .inline names :: [.empty, .arguments, .clobber, .result] := by
    rw [List.append_assoc]
    rfl
  rw [Environment.resolve, h.summaries, hstandard, Environment.firstCovering_append hskipped,
    Environment.firstCovering, hinline]
  rfl

end Session.Inlines

/-! ## §3 Calls -/

/-- **Through a call**: if the condition where the call comes back foretells how the run goes on,
and a condition foretells the callee with that one on exit, the callee being marked, then it
foretells the run through the call. -/
theorem Foretells.call {callee : Sub} {name : String} {i : Nat} {post c : Constraint}
    (hs : e.Sound) (he : e.hooks = []) (hcall : e.Calls j name callee)
    (hinvokes : e.Invokes sub callee) (hreturn : j.returns? = some t)
    (hafter : Foretells (·.SortsAll sub) post (fun e => f.Executes e (.target counts t)) e after)
    (hbody : Foretells (·.SortsAll callee)
      (.subst i after [(.const (e.flagSymbol name) .bool, .lit true)])
      (fun e => callee.Executes e) e c) :
    Foretells (·.SortsAll sub) post (fun e => f.Executes e (.jump counts j)) e c := by
  have hmarked : ∀ s,
      (Constraint.subst i after [(.const (e.flagSymbol name) .bool, .lit true)]).Leads s after
        (s.mark (e.flagSymbol name)) := by
    refine fun s => ⟨Constraint.mem_subtrees_of_child (Constraint.mem_subtrees_self _)
      (by simp [Constraint.children]), fun _ b => ?_⟩
    rw [Constraint.holds_subst (.inl (e.flagSymbol_ne_cut name)) (.lit true) (by simp [Value.Fits]),
      Term.eval_lit, State.mark]
  refine ⟨fun s => ?_, fun s o ho => ?_, fun hpost hall => hbody.sorted
    (Constraint.sorted_subst.mpr ⟨by simp [Replacement.keepsSorts, Term.sort],
      hafter.sorted hpost hall⟩) (hall.of_invokes hinvokes)⟩
  · obtain ⟨o', ho'⟩ := hbody.runs (s.mark (e.flagSymbol name))
    simp only [Flow.executes_call hcall hreturn]
    cases o' with
    | exit s' =>
      obtain ⟨o, ho⟩ := hafter.runs s'
      exact ⟨o, _, ho', ho⟩
    | cut | excused | failed => exact ⟨_, _, ho', rfl⟩
  · obtain ⟨o', ho', hresumes⟩ := (Flow.executes_call hcall hreturn).mp ho
    -- the callee does not see its mark, so it may be set on return or at the call
    obtain ⟨o1, ho1⟩ := hbody.runs s
    obtain rfl := ho'.unique (ho1.mark hs he _)
    have hpredicts := hbody.predicts s o1 ho1
    cases o1 with
    | exit s1 => exact (hpredicts.trans (hmarked s1)).predicts (hafter.predicts _ o hresumes)
    | cut | excused | failed =>
      obtain rfl : o = _ := hresumes
      exact hpredicts

namespace Walker

variable {names : List Label} {trip : Bool} {w : Walker} {σ : Session} {ν : Nat → Constraint}

/-- Whether walks of callees give conditions that foretell their runs. -/
def InlinesWell (w : Walker) (names : List Label) (trip : Bool) : Prop :=
  ∀ {σ ν c} callee, Session.Inlines σ names trip callee → σ.Lists ν c →
    (w.inline c callee).Makes σ ν (Shows (·.SortsAll callee) c fun e => callee.Executes e)

/-- What an inlined call makes: the callee is marked in the condition after the call, and its body
is walked with this condition in an activation of its own. -/
theorem call_cases {σ' : Session} {name : String} {callee : Sub} {c : Constraint}
    (hσ : σ.Inlines names trip sub)
    (hinl : σ.env.Inlines names j name callee) (hinvokes : σ.env.Invokes sub callee)
    (hafter : σ.Lists ν after) (hends : (w.call j after).Ends σ c σ') :
    ∃ i σ1 ν1 τ, Builds σ ν σ1 ν1 ∧
      σ1.Lists ν1 (.subst i after [(.const (σ.env.flagSymbol name) .bool, .lit true)]) ∧
      (w.inline (.subst i after [(.const (σ.env.flagSymbol name) .bool, .lit true)]) callee).Ends
        { σ1 with env := σ1.env.setDepth name (σ1.env.depth name + 1) } c τ ∧
      σ' = { τ with env := τ.env.setDepth name (τ.env.depth name - 1) } := by
  simp only [call, ends_bind, ends_lift, Build.ends_env] at hends
  obtain ⟨_, _, ⟨hname, rfl⟩, flag, σ1, hflag, marked, σ2, hmarked, _, _, ⟨rfl, rfl⟩, s, _,
    ⟨hresolve, rfl⟩, hends⟩ := hends
  obtain rfl := Except.ok.inj (hinl.calls.callee_eq.symm.trans hname)
  obtain ⟨hstep, -, rfl⟩ := Build.ends_callFlag hflag hσ.flagged
  have hb1 : Builds σ ν σ1 ν := .of_step hstep
  obtain ⟨i, ν2, rfl, hb2, hl2⟩ := Build.ends_substitution hmarked (hb1.lists hafter)
  have hb := hb1.trans hb2
  -- the callee is found, and its summary is its body
  have hinl2 : σ2.env.Inlines names j name callee :=
    ⟨hb.step.env.calls_eq ▸ hinl.calls, hinl.listed, hinl.plain, hinl.body⟩
  rw [hinl2.calls.found, Option.getD_some] at hresolve hends
  cases ((hσ.step hb.step).resolve hinl2 (hb.step.env.invokes_eq ▸ hinvokes)).symm.trans hresolve
  obtain ⟨l, τ, hl, hbody, rfl⟩ := Build.ends_inline.mp hends
  obtain rfl : l = .text name := by
    rw [hinl.calls.name_eq] at hl
    exact (Except.ok.inj hl).symm
  exact ⟨i, σ2, ν2, τ, hb, hl2, hbody, rfl⟩

/-- **Calls**: the condition of an inlined callee foretells the run through the call, if the
condition after the call foretells how the run goes on. -/
theorem shows_call (hinline : w.InlinesWell names trip) (hσ : σ.Inlines names trip sub)
    (hblk : blk ∈ sub.blks) (hj : j ∈ blk.jmps) (hkind : j.kind = .call)
    (hreturn : j.returns? = some t)
    (hafter : Shows (·.SortsAll sub) w.post (fun e => w.flow.Executes e (.target counts t)) σ ν
      after) :
    (w.call j after).Makes σ ν
      (Shows (·.SortsAll sub) w.post fun e => w.flow.Executes e (.jump counts j)) := by
  obtain ⟨name, callee, hinl⟩ := hσ.all.calls sub .refl blk hblk j hj hkind
  have hinvokes : σ.env.Invokes sub callee := ⟨blk, hblk, j, hj, name, hinl.calls⟩
  intro hsound c σ' hends
  obtain ⟨i, σ1, ν1, τ, hb1, hl1, hbody, rfl⟩ := call_cases hσ hinl hinvokes hafter.1 hends
  have hopened := (hσ.step hb1.step).opened (hb1.step.env.calls_eq ▸ hinl.calls)
    (hb1.step.env.invokes_eq ▸ hinvokes) (σ1.env.depth name + 1)
  obtain ⟨ν2, hb2, hl2, hforetells⟩ :=
    hinline callee hopened hl1 (hb1.step.sound hsound) c τ hbody
  have hb : Builds σ ν { τ with env := τ.env.setDepth name (τ.env.depth name - 1) } ν2 :=
    hb1.trans ⟨hb2.step.activation, hb2.table⟩
  refine ⟨ν2, hb, hl2, fun e hg hs => ?_⟩
  have hgrows : σ.env.Grows e := hb.step.env.trans hg
  have hbody := hforetells e ((τ.env.grows_setDepth _ _).trans hg) hs
  rw [← hgrows.flagSymbol_eq] at hbody
  exact .call hs (hgrows.hooks.trans hσ.hooks) (hgrows.calls_eq ▸ hinl.calls)
    (hgrows.invokes_eq ▸ hinvokes) hreturn (hafter.2 e hgrows hs) hbody

end Walker

/-! ## §4 Walks -/

namespace Flow

variable {s : State} {o : Ending}

theorem onward_iff : f.Onward (fun k e => f.Executes e (.block k)) counts t e s o ↔
    f.Executes e (.target counts t) s o := by
  cases t with
  | outside => exact executes_outside.symm
  | block l => exact executes_go.symm

/-- Runs with calls are what walks foretell. -/
theorem steps_executes (f : Flow) : f.Steps (fun k e => f.Executes e (.block k))
    (fun counts j e => f.Executes e (.jump counts j)) where
  goes hgoal := (executes_goes hgoal).trans onward_iff.symm
  cut hcut := by
    constructor
    · exact fun h => h.unique (.cut hcut)
    · rintro rfl
      exact .cut hcut
  block {k n t e s o} hcut hnode _ hafter := by
    rw [executes_block hcut hnode]
    cases hrun : n.block.run e s with
    | error o' => simp [Proceeds, eq_comm]
    | ok r =>
      obtain ⟨s', chosen⟩ := r
      cases chosen with
      | some j => simp [Proceeds, Past]
      | none =>
        -- control runs past the last jump to the target that the graph has for it
        simp [Proceeds, Past, hafter hrun, onward_iff]

end Flow

/-- A subroutine without blocks is left at once. -/
theorem Sub.executes_of_isEmpty {s : State} {o : Ending} (h : sub.blks.isEmpty = true) :
    sub.Executes e s o ↔ o = .exit s := by
  have hflow : sub.flow = .ok ⟨sub.name, [], []⟩ := by
    rw [flow, graph, labels, List.isEmpty_iff.mp h]
    rfl
  constructor
  · rintro ⟨f, hf, hruns⟩
    cases hflow.symm.trans hf
    exact hruns.unique (.empty rfl)
  · rintro rfl
    exact ⟨_, hflow, .empty rfl⟩

theorem Sub.executes_iff {s : State} {o : Ending} (hf : sub.flow = .ok f) :
    sub.Executes e s o ↔ f.Executes e .entry s o := by
  constructor
  · rintro ⟨f', hf', hruns⟩
    cases hf.symm.trans hf'
    exact hruns
  · exact fun hruns => ⟨f, hf, hruns⟩

/-- **Nested callees**: the condition of a subroutine foretells its runs, however deep its callees
are nested. -/
theorem preconditionWithin_foretells {names : List Label} {trip : Bool} (bound : Nat)
    {σ : Session} {ν : Nat → Constraint} {post : Constraint} (sub : Sub)
    (hσ : σ.Inlines names trip sub) (hpost : σ.Lists ν post) :
    (preconditionWithin bound post sub).Makes σ ν
      (Shows (·.SortsAll sub) post fun e => sub.Executes e) := by
  -- a callee is walked with the condition after its call on exit, and with a smaller bound
  induction bound generalizing σ ν post sub with
  | zero => exact Build.makes_throw
  | succ bound ih =>
    unfold preconditionWithin
    split
    · next hempty =>
      exact Build.makes_pure (.congr (fun _ _ _ _ _ => Sub.executes_of_isEmpty hempty)
        (.exit hpost))
    · next hempty =>
      refine Build.makes_lift_bind fun f hf => ?_
      obtain ⟨n, rest, hgraph⟩ : ∃ n rest, f.graph = n :: rest := by
        refine List.exists_cons_of_ne_nil fun hnil => hempty ?_
        simp [← Sub.map_block_flow hf, hnil]
      have hmem := Sub.block_mem_of_flow hf
      have hforesight : (Walker.mk f post (preconditionWithin bound)).Foresight (·.SortsAll sub)
          (fun k e => f.Executes e (.block k)) (fun counts j e => f.Executes e (.jump counts j))
          fun σ => σ.Inlines names trip sub :=
        { steps := f.steps_executes
          mono := fun hstep hσ => hσ.step hstep
          fit := fun hσ => by simp [hσ.hooks]
          known := fun n hn => hσ.all.known sub .refl _ (hmem n hn)
          sorts := fun hall n hn => hall sub .refl _ (hmem n hn)
          call := fun hσ hn hj hkind hreturn hafter =>
            Walker.shows_call (fun callee hσ hc => ih callee hσ hc) hσ (hmem _ hn) hj hkind hreturn
              (hafter.congr fun _ _ _ _ _ => Flow.onward_iff.symm) }
      refine (hforesight.shows_run hσ hpost hgraph).mono fun σ' ν' c _ => Shows.congr ?_
      exact fun _ _ _ _ _ => (Sub.executes_iff hf).trans (Flow.executes_entry hgraph)

/-! ## §5 A call of the counter -/

/-- Takes one from the counter by a call, unless the counter is zero. -/
def countdownBlk : Blk where
  tid := .str "only"
  jmps := [{ tid := .str "again", kind := .call, target := .str "drain",
             cond := .binop .neq (.var counter) (.int 0 (.int 8)) }]

def countdown : Sub where
  name := .str "countdown"
  blks := [countdownBlk]

/-- The counter, with a callee that is inlined. -/
def countdownEnv : Environment :=
  { counterEnv false with
    subs := [countdown, drain]
    summaries := Summary.standard [.text "drain"] true }

/-- The environment after the call. -/
def countdownCalled (depths : List (Label × Nat)) : Environment :=
  { countdownEnv with
    introduced := [.text "called_drain", .text "n"]
    calls := [("drain", .const (.ofText "called_drain") .bool)]
    depths := depths }

def countdownMarked (post : Constraint) : Constraint :=
  .subst 1 post [(.const (.ofText "called_drain") .bool, .lit true)]

/-- The condition before the call. -/
def countdownPre (post : Constraint) : Constraint :=
  .ite 5 (.str "again")
    (.app .eq [.num 1 1,
      .app .ite [.app .distinct [.num 8 0, counterTerm false], .num 1 1, .num 1 0]])
    (drainPre 2 (counterTerm false) (countdownMarked post)) post

theorem invokes_countdown (h : countdownEnv.Invokes countdown sub) : sub = drain := by
  obtain ⟨b, hb, j, hj, name, hcall⟩ := h
  obtain rfl := List.mem_singleton.mp hb
  obtain rfl := List.mem_singleton.mp hj
  obtain rfl : "drain" = name := Json.str.inj hcall.target
  exact (Option.some.inj hcall.found).symm

theorem not_invokes_drain : ¬countdownEnv.Invokes drain sub := by
  rintro ⟨b, hb, j, hj, name, hcall⟩
  exact callFree_drain b hb j hj hcall.kind

theorem reaches_countdown (h : countdownEnv.Reaches countdown sub) :
    sub = countdown ∨ sub = drain := by
  induction h with
  | refl => exact .inl rfl
  | tail _ hcall ih =>
    rcases ih with rfl | rfl
    · exact .inr (invokes_countdown hcall)
    · exact (not_invokes_drain hcall).elim

theorem inlines_countdown :
    countdownEnv.Inlines [.text "drain"]
      { tid := .str "again", kind := .call, target := .str "drain",
        cond := .binop .neq (.var counter) (.int 0 (.int 8)) } "drain" drain where
  calls := ⟨rfl, rfl, by decide, rfl⟩
  listed := by decide
  plain := rfl
  body := by simp [drain]

theorem inlinesAll_countdown : countdownEnv.InlinesAll [.text "drain"] countdown := by
  refine ⟨fun sub hsub b hb j hj hkind => ?_, fun sub hsub hcycle => ?_, fun sub hsub => ?_⟩
  · rcases reaches_countdown hsub with rfl | rfl
    · obtain rfl := List.mem_singleton.mp hb
      obtain rfl := List.mem_singleton.mp hj
      exact ⟨_, _, inlines_countdown⟩
    · exact absurd hkind (callFree_drain b hb j hj)
  · -- the callee calls nothing, so no cycle leads through it
    have hnone : ∀ {sub}, ¬TransGen countdownEnv.Invokes drain sub := fun h => by
      obtain ⟨_, hcall, -⟩ := TransGen.head'_iff.mp h
      exact not_invokes_drain hcall
    rcases reaches_countdown hsub with rfl | rfl
    · obtain ⟨_, hcall, hrest⟩ := TransGen.head'_iff.mp hcycle
      obtain rfl := invokes_countdown hcall
      rcases Relation.reflTransGen_iff_eq_or_transGen.mp hrest with heq | hrest
      · exact absurd (congrArg Sub.name heq) (by simp [countdown, drain])
      · exact hnone hrest
    · exact hnone hcycle
  · rcases reaches_countdown hsub with rfl | rfl
    · simp [Sub.IsKnown, countdown, Blk.IsKnown, countdownBlk, Expr.isKnown]
    · exact isKnown_drain

set_option maxRecDepth 1000 in
theorem ends_countdown :
    (precondition counterIsZero countdown).Ends ⟨{ nodes := 1 }, countdownEnv⟩
      (countdownPre counterIsZero) ⟨{ nodes := 6 }, countdownCalled [(.text "drain", 0)]⟩ :=
  rfl

theorem sortsAll_countdown (depths : List (Label × Nat)) :
    (countdownCalled depths).SortsAll countdown := by
  have hgrows : countdownEnv.Grows (countdownCalled depths) :=
    ⟨rfl, rfl, rfl, rfl, rfl, rfl, rfl, rfl, List.prefix_rfl, List.prefix_rfl, List.suffix_cons ..⟩
  intro sub hsub
  rw [Environment.Reaches, hgrows.invokes_eq] at hsub
  rcases reaches_countdown hsub with rfl | rfl
  · simp [Sub.WellSorted, countdown, Blk.WellSorted, countdownBlk]
  · exact wellSorted_drain false

/-! ## §6 Exactness -/

/-- **Inlining is execution**: if all calls that a subroutine leads to are inlined, and every callee
may be opened once more, there is one run from every state, callees included, and the formula of the
precondition is true exactly if this run leaves in a state where the formula of the postcondition is
true, or is cut, in the subroutine or in a callee, and cuts count as true. -/
theorem precondition_exact_inlined {σ σ' : Session} {names : List Label} {trip : Bool} {sub : Sub}
    {post pre : Constraint} {b : Bool} {ψ : Term} (hσ : σ.env.Sound) (hflagged : σ.env.Flagged)
    (hhooks : σ.env.hooks = []) (hsummaries : σ.env.summaries = Summary.standard names trip)
    (hroom : ∀ name : String, boundAbove σ.env.unroll (σ.env.depth name) = .ok true)
    (hcalls : σ.env.InlinesAll names sub) (hpost : post.Stands σ b ψ)
    (hrun : (precondition post sub).Ends σ pre σ') (hsorts : σ'.env.SortsAll sub) :
    ∃ φ, pre.flatten? b = .ok φ ∧ ∀ s, (∃! o, sub.Executes σ'.env s o) ∧
      (φ.holds s = true ↔
        (∃ s', sub.Executes σ'.env s (.exit s') ∧ ψ.holds s' = true) ∨
          (sub.Executes σ'.env s .cut ∧ b = true)) := by
  obtain ⟨ν, hν⟩ := hpost.exists_lists
  have hinlines : σ.Inlines names trip sub :=
    ⟨hhooks, hflagged, hsummaries, hcalls, fun _ name _ _ => hroom name⟩
  obtain ⟨ν', hb, hl, hshows⟩ := Build.makes_env_bind
    (preconditionWithin_foretells _ sub hinlines hν) hσ pre σ' hrun
  obtain ⟨hruns, hpredicts, hsorted⟩ := hshows σ'.env (.refl _) (hb.step.sound hσ)
  have hall := hsorted hpost.sorted hsorts
  refine ⟨pre.flatten b, hl.flatten?_eq_ok.mpr ⟨hall, rfl⟩, fun s => ?_⟩
  obtain ⟨o, ho⟩ := hruns s
  refine ⟨⟨o, ho, fun o' ho' => ho'.unique ho⟩, ?_⟩
  simp only [hl.holds_flatten, hpost.holds_iff]
  rw [(hpredicts s o ho).holds_iff hall b, ho.accepts_iff (hb.step.env.hooks.trans hhooks)]

/-- The precondition of the countdown is exact, through the call. -/
theorem precondition_exact_inlined_countdown : ∃ φ,
    (countdownPre counterIsZero).flatten? true = .ok φ ∧ ∀ s,
      (∃! o, countdown.Executes (countdownCalled [(.text "drain", 0)]) s o) ∧
      (φ.holds s = true ↔
        (∃ s', countdown.Executes (countdownCalled [(.text "drain", 0)]) s (.exit s') ∧
          (counterIsZero.flatten true).holds s' = true) ∨
        (countdown.Executes (countdownCalled [(.text "drain", 0)]) s .cut ∧ true = true)) := by
  have hsummaries : countdownEnv.summaries = Summary.standard [.text "drain"] true := rfl
  exact precondition_exact_inlined (sound_counterEnv false) (Environment.flagged_of_nil rfl) rfl
    hsummaries (fun _ => rfl) inlinesAll_countdown (stands_counterIsZero (by decide) true)
    ends_countdown (sortsAll_countdown _)

end Antecedent
