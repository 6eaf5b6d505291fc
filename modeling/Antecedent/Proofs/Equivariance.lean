import Antecedent.Proofs.Freshening
import Antecedent.Proofs.Healthiness
import Antecedent.Proofs.Inlining
import Antecedent.Proofs.Marking

/-!
# Freshening is a renaming

The walk of a subroutine in a freshened environment builds a copy of what the walk in the plain
environment builds, over the marked constants.

* `Environment.Expands` says that all calls of a subroutine are inlined.
* `follows_precondition` is about walks, and `precondition_freshen` about formulas.
-/

namespace Antecedent

open Constraint (Copied)

variable {e e' : Environment} {sub : Sub}

/-! ## §1 Calls, jumps and cuts -/

/-- Every call of a subroutine is resolved to the body of its callee, and so are the calls of the
callee in turn.  All these bodies have a property. -/
inductive Environment.Expands (P : Sub → Prop) : Environment → Sub → Prop where
  | intro {e : Environment} {sub : Sub} (hsub : P sub)
      (hcalls : ∀ b ∈ sub.blks, ∀ j ∈ b.jmps, j.kind = .call → ∃ name names,
        j.callee = .ok name ∧ e.resolve (e.subNamed name) = .ok (.inline names))
      (hbodies : ∀ b ∈ sub.blks, ∀ j ∈ b.jmps, j.kind = .call → ∀ name, j.callee = .ok name →
        Expands P (e.setDepth name (e.depth name + 1)) (e.subNamed name)) :
      Expands P e sub

def Session.opened (σ : Session) (name : String) : Session :=
  { σ with env := σ.env.setDepth name (σ.env.depth name + 1) }

variable {start : Environment × Environment} {p : Session × Session} {post post' c c' : Constraint}
  {w w' : Walker}

/-- **Inlined bodies** are walked on both sides, in an activation of their own. -/
theorem Build.follows_inline {walk : Constraint → Sub → Build Constraint} {callee : Sub}
    {name : String} {tid : Json} {names : List Label} (hname : callee.name = .str name)
    (h : Follows (.freshening start) (walk c callee) (walk c' callee)
      (p.1.opened name, p.2.opened name) (Copied post post')) :
    Follows (.freshening start) (summarize walk c callee tid (.inline names))
      (summarize walk c' callee tid (.inline names)) p (Copied post post') := by
  intro hlinked d υ' hends
  obtain ⟨l, τ', hl, hwalk', rfl⟩ := ends_inline.mp hends
  obtain rfl : .text name = l := Except.ok.inj (by rw [← hl, hname]; rfl)
  have hopened : (p.1.opened name).env.Freshens start (p.2.opened name).env := by
    rw [Session.opened, Session.opened, hlinked.resembles.depth]
    exact hlinked.setDepth _ _
  obtain ⟨a, τ, hwalk, hlater, hlinked', hcopied⟩ := h hopened d τ' hwalk'
  refine ⟨a, _, ends_inline.mpr ⟨_, τ, hl, hwalk, rfl⟩, ⟨hlater.1.activation, hlater.2.activation⟩,
    ?_, Constraint.Copies.mono hcopied (τ'.env.grows_setDepth _ _)⟩
  change (τ.env.setDepth _ _).Freshens start (τ'.env.setDepth _ _)
  rw [hlinked'.resembles.depth]
  exact hlinked'.setDepth _ _

namespace Walker

/-- **Calls** are inlined on both sides, after their flags are set. -/
theorem follows_call {j : Jmp} {name : String} {names : List Label} (hinline : w'.inline = w.inline)
    (hname : j.callee = .ok name) (hclear : '\x00' ∉ name.toList) (he : e.Resembles p.1.env)
    (hresolve : e.resolve (e.subNamed name) = .ok (.inline names))
    (h : ∀ {q c c'}, (e.setDepth name (e.depth name + 1)).Resembles q.1.env →
      Copied post post' q c c' → Build.Follows (.freshening start) (w.inline c (e.subNamed name))
        (w.inline c' (e.subNamed name)) q (Copied post post')) (hc : Copied post post' p c c') :
    Build.Follows (.freshening start) (w.call j c) (w'.call j c') p (Copied post post') := by
  unfold call
  rw [hinline]
  refine Build.follows_lift_bind fun name' hname' => ⟨name', hname', ?_⟩
  obtain rfl := Except.ok.inj (hname.symm.trans hname')
  refine (Build.follows_callFlag hclear).bind fun t t' q hlater hflag => ?_
  obtain ⟨flag, rfl, hcut, rfl⟩ := hflag
  have htrue : ((Term.lit true).rename Symbol.mark).Proper q.2.env.Owns := ⟨.lit true, .lit true⟩
  refine (Build.follows_substitution (.inl hcut) htrue (hc.mono hlater)).bind
    fun d d' r hlater' hd => Build.follows_env_bind fun hlinked => ?_
  -- the callee and its summary are those of the environment that is given
  have he' := he.trans (hlater.1.trans hlater'.1).resembles
  have hcallee : r.1.env.subNamed name = e.subNamed name := by rw [he'.subNamed_eq]
  have hcallee' : r.2.env.subNamed name = e.subNamed name := by
    rw [hlinked.resembles.subNamed_eq, hcallee]
  change Build.Follows _
    (liftM (r.1.env.resolve (r.1.env.subNamed name)) >>= fun s =>
      Build.summarize w.inline d (r.1.env.subNamed name) j.tid s)
    (liftM (r.2.env.resolve (r.2.env.subNamed name)) >>= fun s =>
      Build.summarize w.inline d' (r.2.env.subNamed name) j.tid s) r _
  rw [hlinked.resembles.resolve_eq, he'.resolve_eq, hresolve, hcallee, hcallee']
  refine Build.follows_lift_bind fun s hs => ⟨s, hs, ?_⟩
  obtain rfl := Except.ok.inj hs
  refine Build.follows_inline (e.subNamed_name name)
    (h ?_ (Constraint.Copies.mono hd (r.2.env.grows_setDepth _ _)))
  rw [Session.opened, he'.depth]
  exact he'.setDepth _ _

/-- **Jumps** are taken on both sides, or on none. -/
theorem follows_jump {j : Jmp} {counts : Counts} (hj : j.cond.isKnown = true)
    (hvars : ∀ v ∈ j.cond.vars, v.Agrees start) (hc : Copied post post' p c c')
    (h : ∀ {q}, (Link.freshening start).Later p q →
      Walking.Follows (.freshening start) (Copied post post') (w.destination j counts)
        (w'.destination j counts) q (Copied post post')) :
    Walking.Follows (.freshening start) (Copied post post') (w.jump counts j c)
      (w'.jump counts j c') p (Copied post post') := by
  refine (Walking.follows_lift Copied.mono (Build.follows_condition hj hvars)).bind
    fun (t, _) (t', _) q hlater ht => ?_
  simp only [Term.isFalse_iff, ht.eq_lit]
  split
  · exact Walking.follows_lift Copied.mono (Build.follows_guarded _ _ (hc.mono hlater))
  · refine (h hlater).bind fun d d' r hlater' hd => ?_
    have hbranch : Build.Follows (.freshening start) (Build.branch j.branchName t d c)
        (Build.branch j.branchName t' d' c') r (Copied post post') :=
      Build.follows_branch (ht.mono fun _ _ hown => (hlater'.2.env.vars.map _).subset hown) hd
        (hc.mono (Link.trans _ hlater hlater'))
    exact (Walking.follows_lift Copied.mono hbranch).bind fun _ _ _ _ h =>
      Walking.follows_lift Copied.mono (Build.follows_guarded _ _ h)

/-- A path is cut with the same name in whatever session, and this changes no constants. -/
theorem cut_ends (w : Walker) (l : Label) (σ : Session) :
    ∃ τ, (w.cut l).Ends σ (.goal σ.supply.nodes
        s!"loop at {l.inText} cut after {σ.env.unroll.inText} iterations" Term.loopCut) τ ∧
      σ.Step τ ∧ τ.env.vars = σ.env.vars ∧ τ.env.inits = σ.env.inits ∧
        τ.env.calls = σ.env.calls := by
  have hgoal : ∀ name (τ : Session), (Build.cut name).Ends τ
      (.goal τ.supply.nodes name Term.loopCut) τ.bump := fun name τ =>
    ends_bind.mpr ⟨_, _, Build.ends_nodeId.mpr ⟨rfl, rfl⟩, ends_pure.mpr ⟨rfl, rfl⟩⟩
  have hstep : ∀ (warnings : List String) (truncated : List Label), σ.Step
      (Session.bump ⟨{ σ.supply with warnings }, { σ.env with truncated }⟩) := fun _ _ =>
    ⟨⟨rfl, rfl, rfl, rfl, rfl, rfl, rfl, rfl, List.prefix_rfl, List.prefix_rfl, List.suffix_rfl⟩,
      fun hs => hs, fun hf => hf, rfl, fun _ => rfl, Nat.le_succ _, le_rfl⟩
  have henv : ∀ {f : Environment → Build Constraint} {c} {R : Session → Prop},
      (∃ τ, (f σ.env).Ends σ c τ ∧ R τ) → ∃ τ, (Build.env >>= f).Ends σ c τ ∧ R τ :=
    fun ⟨τ, h, hR⟩ => ⟨τ, ends_bind.mpr ⟨_, _, Build.ends_env.mpr ⟨rfl, rfl⟩, h⟩, hR⟩
  refine henv ?_
  dsimp only
  split
  · exact ⟨_, ends_bind.mpr ⟨(), _, ends_modify.mpr rfl, ends_bind.mpr ⟨(), _,
      Build.ends_modifyEnv.mpr rfl, hgoal _ _⟩⟩, hstep _ _, rfl, rfl, rfl⟩
  · exact ⟨_, hgoal _ _, hstep σ.supply.warnings σ.env.truncated, rfl, rfl, rfl⟩

/-- **Cuts** have the same names. -/
theorem follows_cut {l : Label} :
    Build.Follows (.freshening start) (w.cut l) (w'.cut l) p (Copied post post') := by
  intro h c' τ' hends
  obtain ⟨τ, hcut, hstep, hvars, -⟩ := w.cut_ends l p.1
  obtain ⟨τ'', hcut', hstep', hvars', hinits', hcalls'⟩ := w'.cut_ends l p.2
  obtain ⟨hc, rfl⟩ := Prod.mk.inj (hends.symm.trans hcut')
  obtain rfl := Except.ok.inj hc
  rw [h.resembles.unroll]
  exact ⟨_, τ, hcut, ⟨hstep, hstep'⟩, h.step hstep hstep' hvars hvars' hinits' (hcalls' ▸ h.called),
    .cut _ _ _⟩

end Walker

/-! ## §2 Subroutines -/

/-- Both environments make the same of a subroutine: its values are known, its names have no null
characters, and variables that only the first one knows have there the sorts that they have here. -/
structure Sub.Agrees (start : Environment × Environment) (sub : Sub) : Prop where
  known : sub.IsKnown
  clear : ∀ s, sub.Mentions (.text s) → '\x00' ∉ s.toList
  sorts : ∀ v ∈ sub.vars, ∀ t, start.1.Gives v t → (∀ t', ¬start.2.Gives v t') →
    start.1.sortOf v = .ok t.sort

theorem Sub.Agrees.within (h : sub.Agrees start) : sub.Within Label.Clear ('\x00' ∉ ·.toList) := by
  have hwithin : sub.Within Label.Clear fun name => Label.Clear (.text name) :=
    Sub.within_of_mentions fun l hl s hs => h.clear s (hs ▸ hl)
  exact ⟨hwithin.vars, fun b hb j hj hkind name hname =>
    hwithin.calls b hb j hj hkind name hname name rfl⟩

theorem Sub.Agrees.vars (h : sub.Agrees start) (hlabelled : start.1.Labelled)
    (hplain : start.1.freshened = false) : ∀ v ∈ sub.vars, v.Agrees start := by
  intro v hv
  refine ⟨h.within.vars v hv, fun s t hl ht hnone => ?_⟩
  have hsort := h.sorts v hv t ⟨_, hl, ht⟩ fun t' ⟨l', hl', ht'⟩ => by
    obtain rfl := Except.ok.inj (hl.symm.trans hl')
    cases hnone.symm.trans ht'
  -- the constant has the name of the variable
  obtain ⟨⟨l, t⟩, hfind, rfl⟩ := Option.map_eq_some_iff.mp ht
  have hsame := List.find?_some hfind
  obtain rfl := Label.eq_of_same_text hsame
  obtain ⟨n, name, w, srt, hn, hname, -, rfl⟩ := hlabelled _ (List.mem_of_find?_eq_some hfind)
  rw [Environment.localName, hplain] at hn
  obtain rfl : .text s = n := Except.ok.inj hn
  obtain rfl : .ofText s = name := Except.ok.inj hname
  exact ⟨srt, hsort, rfl⟩

/-- Two walks of a subroutine whose calls are inlined, if the walks of its callees do the same. -/
theorem Walker.parallel_freshening {flow : Flow} {walk : Constraint → Sub → Build Constraint}
    (hlabelled : start.1.Labelled) (hplain : start.1.freshened = false)
    (hsub : e.Expands (Sub.Agrees start) sub) (hflow : sub.flow = .ok flow)
    (hwalk : ∀ {e : Environment} {sub q c c'}, e.Expands (Sub.Agrees start) sub →
      e.Resembles q.1.env → Copied post post' q c c' →
      Build.Follows (.freshening start) (walk c sub) (walk c' sub) q (Copied post post')) :
    Parallel (.freshening start) (Copied post post')
      (fun q => e.Resembles q.1.env ∧ Copied post post' q c c')
      ⟨flow, c, walk⟩ ⟨flow, c', walk⟩ := by
  obtain ⟨hagrees, hcalls, hbodies⟩ := hsub
  have hblk : ∀ n ∈ flow.graph, n.block ∈ sub.blks := fun n hn =>
    Sub.map_block_flow hflow ▸ List.mem_map_of_mem hn
  have hvars := hagrees.vars hlabelled hplain
  simp only [Sub.vars, Blk.vars, List.forall_mem_flatMap, List.forall_mem_append] at hvars
  -- what is left to say is that definitions, calls and jumps read variables with marked constants
  exact {
    flow := rfl
    unroll := fun h => h.resembles.unroll
    stays := fun hlater h => ⟨h.1.trans hlater.1.resembles, h.2.mono hlater⟩
    mono := Copied.mono
    post := fun h => h.2
    definition := fun hn hd _ hc => Build.follows_definition
      ((hagrees.known _ (hblk _ hn)).1 _ hd) ((hvars _ (hblk _ hn)).1 _ hd) hc
    call := by
      intro n j p c c' hn hj hkind h hc
      obtain ⟨name, names, hname, hresolve⟩ := hcalls _ (hblk _ hn) _ hj hkind
      have hclear := hagrees.within.calls _ (hblk _ hn) _ hj hkind name hname
      exact follows_call rfl hname hclear h.1 hresolve
        (hwalk (hbodies _ (hblk _ hn) _ hj hkind name hname)) hc
    jump := fun hn hj _ hc h => follows_jump
      ((hagrees.known _ (hblk _ hn)).2 _ hj) ((hvars _ (hblk _ hn)).2 _ hj) hc h
    cut := follows_cut }

/-- **Subroutines**: the walk of a subroutine whose calls are inlined builds a copy. -/
theorem follows_preconditionWithin (bound : Nat) (hlabelled : start.1.Labelled)
    (hplain : start.1.freshened = false) (hsub : e.Expands (Sub.Agrees start) sub)
    (he : e.Resembles p.1.env) (hc : Copied post post' p c c') :
    Build.Follows (.freshening start) (preconditionWithin bound c sub)
      (preconditionWithin bound c' sub) p (Copied post post') := by
  induction bound generalizing e sub p c c' with
  | zero => exact Build.follows_throw
  | succ bound ih =>
    unfold preconditionWithin
    split
    · exact Build.follows_pure hc
    · exact Build.follows_lift_bind fun flow hflow => ⟨flow, hflow,
        (Walker.parallel_freshening hlabelled hplain hsub hflow ih).run ⟨he, hc⟩⟩

theorem follows_precondition (hlabelled : start.1.Labelled) (hplain : start.1.freshened = false)
    (hsub : e.Expands (Sub.Agrees start) sub) (he : e.Resembles p.1.env) :
    Build.Follows (.freshening start) (precondition post sub) (precondition post' sub) p
      (Copied post post') := by
  refine Build.follows_env_bind fun hlinked => ?_
  have hbound : p.2.env.nestingBound = p.1.env.nestingBound := by
    rw [Environment.nestingBound, hlinked.resembles.summaries, hlinked.resembles.unroll,
      Environment.nestingBound]
  rw [hbound]
  exact follows_preconditionWithin _ hlabelled hplain hsub he .post

/-! ## §3 Seeds -/

/-- **Seeding** gives constants to the same variables. -/
theorem Build.follows_seed (hregs : ∀ r v, start.1.regVar r = .ok v → v.Agrees start)
    (hmem : start.1.memVar.Agrees start) :
    Follows (.freshening start) seed seed p fun _ _ _ => True := by
  -- registers are the same variables on both sides, as the target is
  have hreg : ∀ r {q}, Follows (.freshening start) (getRegister r) (getRegister r) q
      fun _ _ _ => True := by
    intro r q
    refine follows_env_bind fun h => ?_
    have hvar : q.1.env.regVar r = start.1.regVar r := by
      rw [Environment.regVar, h.arch, Environment.regVar]
    have hvar' : q.2.env.regVar r = start.1.regVar r := by
      rw [Environment.regVar, h.resembles.arch, h.arch, Environment.regVar]
    rw [hvar, hvar']
    exact follows_lift_bind fun v hv =>
      ⟨v, hv, (follows_getVar (hregs r v hv)).imp fun _ _ _ _ => True.intro⟩
  have hloop : ∀ (rs : List String) {q}, Follows (.freshening start)
      (forIn rs PUnit.unit fun r _ => do
        let _ ← getRegister r
        pure (ForInStep.yield PUnit.unit))
      (forIn rs PUnit.unit fun r _ => do
        let _ ← getRegister r
        pure (ForInStep.yield PUnit.unit)) q fun _ _ _ => True := by
    intro rs
    induction rs with
    | nil => exact follows_pure True.intro
    | cons r rs ih =>
      intro q
      simp only [List.forIn_cons, bind_assoc, pure_bind]
      exact (hreg r).bind fun _ _ _ _ _ => ih
  refine follows_env_bind fun h => ?_
  rw [h.resembles.arch]
  refine (hloop _).bind fun _ _ q _ _ => ?_
  refine Follows.bind (Q := fun _ _ _ => True) ?_ fun _ _ _ _ _ => follows_pure True.intro
  refine follows_env_bind fun h => ?_
  have hvar : q.1.env.memVar = start.1.memVar := by
    rw [Environment.memVar, h.arch, Environment.memVar]
  have hvar' : q.2.env.memVar = start.1.memVar := by
    rw [Environment.memVar, h.resembles.arch, h.arch, Environment.memVar]
  rw [hvar, hvar']
  exact (follows_getVar hmem).imp fun _ _ _ _ => True.intro

/-- Environments without constants that are alike have seeds that belong together. -/
theorem Build.exists_seeded {u : Unit} {τ' : Session} (h : seed.Ends { env := e' } u τ')
    (hres : e.Resembles e') (hplain : e.freshened = false) (hfresh : e'.freshened = true)
    (hhooks : e.hooks = []) (hhooks' : e'.hooks = []) (hvars : e.vars = []) (hvars' : e'.vars = [])
    (hinits : e'.inits = []) (hcalls : e.calls = []) (hcalls' : e'.calls = [])
    (hclear : ∀ r ∈ e.arch.memoryName :: e.arch.registerNames, '\x00' ∉ r.toList) :
    ∃ u τ, seed.Ends { env := e } u τ ∧ τ.env.Freshens (e, e') τ'.env := by
  -- before anything is seeded, neither side has a constant
  have hstart : e.Freshens (e, e') e' :=
    ⟨Environment.sound_of_nil hvars' hinits, Environment.flagged_of_nil hcalls,
      Environment.flagged_of_nil hcalls', hplain, hfresh, hhooks, hhooks', rfl, hres, hinits,
      fun l => .inl (by simp [Environment.findVar?, hvars']), by simp [hvars'], by simp [hcalls']⟩
  -- a name without null characters gets its suffix where it belongs
  have hagrees : ∀ {v : Var} {r : String}, v.name = .str r → '\x00' ∉ r.toList →
      v.Agrees (e, e') := by
    intro v r hname hr
    refine ⟨fun l hl s hs => ?_, fun s t _ ht => by simp [Environment.findVar?, hvars] at ht⟩
    rw [hname] at hl
    obtain rfl : r = s := Label.text.inj ((Except.ok.inj hl).trans hs)
    exact hr
  have hregs : ∀ r v, e.regVar r = .ok v → v.Agrees (e, e') := by
    intro r v hv
    have hmem := Environment.mem_registerNames hv
    refine hagrees (r := r) ?_ (hclear r (List.mem_cons_of_mem _ hmem))
    obtain ⟨w, -, hv⟩ := bind_eq_ok.mp hv
    cases hv
    rfl
  have hmem : e.memVar.Agrees (e, e') := hagrees rfl (hclear _ List.mem_cons_self)
  obtain ⟨u, τ, hends, -, hlinked, -⟩ :=
    follows_seed (p := ({ env := e }, { env := e' })) hregs hmem hstart u τ' h
  exact ⟨u, τ, hends, hlinked⟩

/-- **A freshened environment** has marked constants for the registers and the memory, which a plain
environment knows from the start. -/
theorem Environment.freshens_of_freshen {e0 e2 : Environment} {σ0 σ : Session}
    (hplain : e0.freshened = false) (hhooks : e0.hooks = []) (hvars : e0.vars = [])
    (hcalls : e0.calls = [])
    (hclear : ∀ r ∈ e0.arch.memoryName :: e0.arch.registerNames, '\x00' ∉ r.toList)
    (hseeded : e0.seeded = .ok σ0.env) (hused : σ0.Step σ) (hfreshen : σ.env.freshen = .ok e2) :
    σ.env.Freshens (σ.env, e2) e2 := by
  obtain ⟨u, τ, hseed, hτ⟩ := ends_of_seeded hseeded
  obtain ⟨u', τ', hseed', rfl⟩ := ends_of_seeded hfreshen
  obtain ⟨hstep, -⟩ := Build.ends_seed hseed
  have hres := hstep.resembles
  have hhooks' := hstep.env.hooks
  rw [hτ] at hres hhooks'
  -- what was done between seeding and freshening does not matter to the seeds
  obtain ⟨harch, hlogic, hsubs, hunroll, hsummaries, hdepth⟩ := hres.trans hused.resembles
  obtain ⟨_, τ1, hseed1, h⟩ := Build.exists_seeded hseed'
    ⟨harch, hlogic, hsubs, hunroll, hsummaries, hdepth⟩ hplain rfl hhooks
    ((hused.env.hooks.trans hhooks').trans hhooks) hvars rfl rfl hcalls rfl hclear
  obtain ⟨-, rfl⟩ := Prod.mk.inj (hseed.symm.trans hseed1)
  rw [hτ] at h
  refine ⟨h.sound, hused.flagged h.flagged, h.flagged', hused.env.freshened.trans h.plain, h.fresh,
    hused.env.hooks.trans h.hooks, h.hooks', rfl, hused.resembles.symm.trans h.resembles, h.inits,
    fun l => ?_, h.named, h.called⟩
  obtain ⟨hnone, -⟩ | ⟨t, ht, ht'⟩ := h.vars l
  · exact .inl ⟨hnone, hnone, rfl⟩
  · exact .inr ⟨t, hused.env.findVar?_eq_some ht, ht'⟩

/-! ## §4 Freshening is a renaming -/

theorem Environment.Freshens.mem_freshPairs (h : e.Freshens start e') {q : Term × Term}
    (hq : q ∈ e'.freshPairs) :
    ∃ name srt, Symbol.Named name ∧ q = (.const name srt, .const name.mark srt) := by
  have hpair : ∀ {name : Symbol} {srt : Srt}, name.Named →
      ((.const (plainSymbol name.mark) srt, .const name.mark srt) : Term × Term) =
        (.const name srt, .const name.mark srt) := fun hname => by rw [hname.plainSymbol_mark]
  rw [freshPairs, if_pos h.fresh, h.inits, List.map_nil, List.append_nil, List.map_append,
    List.map_map, List.map_map] at hq
  rcases List.mem_append.mp hq with hq | hq
  · obtain ⟨r, hr, rfl⟩ := List.mem_map.mp hq
    obtain ⟨name, srt, hname, hr⟩ := h.named r hr
    exact ⟨name, srt, hname, by rw [Function.comp_apply, hr]; exact hpair hname⟩
  · obtain ⟨r, hr, rfl⟩ := List.mem_map.mp hq
    have hclear : '\x00' ∉ (calledMark ++ r.1).toList := by simp [calledMark, h.called r hr]
    have hr' := h.flagged' r hr
    rw [flagSymbol, suffix, if_pos h.fresh, Symbol.ofText_append_suffix hclear] at hr'
    exact ⟨_, _, ⟨_, hclear, rfl⟩, by rw [Function.comp_apply, hr']; exact hpair ⟨_, hclear, rfl⟩⟩

theorem Environment.Freshens.images_of_owns (h : e.Freshens start e') {name : Symbol} {srt : Srt}
    (ho : e'.Owns name.mark srt) : (.const name srt, .const name.mark srt) ∈ e'.freshPairs := by
  obtain ⟨r, hr, heq⟩ := List.mem_map.mp ho
  obtain ⟨name', srt', hname, hr'⟩ := h.named r hr
  obtain ⟨hmark, rfl⟩ := Term.const.inj (heq.symm.trans hr')
  obtain rfl := Symbol.mark_injective hmark
  rw [freshPairs, if_pos h.fresh]
  refine List.mem_map.mpr ⟨.const name.mark srt, ?_, by simp only [hname.plainSymbol_mark]⟩
  exact List.mem_append_left _ (List.mem_append_left _ ho)

/-- A formula and the renamed formula are true in the same states, up to the names of constants. -/
theorem Environment.Freshens.eval_freshPairs (h : e.Freshens start e') {ψ : Term}
    (hψ : ∀ name srt, ψ.Mentions name srt → ∃ t, (.const name srt, t) ∈ e'.freshPairs)
    {s s' : State}
    (hs : s.Mirrors (fun name srt => (.const name srt, .const name.mark srt) ∈ e'.freshPairs) s') :
    (ψ.subst e'.freshPairs).eval s' = ψ.eval s := by
  have hfits : e'.freshPairs.FitsAt s' := by
    intro q hq
    obtain ⟨name, srt, -, rfl⟩ := h.mem_freshPairs hq
    exact ⟨name, srt, rfl, by simpa using s'.fits_const name.mark srt⟩
  rw [Term.eval_subst hfits]
  refine ψ.restsOn_of_mentions hψ ⟨fun name srt ⟨t, ht⟩ => ?_, hs.apply.symm⟩
  rw [hfits.const_replaced]
  obtain ⟨u, hu⟩ : ∃ u, e'.freshPairs.find? (.const name srt) = some u := by
    rw [← Option.isSome_iff_exists, Replacement.find?, Option.isSome_map, List.find?_isSome]
    exact ⟨_, ht, by simp⟩
  have hmem := Replacement.mem_of_find? hu
  obtain ⟨name', srt', -, heq⟩ := h.mem_freshPairs hmem
  obtain ⟨hold, rfl⟩ := Prod.mk.inj heq
  obtain ⟨rfl, rfl⟩ := Term.const.inj hold
  rw [hu, Option.map_some, Option.getD_some, Term.eval_const, hs.const _ _ hmem]

open Environment in
/-- **Freshening is a renaming.**  A plain environment may have been used in any way when it is
freshened.  If the calls of a subroutine are all inlined and the walk in the freshened environment
ends, from a condition whose formula is the renamed one, then the walk in the plain environment ends
too.  The freshened condition is true in a state exactly if the plain one is true in the states that
give every plain constant the value of its image.  The renaming is one-to-one, and no constant is
its own image. -/
theorem precondition_freshen {e0 e2 : Environment} {σ0 σ σ2 : Session} {supply : Supply} {sub : Sub}
    {post post2 pre2 : Constraint} {b : Bool} {ψ φ2 : Term} (hplain : e0.freshened = false)
    (hhooks : e0.hooks = []) (hvars : e0.vars = []) (hinits : e0.inits = [])
    (hcalls : e0.calls = [])
    (hclear : ∀ r ∈ e0.arch.memoryName :: e0.arch.registerNames, '\x00' ∉ r.toList)
    (hseeded : e0.seeded = .ok σ0.env) (hused : σ0.Step σ) (hlabelled : σ.env.Labelled)
    (hfreshen : σ.env.freshen = .ok e2) (hsub : σ.env.Expands (Sub.Agrees (σ.env, e2)) sub)
    (hrun : (precondition post2 sub).Ends ⟨supply, e2⟩ pre2 σ2) (hpost : post.Stands σ b ψ)
    (hpost2 : post2.Stands ⟨supply, e2⟩ b (ψ.subst σ2.env.freshPairs))
    (hψ : ∀ name srt, ψ.Mentions name srt → ∃ t, (.const name srt, t) ∈ σ2.env.freshPairs)
    (hφ2 : pre2.flatten? b = .ok φ2) :
    (∃ pre σ' φ, (precondition post sub).Ends σ pre σ' ∧ pre.flatten? b = .ok φ ∧
      ∀ s s' : State, s'.apply = s.apply →
        (∀ q ∈ σ2.env.freshPairs, q.1.eval s' = q.2.eval s) → φ2.holds s = φ.holds s') ∧
    (∀ q ∈ σ2.env.freshPairs, q.1 ≠ q.2) ∧
    ∀ q ∈ σ2.env.freshPairs, ∀ r ∈ σ2.env.freshPairs, q.1 = r.1 ↔ q.2 = r.2 := by
  have hlinked := freshens_of_freshen hplain hhooks hvars hcalls hclear hseeded hused hfreshen
  -- the two walks go side by side, and give a tree and its copy
  have hfollows : Build.Follows (.freshening (σ.env, e2)) (precondition post sub)
      (precondition post2 sub) (σ, ⟨supply, e2⟩) (Copied post post2) :=
    follows_precondition hlabelled hlinked.plain hsub ⟨rfl, rfl, rfl, rfl, rfl, fun _ => rfl⟩
  obtain ⟨pre, σ', hends, hlater, hlinked', hcopied⟩ := hfollows hlinked pre2 σ2 hrun
  refine ⟨⟨pre, σ', ?_⟩, fun q hq => ?_, fun q hq r hr => ?_⟩
  -- the copy has the truth of the tree, in states that hold the same values
  · have hsound : σ.env.Sound := hused.sound ((seeded_ok hseeded).2.1 (sound_of_nil hvars hinits))
    obtain ⟨ν0, hν⟩ := hpost.exists_lists
    obtain ⟨ν0', hν'⟩ := hpost2.exists_lists
    obtain ⟨ν, -, hl⟩ := carried_lists.precondition hν sub hlinked.flagged hsound _ _ hends
    obtain ⟨ν', -, hl'⟩ :=
      carried_lists.precondition hν' sub hlinked.flagged' hlinked.sound _ _ hrun
    obtain ⟨hsorted', rfl⟩ := hl'.flatten?_eq_ok.mp hφ2
    have hsorted := (hcopied.sorted_iff (iff_of_true hpost.sorted hpost2.sorted)).mpr hsorted'
    refine ⟨_, hends, hl.flatten?_eq_ok.mpr ⟨hsorted, rfl⟩, fun s s' happly hconst => ?_⟩
    rw [Bool.eq_iff_iff, hl.holds_flatten, hl'.holds_flatten]
    refine (hcopied.holds_iff hlinked'.sound (fun _ _ => hlinked'.images_of_owns)
      (fun u u' hu => ?_) hsorted ⟨fun name srt hq => by simpa using hconst _ hq, happly⟩).symm
    rw [← hpost.holds_iff, ← hpost2.holds_iff, Term.holds, Term.holds,
      hlinked'.eval_freshPairs hψ hu]
  · obtain ⟨name, srt, hname, rfl⟩ := hlinked'.mem_freshPairs hq
    exact fun heq => hname.mark_ne (Term.const.inj heq).1
  · obtain ⟨name, srt, -, rfl⟩ := hlinked'.mem_freshPairs hq
    obtain ⟨name', srt', -, rfl⟩ := hlinked'.mem_freshPairs hr
    simp [Symbol.mark_injective.eq_iff]

/-! ## §5 A relayed variable -/

/-- The name of a variable; the second one is cut off where it is made a symbol. -/
def relayName (cut : Bool) : String :=
  if cut then "b\x00" else "c"

/-- Sets one variable to zero, and the register to another one. -/
def relay (cut : Bool) : Sub :=
  .straight [{ tid := .str "one", lhs := { name := .str "b", width := .int 8 }
               rhs := .int 0 (.int 8) },
    { tid := .str "two", lhs := { name := .str "a", width := .int 8 }
      rhs := .var { name := .str (relayName cut), width := .int 8 } }]

/-- The symbol of a name, plain or freshened. -/
def relaySymbol (fresh : Bool) (name : String) : Symbol :=
  .ofText (if fresh then name ++ "_mod" else name)

def relayStart (fresh : Bool) : Environment :=
  Twin.smallEnv fresh [("a", .bits 8), ("mem", .memory 8)]

/-- The environment after the walk. -/
def relayEnd (fresh cut : Bool) : Environment :=
  { relayStart fresh with
    vars := (relayStart fresh).vars ++ [relayName cut, "b"].map fun name =>
      (.text name, .const (relaySymbol fresh name) (.bits 8))
    introduced := ["b", relayName cut].map (fun name =>
      .text (if fresh then name ++ "_mod" else name)) ++ (relayStart fresh).introduced }

def relayFormula (fresh : Bool) : Term :=
  .app .eq [.const (relaySymbol fresh "a") (.bits 8), .num 8 0]

def relayPost (fresh : Bool) : Constraint :=
  .goal 0 "zero" (relayFormula fresh)

def relayPre (fresh cut : Bool) : Constraint :=
  .subst 2 (.subst 1 (relayPost fresh) [(.const (relaySymbol fresh "a") (.bits 8),
      .const (relaySymbol fresh (relayName cut)) (.bits 8))])
    [(.const (relaySymbol fresh "b") (.bits 8), .num 8 0)]

theorem ends_relay (fresh cut : Bool) :
    (precondition (relayPost fresh) (relay cut)).Ends ⟨{ nodes := 1 }, relayStart fresh⟩
      (relayPre fresh cut) ⟨{ nodes := 3 }, relayEnd fresh cut⟩ := by
  cases fresh <;> cases cut <;> exact rfl

/-- The pairs after the walk. -/
def relayPairs (cut : Bool) : Replacement :=
  [(.const (.text "a") (.bits 8), .const (.text "a_mod") (.bits 8)),
    (.const (.text "mem") (.memory 8), .const (.text "mem_mod") (.memory 8)),
    if cut then (.const .anonymous (.bits 8), .const (.text "b") (.bits 8))
    else (.const (.text "c") (.bits 8), .const (.text "c_mod") (.bits 8)),
    (.const (.text "b") (.bits 8), .const (.text "b_mod") (.bits 8))]

theorem freshPairs_relay (cut : Bool) : (relayEnd true cut).freshPairs = relayPairs cut := by
  simp only [Environment.freshPairs, Symbol.plainSymbol_eq]
  cases cut <;> rfl

theorem stands_relayPost (fresh b : Bool) :
    (relayPost fresh).Stands ⟨{ nodes := 1 }, relayStart fresh⟩ b (relayFormula fresh) := by
  have hformula : (relayPost fresh).flatten b = relayFormula fresh := by
    rw [relayPost, Constraint.flatten_goal, Constraint.resolveCuts, Term.subst, Term.foldShared_eq]
    cases fresh <;> simp [relayFormula, relaySymbol, Term.fold, Term.foldList, Replacement.step,
      Replacement.find?, Term.loopCut, Symbol.ofText]
  exact hformula ▸ Constraint.stands_goal b Nat.one_pos

theorem subst_relayFormula (cut : Bool) :
    (relayFormula false).subst (relayPairs cut) = relayFormula true := by
  rw [Term.subst, Term.foldShared_eq]
  cases cut <;> simp [relayPairs, relayFormula, relaySymbol, Term.fold, Term.foldList,
    Replacement.step, Replacement.find?, Symbol.ofText]

theorem mem_relayPairs (cut : Bool) (name : Symbol) (srt : Srt)
    (h : (relayFormula false).Mentions name srt) : ∃ t, (.const name srt, t) ∈ relayPairs cut := by
  cases h with
  | app hu h =>
    rcases List.mem_cons.mp hu with rfl | hu
    · cases h
      exact ⟨_, List.mem_cons_self⟩
    · obtain rfl := List.mem_singleton.mp hu
      cases h

theorem gives_relayStart {v : Var} {t : Term} (h : (relayStart false).Gives v t) :
    ∃ t', (relayStart true).Gives v t' := by
  obtain ⟨l, hl, ht⟩ := h
  have hknown : ((relayStart true).findVar? l).isSome = ((relayStart false).findVar? l).isSome := by
    rw [Bool.eq_iff_iff]
    simp [Environment.findVar?, relayStart, Twin.smallEnv, List.find?_isSome]
  rw [ht, Option.isSome_some, Option.isSome_iff_exists] at hknown
  exact hknown.imp fun t' ht' => ⟨l, hl, ht'⟩

theorem isKnown_relay (cut : Bool) : (relay cut).IsKnown :=
  Sub.isKnown_straight (by simp [Expr.isKnown])

theorem agrees_relay : (relay false).Agrees (relayStart false, relayStart true) where
  known := isKnown_relay false
  clear := by
    rintro s (⟨v, hv, hl⟩ | ⟨a, ha, -⟩ | ⟨b, hb, j, hj, -⟩)
    · have hvars : (relay false).vars = ["b", "a", "c"].map fun name =>
          { name := .str name, width := .int 8 } := rfl
      obtain ⟨name, hname, rfl⟩ := List.mem_map.mp (hvars ▸ hv)
      obtain rfl : name = s := Label.text.inj (Except.ok.inj hl)
      exact (by decide : ∀ name ∈ ["b", "a", "c"], '\x00' ∉ name.toList) _ hname
    · cases ha
    · simp [relay, Sub.straight] at hb
      simp [hb] at hj
  sorts _ _ _ ht hnone := absurd (gives_relayStart ht) (not_exists.mpr hnone)

theorem expands_relay {P : Sub → Prop} {cut : Bool} (h : P (relay cut)) : e.Expands P (relay cut) :=
  .intro h (by simp [relay, Sub.straight]) (by simp [relay, Sub.straight])

theorem flatten_relayPre (fresh cut b : Bool) : ∃ φ, (relayPre fresh cut).flatten? b = .ok φ ∧
    ∀ s, φ.holds s = true ↔ (relayPre fresh cut).Holds b s := by
  have hcoherent : (relayPre fresh cut).Coherent := by
    simp [Constraint.Coherent, relayPre, relayPost, Constraint.subtrees, Constraint.id]
  obtain ⟨ν, n, hν⟩ := hcoherent.exists_listed
  refine ⟨_, hν.flatten?_eq_ok.mpr ⟨?_, rfl⟩, hν.holds_flatten b⟩
  simp [relayPre, relayPost, Replacement.keepsSorts, Term.sort]

/-- A variable that is relayed by its name. -/
theorem precondition_freshen_relay :
    (precondition (relayPost true) (relay false)).Ends ⟨{ nodes := 1 }, relayStart true⟩
        (relayPre true false) ⟨{ nodes := 3 }, relayEnd true false⟩ ∧
      (relayStart false).freshen = .ok (relayStart true) ∧
      ∃ φ2, (relayPre true false).flatten? true = .ok φ2 ∧
        ∃ pre σ' φ, (precondition (relayPost false) (relay false)).Ends
            ⟨{ nodes := 1 }, relayStart false⟩ pre σ' ∧ pre.flatten? true = .ok φ ∧
          ∀ s s' : State, s'.apply = s.apply →
            (∀ q ∈ relayPairs false, q.1.eval s' = q.2.eval s) → φ2.holds s = φ.holds s' := by
  obtain ⟨φ2, hφ2, -⟩ := flatten_relayPre true false true
  have hnames : Twin.smallArch.registerNames = ["a"] := rfl
  have hclear : ∀ r ∈ Twin.smallArch.memoryName :: Twin.smallArch.registerNames,
      '\x00' ∉ r.toList := by
    rw [hnames]
    decide
  have hpairs := freshPairs_relay false
  have hseeded := Twin.seeded_smallEnv false
  obtain ⟨hplain, -⟩ := precondition_freshen rfl rfl rfl rfl rfl hclear hseeded
    (.refl (σ := ⟨{ nodes := 1 }, relayStart false⟩)) (Environment.labelled_of_seeded hseeded rfl)
    (Twin.seeded_smallEnv true) (expands_relay agrees_relay) (ends_relay true false)
    (stands_relayPost false true)
    (by rw [hpairs, subst_relayFormula]; exact stands_relayPost true true)
    (by rw [hpairs]; exact mem_relayPairs false) hφ2
  rw [hpairs] at hplain
  exact ⟨ends_relay true false, Twin.seeded_smallEnv true, φ2, hφ2, hplain⟩

/-- The state in which one constant is one and all others are zero. -/
def relayState (name : Symbol) : State :=
  State.zero.set name (.bits 8) (.bits 8 1)

theorem holds_relayPre {fresh cut : Bool} {s : State} : (relayPre fresh cut).Holds true s ↔
    (s.set (relaySymbol fresh "b") (.bits 8) (.bits 8 0)).const
      (relaySymbol fresh (relayName cut)) (.bits 8) = .bits 8 0 := by
  have hsort : Srt.bits 8 ≠ .bool := by decide
  have hfits := State.fits_const (s.set (relaySymbol fresh "b") (.bits 8) (.bits 8 0))
    (relaySymbol fresh (relayName cut)) (.bits 8)
  rw [relayPre, Constraint.holds_subst (.inr hsort) (.num _ _) (by simp [Value.Fits]),
    Constraint.holds_subst (.inr hsort) (.const hsort) (by simpa using hfits), relayPost,
    Constraint.holds_goal, relayFormula, Term.holds, Term.eval_app, State.cutAs]
  obtain ⟨n, hn, -⟩ := hfits.bits_inv
  rw [hn] at hfits
  simp [State.const_set_ne, State.const_set_self _ hfits, hn, Op.eval, Value.same, Value.isTrue]

theorem eval_relayPairs : ∀ q ∈ relayPairs true,
    q.1.eval (relayState .anonymous) = q.2.eval (relayState (.text "b")) := by
  simp [relayPairs, relayState, State.set, State.const, State.zero]

/-- **Names that are cut off** are no renaming: a variable that is another one on the plain side is
a variable of its own, without a marked constant, on the freshened side. -/
theorem not_freshen_of_cut_names :
    ¬∀ (e0 e2 : Environment) (σ σ2 : Session) (sub : Sub) (post post2 pre2 : Constraint) (b : Bool)
      (ψ φ2 : Term), e0.freshened = false → e0.hooks = [] → e0.vars = [] → e0.inits = [] →
      e0.calls = [] → e0.seeded = .ok σ.env → σ.env.freshen = .ok e2 → sub.CallFree →
      sub.IsKnown → (precondition post2 sub).Ends ⟨σ.supply, e2⟩ pre2 σ2 → post.Stands σ b ψ →
      post2.Stands ⟨σ.supply, e2⟩ b (ψ.subst σ2.env.freshPairs) →
      (∀ name srt, ψ.Mentions name srt → ∃ t, (.const name srt, t) ∈ σ2.env.freshPairs) →
      pre2.flatten? b = .ok φ2 →
      ∃ pre σ' φ, (precondition post sub).Ends σ pre σ' ∧ pre.flatten? b = .ok φ ∧
        ∀ s s' : State, s'.apply = s.apply →
          (∀ q ∈ σ2.env.freshPairs, q.1.eval s' = q.2.eval s) → φ2.holds s = φ.holds s' := by
  intro h
  obtain ⟨φ2, hφ2, hholds2⟩ := flatten_relayPre true true true
  obtain ⟨φ', hφ', hholds⟩ := flatten_relayPre false true true
  have hpairs := freshPairs_relay true
  obtain ⟨pre, σ', φ, hends, hφ, hsame⟩ := h _ _ ⟨{ nodes := 1 }, relayStart false⟩ _ (relay true)
    (relayPost false) _ _ true _ _ rfl rfl rfl rfl rfl (Twin.seeded_smallEnv false)
    (Twin.seeded_smallEnv true) Sub.callFree_straight (isKnown_relay true) (ends_relay true true)
    (stands_relayPost false true)
    (by rw [hpairs, subst_relayFormula]; exact stands_relayPost true true)
    (by rw [hpairs]; exact mem_relayPairs true) hφ2
  obtain ⟨hpre, -⟩ := Prod.mk.inj (hends.symm.trans (ends_relay false true))
  obtain rfl := Except.ok.inj hpre
  obtain rfl := Except.ok.inj (hφ.symm.trans hφ')
  have hequal := hsame (relayState (.text "b")) (relayState .anonymous) rfl
    (by rw [hpairs]; exact eval_relayPairs)
  rw [Bool.eq_iff_iff, hholds2, hholds, holds_relayPre, holds_relayPre] at hequal
  cases (hequal.mpr rfl : Value.bits 8 1 = .bits 8 0)

end Antecedent
