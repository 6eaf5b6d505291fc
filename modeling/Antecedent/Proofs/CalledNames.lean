import Antecedent.Proofs.Callees
import Antecedent.Proofs.Composition
import Antecedent.Proofs.Tracing

/-!
# Comparing the functions that two subroutines call

A flag says of every function whether it has been called.  The comparator of calls takes for granted
that no flag is set on entry, and asks on exit that the flags set on the second side are set on the
first one.

* `compareSubs_calls_iff` says what the comparison means: the functions that the second subroutine
  calls are among those that the first one calls.
* `not_calls_iff_of_disjoint_names` says that the flags must differ in their symbols.
-/

namespace Antecedent

variable {e : Environment} {name f : String} {t : Twin}

/-! ## §1 Flags -/

theorem Term.holds_not (t : Term) (s : State) : (Term.app .not [t]).holds s = !t.holds s := by
  rw [Term.holds, Term.eval_app]
  rfl

namespace Environment

/-- The flags at hand are the constants of their symbols, and these have been introduced. -/
def Marked (e : Environment) : Prop :=
  ∀ p ∈ e.calls, p.2 = .const (e.flagSymbol p.1) .bool ∧ e.flagSymbol p.1 ∈ e.symbols

theorem Marked.flagged (h : e.Marked) : e.Flagged :=
  fun p hp => (h p hp).1

theorem marked_of_nil (h : e.calls = []) : e.Marked := by
  simp [Marked, h]

/-- The symbol of a name with a null character ends before the suffix, so it is the same on both
sides. -/
theorem flagSymbol_eq_of_null (h : '\x00' ∈ name.toList) (e e' : Environment) :
    e.flagSymbol name = e'.flagSymbol name := by
  have htake : ∀ suffix : String, (calledMark ++ name ++ suffix).toList.takeWhile (· != '\x00') =
      (calledMark ++ name).toList.takeWhile (· != '\x00') := fun suffix => by
    rw [String.toList_append, List.takeWhile_append, if_neg]
    intro hlength
    have hall := List.takeWhile_eq_self_iff.mp
      ((List.takeWhile_prefix (· != '\x00')).eq_of_length hlength)
    simpa using hall '\x00' (by simp [h])
  simp only [flagSymbol, Symbol.ofText, htake]

/-- Names without null characters have flags of their own. -/
theorem flagSymbol_inj {name' : String} (h : '\x00' ∉ name.toList) (h' : '\x00' ∉ name'.toList)
    (heq : e.flagSymbol name = e.flagSymbol name') : name = name' := by
  have hsymbol : ∀ s : String, '\x00' ∉ s.toList →
      e.flagSymbol s = .text (calledMark ++ s ++ e.suffix) := fun s hs => by
    refine Symbol.ofText_eq_text (fun hempty => ?_) ?_
    · have := congrArg String.toList hempty
      simp [calledMark] at this
    · have hmark : '\x00' ∉ calledMark.toList := by decide
      have hsuffix : '\x00' ∉ e.suffix.toList := by
        unfold suffix
        split <;> decide
      simp [hmark, hs, hsuffix]
  rw [hsymbol name h, hsymbol name' h'] at heq
  have hlists := congrArg String.toList (Symbol.text.inj heq)
  exact String.toList_inj.mp (by simpa using hlists)

end Environment

namespace Build

variable {σ σ' : Session} {callee : String} {t : Term}

theorem marked_callFlag (h : (callFlag callee).Ends σ t σ') (hσ : σ.env.Marked) :
    σ'.env.Marked ∧ σ'.env.flagSymbol callee ∈ σ'.env.symbols := by
  have hgrows := (ends_callFlag h hσ.flagged).1.env
  obtain ⟨hmem, rfl⟩ | ⟨rfl, n, hn, rfl⟩ := callFlag_cases h
  · exact ⟨hσ, (hσ _ hmem).2⟩
  · have hnew : σ.env.flagSymbol callee ∈ Environment.symbols { σ.env with
        introduced := n :: σ.env.introduced
        calls := σ.env.calls ++ [(callee, .const (σ.env.flagSymbol callee) .bool)] } :=
      List.mem_filterMap.mpr ⟨n, List.mem_cons_self .., by rw [hn]; rfl⟩
    refine ⟨fun p hp => ?_, hnew⟩
    rcases List.mem_append.mp hp with hp | hp
    · exact ⟨(hσ p hp).1, hgrows.symbols (hσ p hp).2⟩
    · obtain rfl := List.mem_singleton.mp hp
      exact ⟨rfl, hnew⟩

end Build

/-! ## §2 Two environments with one supply -/

theorem Session.Step.of_supply {s s' : Supply} (e : Environment) (hnodes : s.nodes ≤ s'.nodes)
    (hnames : s.names ≤ s'.names) : Session.Step ⟨s, e⟩ ⟨s', e⟩ :=
  ⟨.refl _, id, id, rfl, fun _ => rfl, hnodes, hnames⟩

namespace Twin

/-- What builders in two environments may do to either of them. -/
structure Steps (t : Twin) (ν : Nat → Constraint) (t' : Twin) (ν' : Nat → Constraint) : Prop where
  first : Session.Step ⟨t.supply, t.first⟩ ⟨t'.supply, t'.first⟩
  second : Session.Step ⟨t.supply, t.second⟩ ⟨t'.supply, t'.second⟩
  table : ∀ i < t.supply.nodes, ν' i = ν i

namespace Steps

variable {t' t'' : Twin} {ν ν' ν'' : Nat → Constraint} {c : Constraint}

theorem refl (t : Twin) (ν : Nat → Constraint) : t.Steps ν t ν :=
  ⟨.refl _, .refl _, fun _ _ => rfl⟩

theorem trans (h : t.Steps ν t' ν') (h' : t'.Steps ν' t'' ν'') : t.Steps ν t'' ν'' where
  first := h.first.trans h'.first
  second := h.second.trans h'.second
  table i hi := (h'.table i (hi.trans_le h.first.nodes)).trans (h.table i hi)

theorem lists (h : t.Steps ν t' ν') (hc : t.Lists ν c) : t'.Lists ν' c :=
  hc.mono h.first.nodes h.table

theorem onFirst {σ : Session} (h : Antecedent.Builds ⟨t.supply, t.first⟩ ν σ ν') :
    t.Steps ν ⟨σ.supply, σ.env, t.second⟩ ν' :=
  ⟨h.step, .of_supply _ h.step.nodes h.step.names, h.table⟩

theorem onSecond {σ : Session} (h : Antecedent.Builds ⟨t.supply, t.second⟩ ν σ ν') :
    t.Steps ν ⟨σ.supply, t.first, σ.env⟩ ν' :=
  ⟨.of_supply _ h.step.nodes h.step.names, h.step, h.table⟩

end Steps

end Twin

/-! ## §3 The names of the functions called -/

/-- Texts are kept when each label is listed once. -/
theorem Label.text_mem_distinct {s : String} {ls : List Label} (h : .text s ∈ ls) :
    .text s ∈ Label.distinct ls := by
  refine Label.mem_of_isAmong_text (Label.isAmong_distinct (List.any_eq_true.mpr ⟨_, h, ?_⟩))
  simp [Label.same]

namespace Comparator

variable {t' : Twin} {first second : Sub} {names names' : List String}

/-- The names are those of the callees that either side reaches, in order. -/
theorem ends_calledNames (h : (calledNames first second).Ends t names t') :
    t' = t ∧ ∃ mine others, t.first.reachableCallees first = .ok mine ∧
      t.second.reachableCallees second = .ok others ∧
      Label.sorted (mine ++ others) = .ok (names.map .text) := by
  simp only [calledNames, ends_bind, ends_get, ends_lift] at h
  obtain ⟨_, _, ⟨rfl, rfl⟩, mine, _, ⟨hmine, rfl⟩, others, _, ⟨hothers, rfl⟩, ls, _, ⟨hls, rfl⟩,
    h⟩ := h
  have htexts : t' = t ∧ ls = names.map .text := by
    clear hls hmine hothers
    induction ls generalizing names t with
    | nil =>
      obtain ⟨rfl, rfl⟩ := ends_mapM_nil.mp h
      exact ⟨rfl, rfl⟩
    | cons l ls ih =>
      obtain ⟨s, t1, hs, rest, hrest, rfl⟩ := ends_mapM_cons.mp h
      cases l with
      | text s' =>
        obtain ⟨rfl, rfl⟩ := ends_pure.mp hs
        obtain ⟨rfl, rfl⟩ := ih hrest
        exact ⟨rfl, rfl⟩
      | null | bool _ | int _ | float _ => exact (ends_throw.mp hs).elim
  obtain ⟨rfl, rfl⟩ := htexts
  exact ⟨rfl, mine, others, hmine, hothers, hls⟩

/-- The names stay the same as long as the subroutines known do. -/
theorem calledNames_unique (h : (calledNames first second).Ends t names t)
    (h' : (calledNames first second).Ends t' names' t') (hfirst : t'.first.subs = t.first.subs)
    (hsecond : t'.second.subs = t.second.subs) : names' = names := by
  obtain ⟨-, mine, others, hmine, hothers, hls⟩ := ends_calledNames h
  obtain ⟨-, mine', others', hmine', hothers', hls'⟩ := ends_calledNames h'
  simp only [Environment.reachableCallees, Environment.reach_congr hfirst, hfirst] at hmine' hmine
  simp only [Environment.reachableCallees, Environment.reach_congr hsecond, hsecond]
    at hothers' hothers
  obtain rfl := Except.ok.inj (hmine.symm.trans hmine')
  obtain rfl := Except.ok.inj (hothers.symm.trans hothers')
  have heq := Except.ok.inj (hls'.symm.trans hls)
  exact List.map_injective_iff.mpr (fun _ _ => Label.text.inj) heq

theorem text_mem_reachableCallees {e' : Environment} {sub : Sub} {ls : List Label}
    (h : e.reachableCallees sub = .ok ls) (hans : e'.AnswersAll sub) (hname : sub.Calls name) :
    .text name ∈ ls := by
  obtain ⟨b, hb, j, hj, hkind, hcallee⟩ := hname
  obtain ⟨name', htarget, hne, -⟩ := hans b hb j hj hkind
  obtain rfl : name = name' := by
    simpa [Jmp.callee, htarget, Json.truthy, hne] using hcallee.symm
  exact (Environment.explored_reachableCallees h).names name
    (Sub.mem_callees hb hj hkind htarget hne)

theorem mem_calledNames {e1 e2 : Environment} (h : (calledNames first second).Ends t names t')
    (hans1 : e1.AnswersAll first) (hans2 : e2.AnswersAll second)
    (hname : first.Calls name ∨ second.Calls name) : name ∈ names := by
  obtain ⟨-, mine, others, hmine, hothers, hls⟩ := ends_calledNames h
  have hmem : Label.text name ∈ mine ++ others := by
    rcases hname with hname | hname
    · exact List.mem_append_left _ (text_mem_reachableCallees hmine hans1 hname)
    · exact List.mem_append_right _ (text_mem_reachableCallees hothers hans2 hname)
  have hsorted := (Label.sortBy_perm hls).mem_iff.mpr (Label.text_mem_distinct hmem)
  obtain ⟨s, hs, heq⟩ := List.mem_map.mp hsorted
  exact Label.text.inj heq ▸ hs

/-! ## §4 The comparator of calls -/

variable {ν : Nat → Constraint} {c : Constraint}

theorem ends_firstFlag {a : Term} (h : (onFirst (Build.callFlag f)).Ends t a t')
    (hf : t.first.Flagged) : t.Steps ν t' ν ∧ a = .const (t.first.flagSymbol f) .bool := by
  obtain ⟨σ, hflag, rfl⟩ := ends_onFirst.mp h
  obtain ⟨hstep, -, rfl⟩ := Build.ends_callFlag hflag hf
  exact ⟨.onFirst (.of_step hstep), rfl⟩

theorem ends_secondFlag {b : Term} (h : (onSecond (Build.callFlag f)).Ends t b t')
    (hf : t.second.Flagged) : t.Steps ν t' ν ∧ b = .const (t.second.flagSymbol f) .bool := by
  obtain ⟨σ, hflag, rfl⟩ := ends_onSecond.mp h
  obtain ⟨hstep, -, rfl⟩ := Build.ends_callFlag hflag hf
  exact ⟨.onSecond (.of_step hstep), rfl⟩

theorem steps_conjunctionGoal {fs : List Term} (h : (conjunctionGoal name fs).Ends t c t') :
    ∃ ν', t.Steps ν t' ν' ∧ t'.Lists ν' c ∧
      ∀ b s, c.Holds b s ↔ ∀ f ∈ fs, f.holds (s.cutAs b) = true := by
  have hgoal : ∀ {name f}, (onFirst (Build.goal name f)).Ends t c t' →
      ∃ i ν', c = .goal i name f ∧ t.Steps ν t' ν' ∧ t'.Lists ν' c := by
    intro name f h
    obtain ⟨σ, hnode, rfl⟩ := ends_onFirst.mp h
    obtain ⟨i, ν', rfl, hb, hl⟩ := Build.ends_goal (ν := ν) hnode
    exact ⟨i, ν', rfl, .onFirst hb, hl⟩
  unfold conjunctionGoal at h
  split at h
  · obtain ⟨i, ν', rfl, hb, hl⟩ := hgoal h
    exact ⟨ν', hb, hl, by simp⟩
  · obtain ⟨i, ν', rfl, hb, hl⟩ := hgoal h
    exact ⟨ν', hb, hl, by simp⟩
  · obtain ⟨i, ν', rfl, hb, hl⟩ := hgoal h
    exact ⟨ν', hb, hl, by simp⟩

/-- Formulas about the two flags of some functions, made one after the other. -/
theorem ends_mapM_flags {F : String → Compare Term} {g : Term → Term → Term} {us : List Term}
    (hF : ∀ {f t u t'}, (F f).Ends t u t' → t.first.Flagged → t.second.Flagged →
      t.Steps ν t' ν ∧ u = g (.const (t.first.flagSymbol f) .bool)
        (.const (t.second.flagSymbol f) .bool))
    (h : (names.mapM F).Ends t us t') (hf1 : t.first.Flagged) (hf2 : t.second.Flagged) :
    t.Steps ν t' ν ∧ us = names.map fun f => g (.const (t.first.flagSymbol f) .bool)
      (.const (t.second.flagSymbol f) .bool) := by
  induction names generalizing t us with
  | nil =>
    obtain ⟨rfl, rfl⟩ := ends_mapM_nil.mp h
    exact ⟨.refl _ _, rfl⟩
  | cons f names ih =>
    obtain ⟨u, t1, hu, us, hus, rfl⟩ := ends_mapM_cons.mp h
    obtain ⟨hstep, rfl⟩ := hF hu hf1 hf2
    obtain ⟨hsteps, rfl⟩ := ih hus (hstep.first.flagged hf1) (hstep.second.flagged hf2)
    refine ⟨hstep.trans hsteps, ?_⟩
    simp only [List.map_cons, hstep.first.env.flagSymbol_eq, hstep.second.env.flagSymbol_eq]

/-- Both flags of a function have been introduced. -/
def Knows (t : Twin) (f : String) : Prop :=
  t.first.flagSymbol f ∈ t.first.symbols ∧ t.second.flagSymbol f ∈ t.second.symbols

theorem Knows.steps {ν' : Nat → Constraint} (h : Knows t f) (hsteps : t.Steps ν t' ν') :
    Knows t' f := by
  obtain ⟨h1, h2⟩ := h
  rw [Knows, hsteps.first.env.flagSymbol_eq, hsteps.second.env.flagSymbol_eq]
  exact ⟨hsteps.first.env.symbols h1, hsteps.second.env.symbols h2⟩

/-- The flags that the postcondition is about, on both sides. -/
theorem ends_impliesFlag {u : Term} (h : (do
      let b ← onSecond (Build.callFlag f)
      let a ← onFirst (Build.callFlag f)
      return Term.app .implies [b, a] : Compare Term).Ends t u t') :
    (t.first.Flagged → t.second.Flagged → t.Steps ν t' ν ∧ u = .app .implies
      [.const (t.second.flagSymbol f) .bool, .const (t.first.flagSymbol f) .bool]) ∧
    (t.first.Marked → t.second.Marked → t'.first.Marked ∧ t'.second.Marked ∧ Knows t' f) := by
  simp only [ends_bind, ends_pure] at h
  obtain ⟨b, t1, hb, a, _, ha, rfl, rfl⟩ := h
  refine ⟨fun hf1 hf2 => ?_, fun hm1 hm2 => ?_⟩
  · obtain ⟨hsteps1, rfl⟩ := ends_secondFlag (ν := ν) hb hf2
    obtain ⟨hsteps2, rfl⟩ := ends_firstFlag (ν := ν) ha (hsteps1.first.flagged hf1)
    exact ⟨hsteps1.trans hsteps2, by rw [hsteps1.first.env.flagSymbol_eq]⟩
  · obtain ⟨σ1, hsecond, rfl⟩ := ends_onSecond.mp hb
    obtain ⟨σ2, hfirst, rfl⟩ := ends_onFirst.mp ha
    obtain ⟨hm2, hmem2⟩ := Build.marked_callFlag hsecond hm2
    obtain ⟨hm1, hmem1⟩ := Build.marked_callFlag hfirst hm1
    exact ⟨hm1, hm2, hmem1, hmem2⟩

theorem knows_mapM_implies {us : List Term}
    (h : (names.mapM fun f => do
      let b ← onSecond (Build.callFlag f)
      let a ← onFirst (Build.callFlag f)
      return Term.app .implies [b, a] : Compare (List Term)).Ends t us t')
    (hm1 : t.first.Marked) (hm2 : t.second.Marked) : ∀ f ∈ names, Knows t' f := by
  induction names generalizing t us with
  | nil => simp
  | cons f names ih =>
    obtain ⟨u, t1, hu, us, hus, rfl⟩ := ends_mapM_cons.mp h
    obtain ⟨hm1', hm2', hknows⟩ := (ends_impliesFlag (ν := default) hu).2 hm1 hm2
    obtain ⟨hsteps, -⟩ := ends_mapM_flags (ν := default) (g := fun a b => .app .implies [b, a])
      (fun h => (ends_impliesFlag h).1) hus hm1'.flagged hm2'.flagged
    exact List.forall_mem_cons.mpr ⟨hknows.steps hsteps, ih hus hm1' hm2'⟩

theorem holds_flag (e : Environment) (f : String) (s : State) (b : Bool) :
    (Term.const (e.flagSymbol f) .bool).holds (s.cutAs b) = s.flag (e.flagSymbol f) := by
  have hne := e.flagSymbol_ne_cut f
  simp [Term.holds, State.const, State.cutAs, State.set, Value.isTrue, hne]

theorem ends_neitherFlag {u : Term} (h : (do
      let a ← onFirst (Build.callFlag f)
      let b ← onSecond (Build.callFlag f)
      return Term.app .and [.app .not [a], .app .not [b]] : Compare Term).Ends t u t')
    (hf1 : t.first.Flagged) (hf2 : t.second.Flagged) :
    t.Steps ν t' ν ∧ u = .app .and [.app .not [.const (t.first.flagSymbol f) .bool],
      .app .not [.const (t.second.flagSymbol f) .bool]] := by
  simp only [ends_bind, ends_pure] at h
  obtain ⟨a, t1, ha, b, _, hb, rfl, rfl⟩ := h
  obtain ⟨hsteps1, rfl⟩ := ends_firstFlag (ν := ν) ha hf1
  obtain ⟨hsteps2, rfl⟩ := ends_secondFlag (ν := ν) hb (hsteps1.second.flagged hf2)
  exact ⟨hsteps1.trans hsteps2, by rw [hsteps1.second.env.flagSymbol_eq]⟩

theorem ends_flagsGoal {F : String → Compare Term} {g : Term → Term → Term}
    (hF : ∀ {f t u t'}, (F f).Ends t u t' → t.first.Flagged → t.second.Flagged →
      t.Steps ν t' ν ∧ u = g (.const (t.first.flagSymbol f) .bool)
        (.const (t.second.flagSymbol f) .bool))
    (h : (do conjunctionGoal name (← (← calledNames first second).mapM F)).Ends t c t')
    (hf1 : t.first.Flagged) (hf2 : t.second.Flagged) :
    ∃ ν' names us t1, (calledNames first second).Ends t names t ∧ (names.mapM F).Ends t us t1 ∧
      t1.Steps ν t' ν' ∧ t.Steps ν t' ν' ∧ t'.Lists ν' c ∧
      ∀ b s, c.Holds b s ↔ ∀ f ∈ names, (g (.const (t'.first.flagSymbol f) .bool)
        (.const (t'.second.flagSymbol f) .bool)).holds (s.cutAs b) = true := by
  simp only [ends_bind] at h
  obtain ⟨names, t1, hnames, us, t2, hus, hc⟩ := h
  obtain ⟨rfl, -⟩ := ends_calledNames hnames
  obtain ⟨hsteps1, rfl⟩ := ends_mapM_flags hF hus hf1 hf2
  obtain ⟨ν', hsteps2, hl, hholds⟩ := steps_conjunctionGoal (ν := ν) hc
  have hsteps := hsteps1.trans hsteps2
  refine ⟨ν', names, _, t2, hnames, hus, hsteps2, hsteps, hl, fun b s => ?_⟩
  rw [hholds, List.forall_mem_map]
  simp only [hsteps.first.env.flagSymbol_eq, hsteps.second.env.flagSymbol_eq]

/-- **The hypothesis**: no flag is set on either side. -/
theorem ends_calls_hypothesis (h : (calls.hypothesis first second).Ends t c t')
    (hf1 : t.first.Flagged) (hf2 : t.second.Flagged) :
    ∃ ν' names, (calledNames first second).Ends t names t ∧ t.Steps ν t' ν' ∧ t'.Lists ν' c ∧
      ∀ b s, c.Holds b s ↔ ∀ f ∈ names,
        s.flag (t'.first.flagSymbol f) = false ∧ s.flag (t'.second.flagSymbol f) = false := by
  obtain ⟨ν', names, -, -, hnames, -, -, hsteps, hl, hholds⟩ := ends_flagsGoal (ν := ν)
    (g := fun a b => .app .and [.app .not [a], .app .not [b]]) ends_neitherFlag h hf1 hf2
  refine ⟨ν', names, hnames, hsteps, hl, fun b s => (hholds b s).trans ?_⟩
  refine forall₂_congr fun f _ => ?_
  simp [Term.holds_not, holds_flag]

/-- **The postcondition**: the flags set on the second side are set on the first one.  All of them
have been introduced. -/
theorem ends_calls_postcondition (h : (calls.postcondition first second).Ends t c t')
    (hm1 : t.first.Marked) (hm2 : t.second.Marked) :
    ∃ ν' names, (calledNames first second).Ends t names t ∧ t.Steps ν t' ν' ∧ t'.Lists ν' c ∧
      (∀ f ∈ names, Knows t' f) ∧
      ∀ b s, c.Holds b s ↔ ∀ f ∈ names,
        s.flag (t'.second.flagSymbol f) = true → s.flag (t'.first.flagSymbol f) = true := by
  obtain ⟨ν', names, us, t1, hnames, hus, hsteps1, hsteps, hl, hholds⟩ := ends_flagsGoal (ν := ν)
    (g := fun a b => .app .implies [b, a]) (fun h => (ends_impliesFlag h).1) h hm1.flagged
    hm2.flagged
  have hknows := knows_mapM_implies hus hm1 hm2
  refine ⟨ν', names, hnames, hsteps, hl, fun f hf => (hknows f hf).steps hsteps1,
    fun b s => (hholds b s).trans ?_⟩
  refine forall₂_congr fun f _ => ?_
  simp only [Term.holds_implies, holds_flag]
  cases s.flag (t'.second.flagSymbol f) <;> simp

end Comparator

/-! ## §5 Prepared environments -/

namespace Environment

variable {e' : Environment}

theorem resembles_freshen (h : e.freshen = .ok e') : e.Resembles e' := by
  obtain ⟨u, τ, hseed, rfl⟩ := ends_of_seeded h
  have hsame := (Build.ends_seed hseed).1.resembles
  exact ⟨hsame.arch, hsame.logic, hsame.subs, hsame.unroll, hsame.summaries, hsame.depth⟩

/-- A freshened environment has no flags yet. -/
theorem marked_freshen (h : e.freshen = .ok e') : e'.Marked := by
  obtain ⟨u, τ, hseed, rfl⟩ := ends_of_seeded h
  refine marked_of_nil (Build.ends_seed_induction (I := fun σ => σ.env.calls = [])
    (fun hget hσ => ?_) hseed rfl)
  obtain ⟨l, -, ⟨-, rfl⟩ | ⟨-, n, name, srt, -, -, -, -, rfl⟩⟩ := Build.getVar_cases hget
  · exact hσ
  · exact hσ

end Environment

theorem Twin.Prepared.resembles {t0 : Twin} (h : t.Prepared t0) (hm2 : t.second.Marked) :
    t.second.Resembles t0.second ∧ t0.second.Marked := by
  obtain ⟨-, h⟩ := h
  split at h
  · subst h
    exact ⟨⟨rfl, rfl, rfl, rfl, rfl, fun _ => rfl⟩, hm2⟩
  · obtain ⟨e, he, rfl⟩ := h
    exact ⟨Environment.resembles_freshen he, Environment.marked_freshen he⟩

/-! ## §6 Two runs -/

/-- A flag that was not set on entry is set on exit exactly if its function has been called, as long
as names have no null characters. -/
theorem Sub.Logs.flag_iff_mem {sub : Sub} {sites : Sites} {a s s' : State} {ns : List String}
    (hsub : sub.Traceable e sites) (hs : e.Sound) (h : sub.Logs e sites a s (.exit s') ns)
    (hnull : ∀ name, sub.Calls name → '\x00' ∉ name.toList) (hf : '\x00' ∉ f.toList)
    (hunset : s.flag (e.flagSymbol f) = false) : s'.flag (e.flagSymbol f) = true ↔ f ∈ ns := by
  rw [h.flag_iff hsub hs, hunset]
  constructor
  · rintro (hset | ⟨name, hname, heq⟩)
    · cases hset
    · rwa [← Environment.flagSymbol_inj (hnull name (h.calls hsub hs name hname)) hf heq]
  · exact fun hmem => .inr ⟨f, hmem, rfl⟩

/-- What is known of a comparison of calls: what is taken for granted and asked for are about the
flags of all functions that are called, and the conditions foretell the runs of both sides. -/
structure ComparesCalls (first second : Sub) (e1 e2 : Environment) (names : List String)
    (sites1 sites2 : Sites) (hyp post inner outer : Constraint) : Prop where
  complete : ∀ name, first.Calls name ∨ second.Calls name → name ∈ names
  knowsFirst : ∀ f ∈ names, e1.flagSymbol f ∈ e1.symbols
  knowsSecond : ∀ f ∈ names, e2.flagSymbol f ∈ e2.symbols
  assumes : ∀ b s, hyp.Holds b s ↔
    ∀ f ∈ names, s.flag (e1.flagSymbol f) = false ∧ s.flag (e2.flagSymbol f) = false
  demands : ∀ b s, post.Holds b s ↔
    ∀ f ∈ names, s.flag (e2.flagSymbol f) = true → s.flag (e1.flagSymbol f) = true
  first : first.Foresees e1 sites1 inner outer
  second : second.Foresees e2 sites2 post inner

namespace ComparesCalls

variable {first second : Sub} {e1 e2 : Environment} {names : List String} {sites1 sites2 : Sites}
  {hyp post inner outer : Constraint} {s s1 s2 : State} {o1 o2 : Ending} {ns1 ns2 : List String}
  (h : ComparesCalls first second e1 e2 names sites1 sites2 hyp post inner outer)
  (hs1 : e1.Sound) (hs2 : e2.Sound) (hdisjoint : ∀ x ∈ e1.symbols, x ∉ e2.symbols)
include h hdisjoint

/-- No function has a null character in its name: its flag would be the same on both sides. -/
theorem null_notMem (hf : f ∈ names) : '\x00' ∉ f.toList := by
  intro hnull
  refine hdisjoint _ (h.knowsFirst f hf) ?_
  rw [Environment.flagSymbol_eq_of_null hnull e1 e2]
  exact h.knowsSecond f hf

include hs1

/-- The first run leaves the second side alone. -/
theorem patch_first (hrun : first.Logs e1 sites1 s s (.exit s1) ns1) :
    s1.patch e2.symbols s = s1 := by
  have hpatch := hrun.patch h.first.traceable hs1 fun name hname =>
    h.knowsFirst name (h.complete name (.inl hname))
  rw [← hpatch]
  exact State.patch_patch_of_disjoint hdisjoint s s1

theorem fair_first (hrun : first.Logs e1 sites1 s s (.exit s1) ns1) : e2.Fair s s1 := by
  have hpatch := h.patch_first hs1 hdisjoint hrun
  refine ⟨?_, fun x hx w _ => ?_⟩
  · have hown := hrun.patch h.first.traceable hs1 fun name hname =>
      h.knowsFirst name (h.complete name (.inl hname))
    rw [← hown]
    rfl
  · rw [← hpatch, State.const_patch_mem hx]

include hs2

/-- And the second run goes the same way after the first one. -/
theorem logs_second (he2 : e2.hooks = []) (hrun1 : first.Logs e1 sites1 s s (.exit s1) ns1)
    (hrun2 : second.Logs e2 sites2 s s o2 ns2) :
    second.Logs e2 sites2 s s1 (o2.map fun s => s1.patch e2.symbols s) ns2 := by
  have hframe := hrun2.frame h.second.traceable he2 hs2 (hs2.frame_right s1)
    fun name hname s => State.patch_set_mem (h.knowsSecond name (h.complete name (.inr hname)))
  rwa [h.patch_first hs1 hdisjoint hrun1] at hframe

/-- Where both runs leave, the flags set on the second side are set on the first one exactly if the
functions called by the second run are called by the first one. -/
theorem demands_iff (hhyp : hyp.Holds true s) (hrun1 : first.Logs e1 sites1 s s (.exit s1) ns1)
    (hrun2 : second.Logs e2 sites2 s s (.exit s2) ns2) :
    post.Holds true (s1.patch e2.symbols s2) ↔ ns2 ⊆ ns1 := by
  have hnone := (h.assumes true s).mp hhyp
  have hcalls2 := hrun2.calls h.second.traceable hs2
  have hnull := fun name hname => h.null_notMem hdisjoint (h.complete name hname)
  -- the flags of the first side are those of its exit, and so are those of the second side
  have hflag1 : ∀ f ∈ names, (s1.patch e2.symbols s2).flag (e1.flagSymbol f) = true ↔ f ∈ ns1 := by
    intro f hf
    have hout := hdisjoint _ (h.knowsFirst f hf)
    rw [← hrun1.flag_iff_mem h.first.traceable hs1 (fun name hname => hnull name (.inl hname))
      (h.null_notMem hdisjoint hf) (hnone f hf).1]
    simp [State.patch, hout]
  have hflag2 : ∀ f ∈ names, (s1.patch e2.symbols s2).flag (e2.flagSymbol f) = true ↔ f ∈ ns2 := by
    intro f hf
    rw [← hrun2.flag_iff_mem h.second.traceable hs2 (fun name hname => hnull name (.inr hname))
      (h.null_notMem hdisjoint hf) (hnone f hf).2]
    simp [State.patch, h.knowsSecond f hf]
  rw [h.demands]
  constructor
  · intro hall f hf
    have hmem := h.complete f (.inr (hcalls2 f hf))
    exact (hflag1 f hmem).mp (hall f hmem ((hflag2 f hmem).mpr hf))
  · exact fun hsub f hf hset => (hflag1 f hf).mpr (hsub ((hflag2 f hf).mp hset))

/-- **Two runs**: the precondition is true exactly if one of the runs is cut, or the functions that
the second one calls are called by the first one. -/
theorem holds_iff (he2 : e2.hooks = []) (hsorted : outer.Sorted) (hhyp : hyp.Holds true s)
    (hrun1 : first.Logs e1 sites1 s s o1 ns1) (hrun2 : second.Logs e2 sites2 s s o2 ns2) :
    outer.Holds true s ↔ o1 = .cut ∨ o2 = .cut ∨ ns2 ⊆ ns1 := by
  have hpredict1 := h.first.predicts s s o1 ns1 (.refl _ _) hrun1
  rw [hpredict1.holds_iff hsorted]
  rcases hrun1.exit_or_cut with ⟨s1, rfl⟩ | rfl
  · have hrun2' := h.logs_second hs1 hs2 hdisjoint he2 hrun1 hrun2
    have hpredict2 := h.second.predicts s s1 _ ns2 (h.fair_first hs1 hdisjoint hrun1) hrun2'
    have hinner := hpredict2.holds_iff (hsorted.of_mem hpredict1.below) true
    simp only [Ending.Accepts, hinner, reduceCtorEq, false_or]
    rcases hrun2.exit_or_cut with ⟨s2, rfl⟩ | rfl
    · simp [Ending.map, h.demands_iff hs1 hs2 hdisjoint hhyp hrun1 hrun2]
    · simp [Ending.map]
  · simp [Ending.Accepts]

end ComparesCalls

/-! ## §7 The comparison -/

theorem Compare.ends_singleton {act : Compare Constraint} {t' : Twin} {cs : List Constraint}
    (h : ([act].mapM id).Ends t cs t') : ∃ c, cs = [c] ∧ act.Ends t c t' := by
  obtain ⟨c, _, hc, _, hnil, rfl⟩ := ends_mapM_cons.mp h
  obtain ⟨rfl, rfl⟩ := ends_mapM_nil.mp hnil
  exact ⟨c, rfl, hc⟩

/-- **The comparison of calls** is about the runs of both sides. -/
theorem Compares.comparesCalls {first second : Sub} {t' : Twin} {ps hs : List Constraint}
    {c : Constraint} (h : Compares [Comparator.calls.postcondition first second]
      [Comparator.calls.hypothesis first second] first second t ps hs c t') (hs1 : t.first.Sound)
    (hs2 : t.second.Sound) (hm1 : t.first.Marked) (hm2 : t.second.Marked)
    (hhooks1 : t.first.hooks = []) (hhooks2 : t.second.hooks = [])
    (hans1 : t.first.AnswersAll first) (hans2 : t.second.AnswersAll second)
    (hknown1 : first.IsKnown) (hknown2 : second.IsKnown) (hnew1 : t'.first.Reserves first)
    (hnew2 : t'.second.Reserves second) :
    t'.first.Sound ∧ t'.second.Sound ∧ t'.first.hooks = [] ∧ t'.second.hooks = [] ∧
      ∃ ν i hyp post inner outer names sites1 sites2, hs = [hyp] ∧ c = .clause i [hyp] [outer] ∧
        t'.Lists ν c ∧ t'.Lists ν hyp ∧ first.Tables t'.first sites1 ∧
        second.Tables t'.second sites2 ∧
        ComparesCalls first second t'.first t'.second names sites1 sites2 hyp post inner outer := by
  obtain ⟨t0, t1, t2, t3, t4, t5, post, inner, outer, hprep, hps, hpost, hinner, houter, hhs,
    hc⟩ := h
  obtain ⟨hfirst, hs2, hhooks, -, -⟩ := hprep.keeps hs2
  obtain ⟨hsame, hm2⟩ := hprep.resembles hm2
  rw [← hfirst] at hs1 hm1 hhooks1 hans1
  rw [← hhooks] at hhooks2
  have hans2 := hsame.answersAll hans2
  rw [ends_onFirst] at hpost houter hc
  rw [ends_onSecond] at hinner
  -- the flags on exit, all of which are introduced here
  obtain ⟨p, rfl, hp⟩ := Compare.ends_singleton hps
  obtain ⟨ν1, names, hnames, hst1, hl1, hknows, hdemands⟩ :=
    Comparator.ends_calls_postcondition (ν := default) hp hm1 hm2
  obtain ⟨σ2, hpost, rfl⟩ := hpost
  obtain ⟨j, ν2, rfl, hb2, hl2⟩ := Build.ends_clause (ν := ν1) hpost (by simp)
    (List.forall_mem_singleton.mpr hl1)
  have hst2 := Twin.Steps.onFirst hb2
  have hto2 := hst1.trans hst2
  -- the precondition of the second subroutine
  obtain ⟨σ3, hinner, rfl⟩ := hinner
  obtain ⟨ν3, sites2, hb3, hl3, htable2, hforesees2⟩ := Build.ends_precondition_of_answers
    (ν := ν2) hinner (hto2.second.env.hooks.trans hhooks2) (hto2.second.flagged hm2.flagged)
    (hto2.second.resembles.answersAll hans2) hknown2 hl2
  have hst3 := Twin.Steps.onSecond hb3
  have hto3 := hto2.trans hst3
  -- the precondition of the first subroutine
  obtain ⟨σ4, houter, rfl⟩ := houter
  obtain ⟨ν4, sites1, hb4, hl4, htable1, hforesees1⟩ := Build.ends_precondition_of_answers
    (ν := ν3) houter (hto3.first.env.hooks.trans hhooks1) (hto3.first.flagged hm1.flagged)
    (hto3.first.resembles.answersAll hans1) hknown1 hl3
  have hst4 := Twin.Steps.onFirst hb4
  have hto4 := hto3.trans hst4
  -- the flags on entry
  obtain ⟨q, rfl, hq⟩ := Compare.ends_singleton hhs
  obtain ⟨ν5, names', hnames', hst5, hl5, hassumes⟩ := Comparator.ends_calls_hypothesis (ν := ν4) hq
    (hto4.first.flagged hm1.flagged) (hto4.second.flagged hm2.flagged)
  obtain rfl := Comparator.calledNames_unique hnames hnames' hto4.first.resembles.subs
    hto4.second.resembles.subs
  obtain ⟨σ6, hc, rfl⟩ := hc
  obtain ⟨i, ν6, rfl, hb6, hl6⟩ := Build.ends_clause (ν := ν5) hc
    (List.forall_mem_singleton.mpr hl5) (List.forall_mem_singleton.mpr (hst5.lists hl4))
  -- what was known along the way is still known at the end
  have hst6 := Twin.Steps.onFirst hb6
  have hend := hst5.trans hst6
  have hall := hto4.trans hend
  have hknows' := fun f hf => (hknows f hf).steps (((hst2.trans hst3).trans hst4).trans hend)
  have hsound1 := hall.first.sound hs1
  have hsound2 := hall.second.sound hs2
  have htable1 := htable1.step hend.first
  have htable2 := htable2.step (hst4.trans hend).second
  refine ⟨hsound1, hsound2, hall.first.env.hooks.trans hhooks1, hall.second.env.hooks.trans hhooks2,
    ν6, i, q, .clause j [] [p], inner, outer, names', sites1, sites2, rfl, rfl, hl6, hst6.lists hl5,
    htable1, htable2, ?_⟩
  exact {
    complete := fun name => Comparator.mem_calledNames hnames hans1 hans2
    knowsFirst := fun f hf => (hknows' f hf).1
    knowsSecond := fun f hf => (hknows' f hf).2
    assumes := fun b s => by
      simp [hassumes, hst6.first.env.flagSymbol_eq]
    demands := fun b s => by
      simp [hdemands, hall.first.env.flagSymbol_eq, hall.second.env.flagSymbol_eq,
        hst1.first.env.flagSymbol_eq, hst1.second.env.flagSymbol_eq]
    first := hforesees1 _ hend.first.env hsound1 (htable1.isNew hnew1)
    second := hforesees2 _ (hst4.trans hend).second.env hsound2 (htable2.isNew hnew2) }

/-! ## §8 A roll of the die -/

theorem Environment.freshSymbol_ne_text {stem s : String} {c d : Char} {cs ds : List Char}
    (hstem : stem.toList = c :: cs) (hs : s.toList = d :: ds) (hne : c ≠ d) (hc : c ≠ '\x00')
    (n : Nat) : e.freshSymbol stem n ≠ .text s := by
  have htext : (s!"{stem}_{n}" ++ e.suffix).toList =
      c :: (cs ++ ("_" ++ toString n ++ e.suffix).toList) := by
    simp [hstem, toString]
  rw [freshSymbol, Symbol.ofText, htext, List.takeWhile_cons_of_pos (by simpa using hc)]
  intro heq
  have hlists := congrArg String.toList (Symbol.text.inj heq)
  rw [String.toList_ofList, hs] at hlists
  exact hne (List.cons.inj hlists).1

/-- The name of a function, plain or with a null character. -/
def dieName (null : Bool) : String :=
  if null then "die\x00" else "die"

def die (null : Bool) : Sub where
  name := .str (dieName null)
  args := [{ var := counter, intent := .str "out" }]

/-- Calls this function if the counter is not zero, and leaves. -/
def rollJmp (null : Bool) : Jmp where
  tid := .str "roll"
  kind := .call
  cond := .binop .neq (.var counter) (.int 0 (.int 8))
  target := .str (dieName null)

@[inherit_doc rollJmp]
def rollBlk (null : Bool) : Blk where
  tid := .str "only"
  jmps := [rollJmp null]

@[inherit_doc rollBlk]
def roll (null : Bool) : Sub where
  name := .str "roll"
  blks := [rollBlk null]

/-- Its flow has this block only. -/
def rollFlow (null : Bool) : Flow :=
  ⟨.str "roll", [⟨.text "only", rollBlk null, []⟩], []⟩

/-- What the flag of the function is called on either side, and the constant that a call makes. -/
def dieFlagName (null fresh : Bool) : String :=
  "called_" ++ dieName null ++ if fresh then "_mod" else ""

@[inherit_doc dieFlagName]
def pipsName (null fresh : Bool) : String :=
  let stem := dieName null ++ "_" ++ "n"
  if fresh then Environment.numbered stem 1 ++ "_mod" else Environment.numbered stem 2

def dieFlag (null fresh : Bool) : Term :=
  .const (.ofText (dieFlagName null fresh)) .bool

def pips (null fresh : Bool) : Term :=
  .const (.ofText (pipsName null fresh)) (.bits 8)

/-- An environment that knows the counter and the function, with some flags and names. -/
def dieEnv (null fresh : Bool) (calls : List (String × Term)) (made : List String) : Environment :=
  { counterEnv fresh with
    subs := [die null]
    summaries := Summary.standard [] true
    calls := calls
    introduced := made.map .text }

/-- The environment at the start, with the flag at hand, and after the call. -/
def dieBefore (null fresh : Bool) : Environment :=
  dieEnv null fresh [] [counterName fresh]

@[inherit_doc dieBefore]
def dieMarked (null fresh : Bool) : Environment :=
  dieEnv null fresh [(dieName null, dieFlag null fresh)] [dieFlagName null fresh, counterName fresh]

@[inherit_doc dieBefore]
def dieAfter (null fresh : Bool) : Environment :=
  dieEnv null fresh [(dieName null, dieFlag null fresh)]
    [pipsName null fresh, dieFlagName null fresh, counterName fresh]

/-- Two environments, the second one with constants of its own. -/
def dieTwin (null : Bool) : Twin where
  first := dieBefore null false
  second := dieBefore null true

/-- The numbers taken before the precondition of either side, and after it.  The second side is
treated first. -/
def rollSupply (fresh : Bool) : Supply :=
  bif fresh then { nodes := 2 } else { nodes := 5, names := 1 }

@[inherit_doc rollSupply]
def rolledSupply (fresh : Bool) : Supply :=
  bif fresh then { nodes := 5, names := 1 } else { nodes := 8, names := 2 }

/-- The counter is not zero. -/
def counterIsSet (fresh : Bool) : Term :=
  .app .eq [.num 1 1, .app .ite [.app .distinct [.num 8 0, counterTerm fresh], .num 1 1, .num 1 0]]

/-- The condition before the call. -/
def diePre (null fresh : Bool) (post : Constraint) : Constraint :=
  let i := (rollSupply fresh).nodes
  .subst (i + 1) (.subst i post [(dieFlag null fresh, .lit true)])
    [(counterTerm fresh, pips null fresh)]

/-- The condition before the roll. -/
def rollPre (null fresh : Bool) (post : Constraint) : Constraint :=
  .ite ((rollSupply fresh).nodes + 2) (.str "roll") (counterIsSet fresh) (diePre null fresh post)
    post

/-- The functions called on the second side are called on the first one. -/
def subsetGoal (null : Bool) : Constraint :=
  .goal 0 "modified calls a subset of original calls"
    (.app .implies [dieFlag null true, dieFlag null false])

def neitherGoal (i : Nat) (null : Bool) : Constraint :=
  .goal i "no function called on entry"
    (.app .and [.app .not [dieFlag null false], .app .not [dieFlag null true]])

def rollsAlike : Constraint :=
  .clause 9 [neitherGoal 8 false]
    [rollPre false false (rollPre false true (.clause 1 [] [subsetGoal false]))]

/-- Both sides after the comparison. -/
def rolledTwin : Twin :=
  ⟨{ nodes := 10, names := 2 }, dieAfter false false, dieAfter false true⟩

section Roll

variable (null fresh : Bool) (calls : List (String × Term)) (made : List String)

theorem flow_roll : (roll null).flow = .ok (rollFlow null) := by
  cases null <;> rfl

theorem subNamed_die : (dieEnv null fresh calls made).subNamed (dieName null) = die null := by
  cases null <;> rfl

theorem resolve_die : (dieEnv null fresh calls made).resolve (die null) = .ok .arguments := by
  cases null <;> rfl

theorem callee_rollJmp : (rollJmp null).callee = .ok (dieName null) := by
  cases null <;> rfl

theorem sound_dieBefore : (dieBefore null fresh).Sound :=
  sound_counterEnv fresh

theorem isKnown_roll : (roll null).IsKnown := by
  simp [Sub.IsKnown, roll, Blk.IsKnown, rollBlk, rollJmp, Expr.isKnown]

theorem answersAll_roll : (dieBefore null fresh).AnswersAll (roll null) := by
  simp only [Environment.AnswersAll, roll, rollBlk, List.forall_mem_singleton]
  refine fun _ => ⟨dieName null, rfl, by cases null <;> decide, fun s hs => ?_⟩
  rw [dieBefore, subNamed_die, resolve_die] at hs
  obtain rfl := Except.ok.inj hs
  rfl

theorem reserves_roll : (dieAfter null fresh).Reserves (roll null) := by
  intro name s hcalls hs c hc n w howns
  obtain ⟨b, hb, j, hj, -, hcallee⟩ := hcalls
  obtain rfl := List.mem_singleton.mp hb
  obtain rfl := List.mem_singleton.mp hj
  obtain rfl := Except.ok.inj ((callee_rollJmp null).symm.trans hcallee)
  rw [dieAfter, subNamed_die] at hs hc
  obtain rfl := Except.ok.inj ((resolve_die ..).symm.trans hs)
  have hname : (dieAfter null fresh).freshSymbol c.stem n = .text (counterName fresh) :=
    (Term.const.inj (List.mem_singleton.mp howns)).1
  have hstem : c.stem = dieName null ++ ("_" ++ "n") := by
    obtain rfl := List.mem_singleton.mp hc
    exact String.append_assoc
  -- the two names start with different characters, whatever the number
  obtain ⟨cs, hcs⟩ : ∃ cs, c.stem.toList = 'd' :: cs := by
    rw [hstem, String.toList_append]
    cases null <;> exact ⟨_, rfl⟩
  obtain ⟨ds, hds⟩ : ∃ ds, (counterName fresh).toList = 'n' :: ds := by
    cases fresh <;> exact ⟨_, rfl⟩
  exact Environment.freshSymbol_ne_text hcs hds (by decide) (by decide) n hname

set_option maxRecDepth 1000 in
theorem ends_roll (post : Constraint) :
    (precondition post (roll null)).Ends ⟨rollSupply fresh, dieMarked null fresh⟩
      (rollPre null fresh post) ⟨rolledSupply fresh, dieAfter null fresh⟩ := by
  cases null <;> cases fresh <;> exact rfl

end Roll

theorem ends_rolls :
    (compareSubs [Comparator.calls.postcondition (roll false) (roll false)]
      [Comparator.calls.hypothesis (roll false) (roll false)] (roll false) (roll false)).Ends
      (dieTwin false) rollsAlike rolledTwin :=
  ends_compareSubs.mpr ⟨[subsetGoal false], [neitherGoal 8 false], dieTwin false,
    ⟨{ nodes := 1 }, dieMarked false false, dieMarked false true⟩,
    ⟨rollSupply true, dieMarked false false, dieMarked false true⟩,
    ⟨rollSupply false, dieMarked false false, dieAfter false true⟩,
    ⟨rolledSupply false, dieAfter false false, dieAfter false true⟩,
    ⟨{ nodes := 9, names := 2 }, dieAfter false false, dieAfter false true⟩, _, _, _,
    ⟨rfl, rfl⟩, rfl, rfl, ends_onSecond.mpr ⟨_, ends_roll false true _, rfl⟩,
    ends_onFirst.mpr ⟨_, ends_roll false false _, rfl⟩, rfl, rfl⟩

theorem flatten_rollsAlike : rollsAlike.flatten? true = .ok (rollsAlike.flatten true) := by
  have hcoherent : rollsAlike.Coherent := by
    simp [Constraint.Coherent, rollsAlike, rollPre, diePre, rollSupply, subsetGoal, neitherGoal,
      Constraint.subtrees, Constraint.subtreesList, Constraint.id]
  refine (hcoherent.flatten?_eq ?_ true).1
  simp [rollsAlike, rollPre, diePre, subsetGoal, neitherGoal, Replacement.keepsSorts, counterTerm,
    pips, dieFlag, Term.sort]

/-! ## §9 The functions called -/

/-- **The comparison of calls**: in every state in which no flag is set, the condition that compares
the calls of two subroutines is true exactly if one of the two runs is cut, or the functions that
the second run calls are among those that the first one calls.  In these runs a call comes back with
the values of its own constants and functions in the variables that it writes. -/
theorem compareSubs_calls_iff {first second : Sub} {t t' : Twin} {c : Constraint} {φ : Term}
    (hrun : (compareSubs [Comparator.calls.postcondition first second]
      [Comparator.calls.hypothesis first second] first second).Ends t c t')
    (hs1 : t.first.Sound) (hs2 : t.second.Sound) (hm1 : t.first.Marked) (hm2 : t.second.Marked)
    (hhooks1 : t.first.hooks = []) (hhooks2 : t.second.hooks = [])
    (hans1 : t.first.AnswersAll first) (hans2 : t.second.AnswersAll second)
    (hknown1 : first.IsKnown) (hknown2 : second.IsKnown) (hnew1 : t'.first.Reserves first)
    (hnew2 : t'.second.Reserves second)
    (hdisjoint : ∀ x ∈ t'.first.symbols, x ∉ t'.second.symbols) (hφ : c.flatten? true = .ok φ) :
    ∃ ps hs sites1 sites2,
      Compares [Comparator.calls.postcondition first second]
        [Comparator.calls.hypothesis first second] first second t ps hs c t' ∧
      first.Tables t'.first sites1 ∧ second.Tables t'.second sites2 ∧
      ∀ s, (∀ h ∈ hs, (h.flatten true).holds s = true) →
        ∃ o1 ns1 o2 ns2, first.Logs t'.first sites1 s s o1 ns1 ∧
          second.Logs t'.second sites2 s s o2 ns2 ∧
          (φ.holds s = true ↔ o1 = .cut ∨ o2 = .cut ∨ ns2 ⊆ ns1) := by
  obtain ⟨ps, hs, hcomp⟩ := ends_compareSubs.mp hrun
  obtain ⟨hs1, hs2, he1, he2, ν, i, hyp, post, inner, outer, names, sites1, sites2, rfl, rfl, hl,
    hlh, htable1, htable2, hcalls⟩ :=
    hcomp.comparesCalls hs1 hs2 hm1 hm2 hhooks1 hhooks2 hans1 hans2 hknown1 hknown2 hnew1 hnew2
  obtain ⟨hsort, rfl⟩ := hl.flatten?_eq_ok.mp hφ
  have houter : outer.Sorted := by simpa using (Constraint.sorted_clause.mp hsort).2
  refine ⟨ps, [hyp], sites1, sites2, hcomp, htable1, htable2, fun s hholds => ?_⟩
  have hhyp : hyp.Holds true s :=
    (hlh.holds_flatten true s).mp (hholds hyp (List.mem_singleton_self _))
  obtain ⟨o1, ns1, hrun1⟩ := hcalls.first.traceable.logs he1 s s
  obtain ⟨o2, ns2, hrun2⟩ := hcalls.second.traceable.logs he2 s s
  refine ⟨o1, ns1, o2, ns2, hrun1, hrun2, ?_⟩
  rw [← hcalls.holds_iff hs1 hs2 hdisjoint he2 houter hhyp hrun1 hrun2, hl.holds_flatten]
  simp [hhyp]

/-- Two rolls compare as alike in a state exactly if the second one calls nothing that the first one
does not. -/
theorem compareSubs_calls_iff_roll : ∃ ps hs sites1 sites2,
    Compares [Comparator.calls.postcondition (roll false) (roll false)]
      [Comparator.calls.hypothesis (roll false) (roll false)] (roll false) (roll false)
      (dieTwin false) ps hs rollsAlike rolledTwin ∧
    (roll false).Tables rolledTwin.first sites1 ∧ (roll false).Tables rolledTwin.second sites2 ∧
    ∀ s, (∀ h ∈ hs, (h.flatten true).holds s = true) →
      ∃ o1 ns1 o2 ns2, (roll false).Logs rolledTwin.first sites1 s s o1 ns1 ∧
        (roll false).Logs rolledTwin.second sites2 s s o2 ns2 ∧
        ((rollsAlike.flatten true).holds s = true ↔ o1 = .cut ∨ o2 = .cut ∨ ns2 ⊆ ns1) :=
  compareSubs_calls_iff ends_rolls (sound_dieBefore false false) (sound_dieBefore false true)
    (Environment.marked_of_nil rfl) (Environment.marked_of_nil rfl) rfl rfl
    (answersAll_roll false false) (answersAll_roll false true) (isKnown_roll false)
    (isKnown_roll false) (reserves_roll false false) (reserves_roll false true) (by decide)
    flatten_rollsAlike

/-! ## §10 Functions that share a flag

The symbol of a name ends at the first null character, and the suffix of a freshened name comes
after it.  So the flags of a function may be the same on both sides, though their names differ. -/

def idle : Sub :=
  .straight []

def idleAlike : Constraint :=
  .clause 6 [neitherGoal 5 true] [rollPre true true (.clause 1 [] [subsetGoal true])]

/-- Both sides after the comparison. -/
def idleTwin : Twin :=
  ⟨{ nodes := 7, names := 1 }, dieMarked true false, dieAfter true true⟩

theorem ends_idle :
    (compareSubs [Comparator.calls.postcondition idle (roll true)]
      [Comparator.calls.hypothesis idle (roll true)] idle (roll true)).Ends
      (dieTwin true) idleAlike idleTwin :=
  ends_compareSubs.mpr ⟨[subsetGoal true], [neitherGoal 5 true], dieTwin true,
    ⟨{ nodes := 1 }, dieMarked true false, dieMarked true true⟩,
    ⟨rollSupply true, dieMarked true false, dieMarked true true⟩,
    ⟨rolledSupply true, dieMarked true false, dieAfter true true⟩,
    ⟨rolledSupply true, dieMarked true false, dieAfter true true⟩,
    ⟨{ nodes := 6, names := 1 }, dieMarked true false, dieAfter true true⟩, _, _, _,
    ⟨rfl, rfl⟩, rfl, rfl, ends_onSecond.mpr ⟨_, ends_roll true true _, rfl⟩, rfl, rfl, rfl⟩

/-- What is true after a roll in any case is true before it. -/
theorem holds_rollPre {null fresh : Bool} {post : Constraint} (h : ∀ s, post.Holds true s)
    (s : State) : (rollPre null fresh post).Holds true s := by
  have hflag : Symbol.ofText (dieFlagName null fresh) ≠ cutSymbol := by
    cases null <;> cases fresh <;> decide
  have hpips : ((Term.const (.ofText (pipsName null fresh)) (.bits 8)).eval s).Fits (.bits 8) := by
    simp [State.fits_const]
  rw [rollPre, Constraint.holds_ite]
  split
  · rw [diePre, counterTerm, pips, dieFlag,
      Constraint.holds_subst (.inr (by simp)) (.const (by simp)) hpips,
      Constraint.holds_subst (.inl hflag) (.lit true) (by simp [Value.Fits])]
    exact h _
  · exact h s

/-- The two flags are one, so that the condition is always true. -/
theorem holds_idleAlike (s : State) : idleAlike.Holds true s := by
  have hsame : dieFlag true true = dieFlag true false := rfl
  have hsubset : ∀ s, (Constraint.clause 1 [] [subsetGoal true]).Holds true s := by
    simp [subsetGoal, hsame, Term.holds_implies]
  rw [idleAlike, Constraint.holds_clause, List.forall_mem_singleton]
  exact fun _ => List.forall_mem_singleton.mpr (holds_rollPre hsubset s)

theorem logs_idle (e : Environment) (sites : Sites) (s : State) :
    idle.Logs e sites s s (.exit s) [] :=
  (Sub.logs_iff (Sub.flow_straight []) rfl).mpr (.leave rfl rfl (j := none) rfl rfl)

def ones : State :=
  { State.zero with word := fun _ _ => 1 }

/-- The roll calls its function if the counter is not zero. -/
theorem calls_of_logs_roll {null fresh : Bool} {sites : Sites} {a : State} {o : Ending}
    {ns : List String} (h : (roll null).Logs (dieAfter null fresh) sites a ones o ns) :
    o ≠ .cut ∧ ns = [dieName null] := by
  have hblock : (rollBlk null).run (dieAfter null fresh) ones =
      .ok (ones, some (rollJmp null)) := by
    cases null <;> cases fresh <;> rfl
  -- control leaves by the call
  have hleaves : ∀ {s site names t}, (rollJmp null).hop? (dieAfter null fresh) a ones site =
      some (s, names, t) → t = .outside ∧ names = [dieName null] := by
    intro s site names t hhop
    obtain ⟨hkind, -⟩ | ⟨-, name, own, hname, -, ht, -, rfl⟩ := Jmp.hop?_cases hhop
    · exact absurd rfl hkind
    · obtain rfl := Except.ok.inj ((callee_rollJmp null).symm.trans hname)
      exact ⟨(Option.some.inj ht).symm, rfl⟩
  cases (Sub.logs_iff (flow_roll null) rfl).mp h with
  | cut hcut => cases hcut
  | leave _ hnode hrun hhop =>
    cases hnode
    cases hblock.symm.trans hrun
    exact ⟨by simp, (hleaves hhop).2⟩
  | go _ hnode hrun hhop _ =>
    cases hnode
    cases hblock.symm.trans hrun
    cases (hleaves hhop).1

/-- It is not enough that the two sides introduce different names. -/
theorem not_calls_iff_of_disjoint_names :
    ¬∀ (first second : Sub) (t t' : Twin) (c : Constraint) (φ : Term),
      (compareSubs [Comparator.calls.postcondition first second]
        [Comparator.calls.hypothesis first second] first second).Ends t c t' →
      t.first.Sound → t.second.Sound → t.first.Marked → t.second.Marked → t.first.hooks = [] →
      t.second.hooks = [] → t.first.AnswersAll first → t.second.AnswersAll second →
      first.IsKnown → second.IsKnown → t'.first.Reserves first → t'.second.Reserves second →
      (∀ x ∈ t'.first.introduced, x ∉ t'.second.introduced) → c.flatten? true = .ok φ →
      ∃ ps hs sites1 sites2,
        Compares [Comparator.calls.postcondition first second]
          [Comparator.calls.hypothesis first second] first second t ps hs c t' ∧
        first.Tables t'.first sites1 ∧ second.Tables t'.second sites2 ∧
        ∀ s, (∀ h ∈ hs, (h.flatten true).holds s = true) →
          ∃ o1 ns1 o2 ns2, first.Logs t'.first sites1 s s o1 ns1 ∧
            second.Logs t'.second sites2 s s o2 ns2 ∧
            (φ.holds s = true ↔ o1 = .cut ∨ o2 = .cut ∨ ns2 ⊆ ns1) := by
  intro hall
  have hknown : idle.IsKnown := Sub.isKnown_straight (by simp)
  have hanswers : (dieBefore true false).AnswersAll idle := by
    simp [Environment.AnswersAll, idle, Sub.straight]
  have hreserves : (dieMarked true false).Reserves idle := by
    intro name s hcalls
    obtain ⟨b, hb, j, hj, -⟩ := hcalls
    obtain rfl := List.mem_singleton.mp hb
    cases hj
  have hcoherent : idleAlike.Coherent := by
    simp [Constraint.Coherent, idleAlike, rollPre, diePre, rollSupply, subsetGoal, neitherGoal,
      Constraint.subtrees, Constraint.subtreesList, Constraint.id]
  obtain ⟨hflatten, hholds⟩ := hcoherent.flatten?_eq (by simp [idleAlike, rollPre, diePre,
    subsetGoal, neitherGoal, Replacement.keepsSorts, counterTerm, pips, dieFlag, Term.sort]) true
  obtain ⟨ps, hs, sites1, sites2, hcomp, -, -, hiff⟩ := hall _ _ _ _ _ _ ends_idle
    (sound_dieBefore true false) (sound_dieBefore true true) (Environment.marked_of_nil rfl)
    (Environment.marked_of_nil rfl) rfl rfl hanswers (answersAll_roll true true) hknown
    (isKnown_roll true) hreserves (reserves_roll true true) (by decide) hflatten
  -- the hypothesis is the one of the clause
  obtain rfl : hs = [neitherGoal 5 true] := by
    obtain ⟨_, _, _, _, _, _, _, _, _, -, -, -, -, -, -, hclause⟩ := hcomp
    exact (Constraint.clause.inj (Except.ok.inj (congrArg Prod.fst hclause))).2.1
  obtain ⟨o1, ns1, o2, ns2, hlogs1, hlogs2, hsubset⟩ := hiff ones
    (List.forall_mem_singleton.mpr (by rw [neitherGoal, Constraint.holds_flatten_goal]; rfl))
  obtain ⟨rfl, rfl⟩ := hlogs1.unique (logs_idle idleTwin.first sites1 ones)
  obtain ⟨hcut, rfl⟩ := calls_of_logs_roll hlogs2
  rcases hsubset.mp ((hholds ones).mpr (holds_idleAlike ones)) with hcut' | hcut' | hsub
  · cases hcut'
  · exact hcut hcut'
  · cases hsub (List.mem_singleton_self _)

end Antecedent
