import Antecedent.Proofs.Translation

/-!
# The conditions that a walk builds

There is one lemma for each builder of a walk, each with the condition after it as a parameter: what
the condition before it says in a state, in terms of what the code does from this state.

* `Constraint.Leads` says that the truth of a condition in a state is that of a condition below it
  in another state, and `Constraint.Predicts` what a condition has to do with the end of a run.
-/

namespace Antecedent

variable {found : List (Duty × Constraint)} {accesses : List Access} {c : Constraint} {j : Jmp}

/-- Whether a run ends well, for a condition on exit and cuts that count as true or as false. -/
def Ending.Accepts (P : State → Prop) (b : Bool) : Ending → Prop
  | .exit s => P s
  | .cut => b = true
  | .excused => True
  | .failed => False

namespace Constraint

variable {d k post : Constraint} {s s' s'' : State} {o : Ending}

/-- The truth of a condition in a state is that of a condition below it in another state. -/
structure Leads (c : Constraint) (s : State) (d : Constraint) (s' : State) : Prop where
  below : d ∈ c.subtrees
  holds : c.Sorted → ∀ b, c.Holds b s ↔ d.Holds b s'

/-- A condition predicts how a run ends: it leads to the condition on exit where the run leaves, it
has a cut below it and is what cuts count as where the run is cut, and it is true where the run is
excused and false where it fails. -/
def Predicts (c : Constraint) (s : State) (post : Constraint) : Ending → Prop
  | .exit s' => c.Leads s post s'
  | .cut => (∃ d ∈ c.subtrees, d.isCut = true) ∧ (c.Sorted → ∀ b, c.Holds b s ↔ b = true)
  | .excused => c.Sorted → ∀ b, c.Holds b s
  | .failed => c.Sorted → ∀ b, ¬c.Holds b s

theorem Leads.refl (c : Constraint) (s : State) : c.Leads s c s :=
  ⟨c.mem_subtrees_self, fun _ _ => Iff.rfl⟩

theorem Leads.trans (h : c.Leads s d s') (h' : d.Leads s' k s'') : c.Leads s k s'' where
  below := subtrees_trans h.below h'.below
  holds hc b := (h.holds hc b).trans (h'.holds (hc.of_mem h.below) b)

theorem Leads.predicts (h : c.Leads s d s') (hd : d.Predicts s' post o) : c.Predicts s post o := by
  have hsorted : c.Sorted → d.Sorted := fun hc => hc.of_mem h.below
  cases o with
  | exit s'' => exact h.trans hd
  | cut =>
    obtain ⟨⟨x, hx, hcut⟩, hholds⟩ := hd
    exact ⟨⟨x, subtrees_trans h.below hx, hcut⟩,
      fun hc b => (h.holds hc b).trans (hholds (hsorted hc) b)⟩
  | excused => exact fun hc b => (h.holds hc b).mpr (hd (hsorted hc) b)
  | failed => exact fun hc b hholds => hd (hsorted hc) b ((h.holds hc b).mp hholds)

/-- A condition is true exactly if the ending that it predicts is accepted. -/
theorem Predicts.holds_iff (h : c.Predicts s post o) (hc : c.Sorted) (b : Bool) :
    c.Holds b s ↔ o.Accepts (post.Holds b) b := by
  cases o with
  | exit s' => exact h.holds hc b
  | cut => exact h.2 hc b
  | excused => exact iff_of_true (h hc b) True.intro
  | failed => exact iff_of_false (h hc b) not_false

end Constraint

/-! ## §1 Conditions on accesses -/

/-- A condition compares with a memory that is a constant. -/
def Hook.Fit : Hook → Prop
  | .nonNull _ _ => True
  | .sameAs memory _ => ∃ name srt, memory = .const name srt ∧ srt ≠ .bool

namespace Build

variable {σ σ' : Session} {ν : Nat → Constraint}

/-- What a goal that stands for a condition says in a state. -/
def truth (b : Bool) (s : State) (p : Duty × Constraint) : Duty × Bool :=
  (p.1, p.2.plain.holds (s.cutAs b))

/-- A goal for a formula that does not see the cuts says what the formula says. -/
private theorem truth_goal {P : Symbol → Srt → Prop} {i : Nat} {name : String} {t : Term}
    {v : State → Bool} {duty : Duty} (hP : ∀ n srt, P n srt → srt ≠ .bool)
    (ht : t.Denotes P fun s => .bool (v s)) (b : Bool) (s : State) :
    truth b s (duty, .goal i name t) = (duty, v s) := by
  rw [truth, Constraint.plain, Term.holds, Term.eval_cutAs (ht.proper.uses.mono hP), ht.eval,
    Value.isTrue]

theorem ends_hookGoal {a : Access} {hook : Hook} {r : Option (Duty × Constraint)}
    (h : (hookGoal a hook).Ends σ r σ') (hfit : hook.Fit) :
    ∃ ν', Builds σ ν σ' ν' ∧
      (∀ p ∈ r, σ'.Lists ν' p.2 ∧ p.2.Sorted) ∧
      ∀ e, σ'.env.Grows e → e.Sound → a.addr.Proper e.Owns → ∀ b s,
        r.map (truth b s) = hook.verdict (e.look s e.memVar) s (a.touch s) := by
  cases hook with
  | nonNull kind duty =>
    simp only [hookGoal] at h
    split at h
    · next hkind =>
      obtain ⟨rfl, rfl⟩ := ends_pure.mp h
      refine ⟨ν, .refl _ _, by simp, fun e _ _ _ b s => ?_⟩
      simp [Hook.verdict, Access.touch, hkind]
    · next hkind =>
      simp only [ends_bind, ends_lift, ends_pure] at h
      obtain ⟨w, _, ⟨hw, rfl⟩, t, _, ⟨ht, rfl⟩, g, _, hg, rfl, rfl⟩ := h
      obtain ⟨i, ν', rfl, hb, hl⟩ := ends_goal (ν := ν) hg
      refine ⟨ν', hb, by simpa using hl, fun e _ hs hp b s => ?_⟩
      have hd := Term.mkDistinct_ok hp (Term.proper_num (Nat.two_pow_pos w)) ht
      obtain ⟨n, hn, -⟩ := hp.bits (Term.width_ok.mp hw) s
      rw [Option.map_some, truth_goal (fun _ _ => hs.owns_ne_bool) hd, Hook.verdict, Access.touch,
        if_neg hkind, hn]
      simp [Value.same, Value.toNat, bne]
  | sameAs memory map =>
    simp only [hookGoal] at h
    split at h
    · next hkind =>
      obtain ⟨rfl, rfl⟩ := ends_pure.mp h
      refine ⟨ν, .refl _ _, by simp, fun e _ _ _ b s => ?_⟩
      simp [Hook.verdict, Access.touch, hkind]
    · next hkind =>
      simp only [ends_bind, ends_lift, ends_pure] at h
      obtain ⟨m, τ, hm, mine, _, ⟨hmine, rfl⟩, addr, _, ⟨haddr, rfl⟩, other, _, ⟨hother, rfl⟩, t, _,
        ⟨ht, rfl⟩, g, _, hg, rfl, rfl⟩ := h
      obtain ⟨hstep, -, hgives⟩ := ends_getMemory hm
      obtain ⟨i, ν', rfl, hb, hl⟩ := ends_goal (ν := ν) hg
      refine ⟨ν', (Builds.of_step hstep).trans hb, by simpa using hl,
        fun e hg hs hp b s => ?_⟩
      have hgives := hgives.grows (hb.step.env.trans hg)
      obtain ⟨name, srt, rfl, howns⟩ := hgives.const hs
      obtain ⟨name', srt', rfl, hne'⟩ := hfit
      -- both memories and the address are terms without Boolean constants
      have hne : ∀ n srt, e.Owns n srt → srt ≠ .bool := fun _ _ => hs.owns_ne_bool
      have hp := hp.mono hne
      have hmem : (Term.const name srt).Proper fun _ srt => srt ≠ .bool :=
        ⟨.const _ _, .const (hne _ _ howns)⟩
      have hmem' : (Term.const name' srt').Proper fun _ srt => srt ≠ .bool :=
        ⟨.const _ _, .const hne'⟩
      obtain ⟨w, hw⟩ := Term.loadBytes_sort hmine
      have haddr := AddressMap.term_ok hp hw haddr
      have hmine := Term.loadBytes_ok hmem hp hmine
      have hother := Term.loadBytes_ok hmem' haddr.proper hother
      have hd := Term.mkEq_ok hmine.proper hother.proper ht
      rw [Option.map_some, truth_goal (fun _ _ h => h) hd, hmine.eval, hother.eval, haddr.eval,
        Hook.verdict, Access.touch, if_neg hkind, (hb.step.env.trans hg).memVar, hgives.look_eq]

theorem ends_hookGoals {a : Access} {hooks : List Hook}
    (h : (hooks.filterMapM (hookGoal a)).Ends σ found σ') (hfit : ∀ hook ∈ hooks, hook.Fit) :
    ∃ ν', Builds σ ν σ' ν' ∧
      (∀ p ∈ found, σ'.Lists ν' p.2 ∧ p.2.Sorted) ∧
      ∀ e, σ'.env.Grows e → e.Sound → a.addr.Proper e.Owns → ∀ b s,
        found.map (truth b s) =
          hooks.filterMap (Hook.verdict (e.look s e.memVar) s (a.touch s)) := by
  -- one condition after the other, each in the session that the last one left
  induction hooks generalizing σ ν found with
  | nil =>
    rw [List.filterMapM_nil, ends_pure] at h
    obtain ⟨rfl, rfl⟩ := h
    exact ⟨ν, .refl _ _, by simp, by simp⟩
  | cons hook hooks ih =>
    rw [List.filterMapM_cons] at h
    obtain ⟨r, τ, hr, h⟩ := ends_bind.mp h
    obtain ⟨ν1, hb1, hl1, ht1⟩ := ends_hookGoal (ν := ν) hr (hfit _ (List.mem_cons_self ..))
    have hfit := fun hook hm => hfit hook (List.mem_cons_of_mem _ hm)
    cases r with
    | none =>
      obtain ⟨ν2, hb2, hl2, ht2⟩ := ih (ν := ν1) h hfit
      refine ⟨ν2, hb1.trans hb2, hl2, fun e hg hs hp b s => ?_⟩
      have hnone := ht1 e (hb2.step.env.trans hg) hs hp b s
      rw [ht2 e hg hs hp b s, List.filterMap_cons, ← hnone]
      rfl
    | some p =>
      obtain ⟨rest, τ', hrest, rfl, rfl⟩ : ∃ rest τ', (hooks.filterMapM (hookGoal a)).Ends τ rest τ'
          ∧ p :: rest = found ∧ τ' = σ' := by
        simpa using h
      obtain ⟨ν2, hb2, hl2, ht2⟩ := ih (ν := ν1) hrest hfit
      refine ⟨ν2, hb1.trans hb2, ?_, fun e hg hs hp b s => ?_⟩
      · rw [List.forall_mem_cons]
        exact ⟨⟨hb2.lists (hl1 p rfl).1, (hl1 p rfl).2⟩, hl2⟩
      · have hsome := ht1 e (hb2.step.env.trans hg) hs hp b s
        rw [List.map_cons, ht2 e hg hs hp b s, List.filterMap_cons, ← hsome]
        rfl

theorem ends_allGoals
    (h : (accesses.flatMapM fun a => do (← env).hooks.filterMapM (hookGoal a)).Ends σ found σ')
    (hfit : ∀ hook ∈ σ.env.hooks, hook.Fit) : ∃ ν', Builds σ ν σ' ν' ∧
      (∀ p ∈ found, σ'.Lists ν' p.2 ∧ p.2.Sorted) ∧
      ∀ e, σ'.env.Grows e → e.Sound → (∀ a ∈ accesses, a.addr.Proper e.Owns) → ∀ b s,
        found.map (truth b s) = e.verdicts s (accesses.map (Access.touch s)) := by
  induction accesses generalizing σ ν found with
  | nil =>
    rw [List.flatMapM_nil, ends_pure] at h
    obtain ⟨rfl, rfl⟩ := h
    exact ⟨ν, .refl _ _, by simp, by simp [Environment.verdicts]⟩
  | cons a accesses ih =>
    rw [List.flatMapM_cons] at h
    simp only [ends_bind, ends_env, ends_pure] at h
    obtain ⟨gs, τ, ⟨_, _, ⟨rfl, rfl⟩, hgs⟩, rest, τ', hrest, rfl, rfl⟩ := h
    obtain ⟨ν1, hb1, hl1, ht1⟩ := ends_hookGoals (ν := ν) hgs hfit
    obtain ⟨ν2, hb2, hl2, ht2⟩ := ih (ν := ν1) hrest (hb1.step.env.hooks ▸ hfit)
    refine ⟨ν2, hb1.trans hb2, ?_, fun e hg hs hp b s => ?_⟩
    · rw [List.forall_mem_append]
      exact ⟨fun p hm => ⟨hb2.lists (hl1 p hm).1, (hl1 p hm).2⟩, hl2⟩
    -- the verdicts of an environment are those of its accesses, in order
    · obtain ⟨hpa, hps⟩ := List.forall_mem_cons.mp hp
      have hhooks : e.hooks = σ.env.hooks := ((hb1.trans hb2).step.env.trans hg).hooks
      rw [List.map_append, ht1 e (hb2.step.env.trans hg) hs hpa b s, ht2 e hg hs hps b s,
        Environment.verdicts, Environment.verdicts, List.map_cons, List.flatMap_cons, hhooks]

private theorem mem_duty {duty : Duty} :
    c ∈ found.filterMap (fun (d, g) => if d = duty then some g else none) ↔ (duty, c) ∈ found := by
  simp only [List.mem_filterMap, Option.ite_none_right_eq_some, Option.some.injEq, Prod.exists]
  constructor
  · rintro ⟨d, g, hmem, rfl, rfl⟩
    exact hmem
  · intro hmem
    exact ⟨duty, c, hmem, rfl, rfl⟩

/-- The goals of one duty all hold if no condition of this duty is broken. -/
private theorem holds_duty (duty : Duty) (b : Bool) (s : State) :
    (∀ c, (duty, c) ∈ found → c.Holds b s) ↔ (duty, false) ∉ found.map (truth b s) := by
  simp only [List.mem_map, truth, Prod.mk.injEq, Prod.exists, not_exists, not_and,
    Constraint.Holds]
  constructor
  · rintro h d c hmem rfl
    simpa using h c hmem
  · intro h c hmem
    simpa using h duty c hmem rfl

theorem guarded_ends (σ : Session) (c : Constraint) (accesses : List Access)
    (hhooks : σ.env.hooks = []) : (guarded c accesses).Ends σ c σ := by
  have hfound : ∀ as : List Access, (as.flatMapM fun a => do
      (← env).hooks.filterMapM (hookGoal a) : Build _).Ends σ [] σ := by
    intro as
    induction as with
    | nil => exact ends_pure.mpr ⟨rfl, rfl⟩
    | cons a as ih =>
      rw [List.flatMapM_cons]
      refine ends_bind.mpr ⟨[], σ, ends_bind.mpr ⟨_, σ, ends_env.mpr ⟨rfl, rfl⟩, ?_⟩,
        ends_bind.mpr ⟨[], σ, ih, ends_pure.mpr ⟨rfl, rfl⟩⟩⟩
      rw [hhooks]
      exact ends_pure.mpr ⟨rfl, rfl⟩
  exact ends_bind.mpr ⟨[], σ, hfound accesses, ends_pure.mpr ⟨rfl, rfl⟩⟩

theorem guarded_eq {g : Constraint} (h : (guarded c accesses).Ends σ g σ')
    (hhooks : σ.env.hooks = []) : g = c ∧ σ' = σ := by
  obtain ⟨hg, rfl⟩ := Prod.mk.inj (h.symm.trans (guarded_ends σ c accesses hhooks))
  exact ⟨Except.ok.inj hg, rfl⟩

/-- **Guards**: a condition guarded by some accesses predicts the end of a run that stops at one of
them, and leads to the condition itself where the run goes on. -/
theorem ends_guarded {g : Constraint} (h : (guarded c accesses).Ends σ g σ')
    (hfit : ∀ hook ∈ σ.env.hooks, hook.Fit) (hc : σ.Lists ν c) :
    ∃ ν', Builds σ ν σ' ν' ∧ σ'.Lists ν' g ∧ (g.Sorted ↔ c.Sorted) ∧
      ∀ e, σ'.env.Grows e → e.Sound → (∀ a ∈ accesses, a.addr.Proper e.Owns) → ∀ s,
        match e.objection? s (accesses.map (Access.touch s)) with
        | some o => ∀ post, g.Predicts s post o
        | none => g.Leads s c s := by
  obtain ⟨found, τ, hfound, h⟩ := ends_bind.mp h
  obtain ⟨ν1, hb1, hl1, ht1⟩ := ends_allGoals (ν := ν) hfound hfit
  simp only at h
  split at h
  · next hempty =>
    -- no access is subject to a condition
    obtain ⟨rfl, rfl⟩ := ends_pure.mp h
    refine ⟨ν1, hb1, hb1.lists hc, Iff.rfl, fun e hg hs hp s => ?_⟩
    have hnone : e.objection? s (accesses.map (Access.touch s)) = none := by
      rw [Environment.objection?, ← ht1 e hg hs hp true s, List.isEmpty_iff.mp hempty]
      rfl
    rw [hnone]
    exact .refl c s
  · obtain ⟨i, ν2, hclause, hb2, hl2⟩ := ends_clause (ν := ν1) h
      (fun d hd => (hl1 _ (mem_duty.mp hd)).1)
      (fun d hd => by
        rcases List.mem_append.mp hd with hd | hd
        · exact (hl1 _ (mem_duty.mp hd)).1
        · obtain rfl := List.mem_singleton.mp hd
          exact hb1.lists hc)
    refine ⟨ν2, hb1.trans hb2, hl2, ?_, fun e hg hs hp s => ?_⟩
    · rw [hclause, Constraint.sorted_clause]
      constructor
      · rintro ⟨-, hall⟩
        exact hall c (List.mem_append_right _ (List.mem_singleton_self c))
      · intro hkeep
        refine ⟨fun d hd => (hl1 _ (mem_duty.mp hd)).2, fun d hd => ?_⟩
        rcases List.mem_append.mp hd with hd | hd
        · exact (hl1 _ (mem_duty.mp hd)).2
        · obtain rfl := List.mem_singleton.mp hd
          exact hkeep
    · have hholds : ∀ b, g.Holds b s ↔
          ((.assume, false) ∉ e.verdicts s (accesses.map (Access.touch s)) →
            (.verify, false) ∉ e.verdicts s (accesses.map (Access.touch s)) ∧ c.Holds b s) := by
        intro b
        rw [hclause]
        simp only [Constraint.holds_clause, List.forall_mem_append, List.forall_mem_singleton,
          mem_duty, holds_duty, ht1 e (hb2.step.env.trans hg) hs hp b s]
      rw [Environment.objection?]
      -- a broken assumption makes the clause true before a broken duty makes it false
      by_cases ha : (.assume, false) ∈ e.verdicts s (accesses.map (Access.touch s))
      · rw [if_pos ha]
        exact fun _ _ b => (hholds b).mpr fun hnot => absurd ha hnot
      · rw [if_neg ha]
        by_cases hf : (.verify, false) ∈ e.verdicts s (accesses.map (Access.touch s))
        · rw [if_pos hf]
          exact fun _ _ b hclause => ((hholds b).mp hclause ha).1 hf
        · rw [if_neg hf]
          refine ⟨Constraint.mem_subtrees_of_child (Constraint.mem_subtrees_self _) ?_,
            fun _ b => (hholds b).trans (by simp [ha, hf])⟩
          simp [hclause, Constraint.children]

/-! ## §2 Definitions -/

/-- **Definitions**: the condition before a definition leads to the condition after it, in the state
where the definition has been run. -/
theorem ends_definition {post : Constraint} {d : Def} (h : (definition post d).Ends σ c σ')
    (hfit : ∀ hook ∈ σ.env.hooks, hook.Fit) (hd : d.rhs.isKnown = true) (hpost : σ.Lists ν post) :
    ∃ ν', Builds σ ν σ' ν' ∧ σ'.Lists ν' c ∧ ∀ e, σ'.env.Grows e → e.Sound →
      d.rhs.Local e ∧ (∃ t, e.Gives d.lhs t) ∧ (c.Sorted ↔ d.KeepsSort e ∧ post.Sorted) ∧
      ∀ s, match d.run e s with
        | .error o => ∀ post, c.Predicts s post o
        | .ok s' => c.Leads s post s' := by
  simp only [definition, ends_bind] at h
  obtain ⟨⟨rhs, accesses⟩, τ, hrhs, lhs, τ', hlhs, body, τ'', hbody, h⟩ := h
  obtain ⟨hstep1, hsup1, htr⟩ := Expr.ends_toTerm hrhs hd
  obtain ⟨hstep2, hsup2, hgives⟩ := ends_getVar hlhs
  have hb1 : Builds σ ν τ' ν := .of_step (hstep1.trans hstep2)
  obtain ⟨i, ν1, rfl, hb2, hl2⟩ := ends_substitution hbody (hb1.lists hpost)
  have hhooks : ∀ hook ∈ τ''.env.hooks, hook.Fit := by
    rw [(hb1.trans hb2).step.env.hooks]
    exact hfit
  obtain ⟨ν2, hb3, hl3, hkeep, hguard⟩ := ends_guarded h hhooks hl2
  refine ⟨ν2, (hb1.trans hb2).trans hb3, hl3, fun e hg hs => ?_⟩
  have hgrow := hb2.step.env.trans (hb3.step.env.trans hg)
  have htr := htr e (hstep2.env.trans hgrow) hs
  have hgives := hgives.grows hgrow
  obtain ⟨name, srt, rfl, howns⟩ := hgives.const hs
  -- the substitution keeps sorts exactly if the definition does
  have hsort : Replacement.keepsSorts [(.const name srt, rhs)] = true ↔ d.KeepsSort e := by
    have hkeeps : Replacement.keepsSorts [(.const name srt, rhs)] = true ↔ srt = rhs.sort := by
      simp [Replacement.keepsSorts, Term.sort]
    have hvalue : ∀ s, (d.rhs.value (e.look s)).sort = rhs.sort := fun s => by
      rw [← htr.denotes.eval, htr.denotes.proper.sort_eval]
    have hlook : ∀ s, (e.look s d.lhs).sort = srt := fun s => by
      rw [hgives.look_eq]
      exact Term.Proper.sort_eval ⟨.const name srt, .const howns⟩ s
    simp only [Def.KeepsSort, hvalue, hlook]
    rw [hkeeps]
    exact ⟨fun h _ => h.symm, fun h => (h State.zero).symm⟩
  refine ⟨htr.isLocal, ⟨_, hgives⟩, by rw [hkeep, Constraint.sorted_subst, hsort], fun s => ?_⟩
  have hguard := hguard e hg hs htr.addresses s
  rw [htr.touches] at hguard
  rw [Def.run]
  cases ho : e.objection? s (d.rhs.touches (e.look s)) with
  | some o =>
    rw [ho] at hguard
    exact hguard
  | none =>
    rw [ho] at hguard
    refine Constraint.Leads.trans hguard
      ⟨Constraint.mem_subtrees_of_child (Constraint.mem_subtrees_self _)
        (by simp [Constraint.children]), fun hall b => ?_⟩
    -- with no objection the run writes the value, which is what the substitution reads
    rw [Constraint.sorted_subst] at hall
    have hfits : (rhs.eval s).Fits srt := by
      have : srt = rhs.sort := by simpa [Replacement.keepsSorts, Term.sort] using hall.1
      exact this ▸ Term.eval_fits htr.denotes.proper.sorted s
    rw [Constraint.holds_subst (.inr (hs.owns_ne_bool howns))
      (htr.denotes.proper.uses.mono fun _ _ => hs.owns_ne_bool) hfits, htr.denotes.eval,
      hgives.assign_eq]

/-- The condition before some definitions. -/
theorem ends_definitions {post : Constraint} {ds : List Def}
    (h : (ds.foldrM (fun d post => definition post d) post).Ends σ c σ')
    (hfit : ∀ hook ∈ σ.env.hooks, hook.Fit) (hds : ∀ d ∈ ds, d.rhs.isKnown = true)
    (hpost : σ.Lists ν post) :
    ∃ ν', Builds σ ν σ' ν' ∧ σ'.Lists ν' c ∧ ∀ e, σ'.env.Grows e → e.Sound →
      (∀ d ∈ ds, d.rhs.Local e) ∧ (∀ d ∈ ds, ∃ t, e.Gives d.lhs t) ∧
      (c.Sorted ↔ (∀ d ∈ ds, d.KeepsSort e) ∧ post.Sorted) ∧
      ∀ s, match ds.foldlM (Def.run e) s with
        | .error o => ∀ post, c.Predicts s post o
        | .ok s' => c.Leads s post s' := by
  -- definitions are built from the last one on, and run from the first one on
  induction ds generalizing c σ' with
  | nil =>
    rw [List.foldrM_nil, ends_pure] at h
    obtain ⟨rfl, rfl⟩ := h
    exact ⟨ν, .refl _ _, hpost, fun e _ _ => ⟨by simp, by simp, by simp, fun s => .refl _ s⟩⟩
  | cons d ds ih =>
    rw [List.foldrM_cons] at h
    obtain ⟨mid, τ, hmid, h⟩ := ends_bind.mp h
    obtain ⟨hd, hds⟩ := List.forall_mem_cons.mp hds
    obtain ⟨ν1, hb1, hl1, hih⟩ := ih hmid hds
    have hhooks : ∀ hook ∈ τ.env.hooks, hook.Fit := hb1.step.env.hooks ▸ hfit
    obtain ⟨ν2, hb2, hl2, hdef⟩ := ends_definition h hhooks hd hl1
    refine ⟨ν2, hb1.trans hb2, hl2, fun e hg hs => ?_⟩
    obtain ⟨hreads, hwrites, hkeep1, hleads1⟩ := hih e (hb2.step.env.trans hg) hs
    obtain ⟨hread, hwrite, hkeep2, hleads2⟩ := hdef e hg hs
    refine ⟨List.forall_mem_cons.mpr ⟨hread, hreads⟩, List.forall_mem_cons.mpr ⟨hwrite, hwrites⟩,
      by rw [hkeep2, hkeep1, List.forall_mem_cons, and_assoc], fun s => ?_⟩
    have hfirst := hleads2 s
    rw [List.foldlM_cons]
    cases hrun : d.run e s with
    | error o =>
      rw [hrun] at hfirst
      exact hfirst
    | ok s1 =>
      rw [hrun] at hfirst
      have hrest := hleads1 s1
      -- the run of the list is that of its tail in the state after the first definition
      change match ds.foldlM (Def.run e) s1 with
        | .error o => ∀ post, c.Predicts s post o
        | .ok s' => c.Leads s post s'
      split
      · next o ho =>
        rw [ho] at hrest
        exact fun post => hfirst.predicts (hrest post)
      · next s' hs' =>
        rw [hs'] at hrest
        exact hfirst.trans hrest

end Build

/-! ## §3 Jumps -/

namespace Memo

variable {m : Memo} {k k' : Key} {c : Constraint}

/-- The keys that have been treated. -/
def keys (m : Memo) : List Key :=
  m.map Prod.fst

theorem lookup_cons :
    List.lookup k' ((k, c) :: m) = if k = k' then some c else m.lookup k' := by
  rw [List.lookup_cons]
  by_cases h : k = k'
  · simp [h]
  · rw [if_neg h, beq_eq_false_iff_ne.mpr (Ne.symm h)]

theorem lookup_self : List.lookup k ((k, c) :: m) = some c := by
  rw [lookup_cons, if_pos rfl]

theorem lookup_isSome : (m.lookup k).isSome = true ↔ k ∈ m.keys := by
  induction m with
  | nil => simp [keys]
  | cons p m ih =>
    rw [lookup_cons, keys, List.map_cons, List.mem_cons]
    split
    · next heq => simp [heq]
    · next hne => rw [ih, or_iff_right (Ne.symm hne), keys]

end Memo

namespace Walking

variable {α β : Type} {σ σ' : Session} {m m' : Memo}

/-- A builder with a table ends with a result, and leaves a table and a session behind. -/
def Ends (act : Walking α) (m : Memo) (σ : Session) (a : α) (m' : Memo) (σ' : Session) : Prop :=
  (act.run m).Ends σ (a, m') σ'

@[simp] theorem ends_pure {a b : α} :
    (pure a : Walking α).Ends m σ b m' σ' ↔ a = b ∧ m = m' ∧ σ = σ' := by
  simp [Ends, and_assoc]

@[simp] theorem ends_bind {act : Walking α} {f : α → Walking β} {b : β} :
    (act >>= f).Ends m σ b m' σ' ↔
      ∃ a m1 σ1, act.Ends m σ a m1 σ1 ∧ (f a).Ends m1 σ1 b m' σ' := by
  simp only [Ends, StateT.run_bind, ExceptT.ends_bind, Prod.exists]

@[simp] theorem ends_get {a : Memo} :
    (get : Walking Memo).Ends m σ a m' σ' ↔ m = a ∧ m = m' ∧ σ = σ' := by
  simp [Ends, and_assoc]

@[simp] theorem ends_throw {f : Fault} {a : α} :
    (throw f : Walking α).Ends m σ a m' σ' ↔ False := by
  simp [Ends]

@[simp] theorem ends_modify {f : Memo → Memo} {u : Unit} :
    (modify f : Walking Unit).Ends m σ u m' σ' ↔ f m = m' ∧ σ = σ' := by
  simp [Ends]

/-- A builder without a table leaves the table alone. -/
@[simp] theorem ends_lift {act : Build α} {a : α} :
    (liftM act : Walking α).Ends m σ a m' σ' ↔ act.Ends σ a σ' ∧ m = m' := by
  simp [Ends]

@[simp] theorem ends_liftExcept {x : Except Fault α} {a : α} :
    (liftM x : Walking α).Ends m σ a m' σ' ↔ x = .ok a ∧ m = m' ∧ σ = σ' := by
  have h : (liftM x : Walking α).Ends m σ a m' σ' ↔ (x = .ok a ∧ σ = σ') ∧ m = m' := by
    simp [Ends]
  rw [h, and_assoc, and_comm (a := σ = σ')]

/-- A fold of a builder without a table leaves the table alone. -/
theorem ends_foldrM_lift {f : α → β → Build β} {as : List α} {b c : β} :
    (as.foldrM (fun a b => liftM (f a b)) b : Walking β).Ends m σ c m' σ' ↔
      (as.foldrM f b).Ends σ c σ' ∧ m = m' := by
  induction as generalizing c m' σ' with
  | nil =>
    rw [List.foldrM_nil, List.foldrM_nil, ends_pure, ExceptT.ends_pure, and_assoc,
      and_comm (a := m = m')]
  | cons a as ih =>
    rw [List.foldrM_cons, List.foldrM_cons, ends_bind, ExceptT.ends_bind]
    simp only [ih, ends_lift]
    constructor
    · rintro ⟨d, _, τ, ⟨has, rfl⟩, ha, rfl⟩
      exact ⟨⟨d, τ, has, ha⟩, rfl⟩
    · rintro ⟨⟨d, τ, has, ha⟩, rfl⟩
      exact ⟨d, m, τ, ⟨has, rfl⟩, ha, rfl⟩

end Walking

theorem Json.label?_eq_of_label {j : Json} {l : Label} (h : j.label = .ok l) :
    j.label? = some l := by
  unfold Json.label at h
  split at h
  · next hl =>
    cases h
    exact hl
  · cases h

/-- A branch leads to the side that is taken. -/
theorem Build.IsBranch.leads {e : Environment} {x : Expr} {name : Json} {cond : Term}
    {yes no : Constraint} (h : Build.IsBranch name cond yes no c) (hd : x.Decides e cond accesses)
    (hs : e.Sound) (s : State) :
    c.Leads s (if (x.value (e.look s)).toNat ≠ 0 then yes else no) s := by
  have hval := hd.denotes.eval s
  rcases h with ⟨rfl, rfl⟩ | ⟨rfl, rfl⟩ | ⟨i, rfl⟩
  · rw [if_pos (by simpa using Value.bool.inj hval)]
    exact .refl _ s
  · rw [if_neg (by simpa using Value.bool.inj hval)]
    exact .refl _ s
  · refine ⟨Constraint.mem_subtrees_of_child (Constraint.mem_subtrees_self _) ?_, fun _ b => ?_⟩
    · split <;> simp [Constraint.children]
    · have hcut := Term.eval_cutAs (b := b) (s := s)
        (hd.denotes.proper.uses.mono fun _ _ => hs.owns_ne_bool)
      rw [Constraint.holds_ite, Term.holds, hcut, hval]
      split <;> simp_all [Value.isTrue]

namespace Walker

variable {w : Walker} {σ σ' : Session} {m m' : Memo} {ν : Nat → Constraint} {counts : Counts}

/-- The condition where control goes. -/
def at? (w : Walker) (m : Memo) (counts : Counts) : Target → Option Constraint
  | .outside => some w.post
  | .block l => m.lookup (w.flow.key (w.flow.graph.resolve l) counts)

theorem ends_entry {l : Label} (h : (w.entry l counts).Ends m σ c m' σ') :
    m' = m ∧ σ' = σ ∧ w.at? m counts (.block l) = some c := by
  simp only [entry, Walking.ends_bind, Walking.ends_get] at h
  obtain ⟨_, _, _, ⟨rfl, rfl, rfl⟩, h⟩ := h
  split at h
  · next c' hc =>
    obtain ⟨rfl, rfl, rfl⟩ := Walking.ends_pure.mp h
    exact ⟨rfl, rfl, hc⟩
  · exact (Walking.ends_throw.mp h).elim

/-- A call or an interrupt goes on from the condition where it comes back to. -/
theorem ends_return {f : Constraint → Walking Constraint} (h : (do
      let after ← if j.returnTo.truthy then w.entry (← j.returnTo.label) counts else pure w.post
      f after : Walking Constraint).Ends m σ c m' σ') :
    ∃ t after, j.returns? = some t ∧ w.at? m counts t = some after ∧
      (f after).Ends m σ c m' σ' := by
  split at h
  · next htruthy =>
    simp only [Walking.ends_bind, Walking.ends_liftExcept] at h
    obtain ⟨l, _, _, ⟨hl, rfl, rfl⟩, after, _, _, hafter, h⟩ := h
    obtain ⟨rfl, rfl, hat⟩ := ends_entry hafter
    exact ⟨.block l, after, by simp [Jmp.returns?, htruthy, Json.label?_eq_of_label hl], hat, h⟩
  · next htruthy =>
    obtain ⟨after, _, _, hafter, h⟩ := Walking.ends_bind.mp h
    obtain ⟨rfl, rfl, rfl⟩ := Walking.ends_pure.mp hafter
    exact ⟨.outside, w.post, by simp [Jmp.returns?, htruthy], rfl, h⟩

/-- **Destinations**: a jump leads to the condition where it goes, a call to what is made of the
condition where it comes back to. -/
theorem destination_cases (h : (w.destination j counts).Ends m σ c m' σ') :
    (m' = m ∧ σ' = σ ∧ ∃ t, j.goal? = some t ∧ w.at? m counts t = some c) ∨
      (m' = m ∧ j.kind = .call ∧ ∃ t after, j.returns? = some t ∧
        w.at? m counts t = some after ∧ (w.call j after).Ends σ c σ') := by
  -- calls and interrupts come back, and only calls build something on the way
  unfold destination at h
  split at h
  · next hgoto =>
    split at h
    · exact (Walking.ends_throw.mp h).elim
    · next hnull =>
      simp only [Walking.ends_bind, Walking.ends_liftExcept] at h
      obtain ⟨l, _, _, ⟨hl, rfl, rfl⟩, h⟩ := h
      obtain ⟨rfl, rfl, hat⟩ := ends_entry h
      refine .inl ⟨rfl, rfl, .block l, ?_, hat⟩
      simp [Jmp.goal?, hgoto, Json.label?_eq_of_label hl]
  · next hret =>
    obtain ⟨rfl, rfl, rfl⟩ := Walking.ends_pure.mp h
    exact .inl ⟨rfl, rfl, .outside, by simp [Jmp.goal?, hret], rfl⟩
  · next hcall =>
    obtain ⟨t, after, ht, hat, hends⟩ := ends_return h
    simp only [hcall, reduceCtorEq, if_false, Walking.ends_lift] at hends
    exact .inr ⟨hends.2.symm, hcall, t, after, ht, hat, hends.1⟩
  · next hint =>
    obtain ⟨t, after, ht, hat, hends⟩ := ends_return h
    simp only [hint, if_true, Walking.ends_pure] at hends
    obtain ⟨rfl, rfl, rfl⟩ := hends
    refine .inl ⟨rfl, rfl, t, ?_, hat⟩
    simpa [Jmp.goal?, hint, Jmp.returns?] using ht

/-! ## §4 Blocks -/

/-- Past the last jump of a block, control goes to the next block or out. -/
theorem block_cases {n : Node} (h : (w.block n counts).Ends m σ c m' σ') :
    ∃ last t, w.at? m counts t = some last ∧
      (n.block.fallsThrough = true → w.flow.graph.after n none = some t) ∧
      (do
        let jumps ← n.block.jmps.foldrM (w.jump counts) last
        n.block.defs.foldrM (fun d post => Build.definition post d) jumps
        : Walking Constraint).Ends m σ c m' σ' := by
  unfold block at h
  split at h
  · next l hl =>
    obtain ⟨last, m1, σ1, hlast, hrest⟩ := Walking.ends_bind.mp h
    obtain ⟨rfl, rfl, hat⟩ := ends_entry hlast
    refine ⟨last, .block l, hat, fun hfall => ?_, hrest⟩
    rw [Graph.fallThrough?, if_pos hfall] at hl
    rw [Graph.after, hl]
  · next hl =>
    obtain ⟨last, m1, σ1, hlast, hrest⟩ := Walking.ends_bind.mp h
    obtain ⟨rfl, rfl, rfl⟩ := Walking.ends_pure.mp hlast
    refine ⟨w.post, .outside, rfl, fun hfall => ?_, hrest⟩
    rw [Graph.fallThrough?, if_pos hfall] at hl
    rw [Graph.after, hl]

/-- A cut is a goal of its own, made after a warning at most. -/
theorem cut_cases {header : Label} (h : (w.cut header).Ends σ c σ') :
    ∃ τ name, σ.Step τ ∧ (Build.cut name).Ends τ c σ' := by
  simp only [cut, ends_bind, Build.ends_env] at h
  obtain ⟨_, _, ⟨rfl, rfl⟩, h⟩ := h
  split at h
  · simp only [Build.warn, ends_bind, ends_modify, Build.ends_modifyEnv] at h
    obtain ⟨_, _, rfl, _, _, rfl, h⟩ := h
    refine ⟨_, _, ?_, h⟩
    exact ⟨⟨rfl, rfl, rfl, rfl, rfl, rfl, rfl, rfl, List.prefix_rfl, List.prefix_rfl,
      List.suffix_rfl⟩, fun hs => hs, fun hf => hf, rfl, fun _ => rfl, le_rfl, le_rfl⟩
  · exact ⟨σ, _, .refl σ, h⟩

/-- A cut is true exactly if cuts count as true. -/
theorem ends_cut {header : Label} (h : (w.cut header).Ends σ c σ') :
    ∃ ν', Builds σ ν σ' ν' ∧ σ'.Lists ν' c ∧ c.Sorted ∧ c.isCut = true ∧
      ∀ b s, c.Holds b s ↔ b = true := by
  obtain ⟨τ, name, hstep, hgoal⟩ := cut_cases h
  obtain ⟨i, ν', rfl, hb, hl⟩ := Build.ends_goal (ν := ν) hgoal
  refine ⟨ν', (Builds.of_step hstep).trans hb, hl, Constraint.sorted_goal,
    by simp [Constraint.isCut], fun b s => ?_⟩
  have hcut : (s.cutAs b).const cutSymbol .bool = .bool b :=
    s.const_set_self True.intro
  rw [Constraint.holds_goal, Term.loopCut, Term.holds, Term.eval_const]
  exact hcut ▸ Iff.rfl

end Walker

end Antecedent
