import Antecedent.Comparison
import Antecedent.Proofs.Entry
import Antecedent.Proofs.Exactness

/-!
# What comparators say

A comparator builds in two environments.  The comparators of registers and of the stack pointer say
that variables hold the same values on both sides.

* `Compare.Tame` and `Compare.Means` say what comparators keep, and what their conditions mean.
-/

namespace Antecedent

variable {α : Type} {t t' : Twin} {vs : List Var}

/-! ## §1 Builders in two environments -/

/-- Building in the first environment leaves the second one alone. -/
theorem ends_onFirst {act : Build α} {a : α} : (onFirst act).Ends t a t' ↔
      ∃ σ, act.Ends ⟨t.supply, t.first⟩ a σ ∧ ⟨σ.supply, σ.env, t.second⟩ = t' := by
  have h : Id.run ((onFirst act).run.run t) =
      ((Id.run (act.run.run ⟨t.supply, t.first⟩)).1,
        ⟨(Id.run (act.run.run ⟨t.supply, t.first⟩)).2.supply,
          (Id.run (act.run.run ⟨t.supply, t.first⟩)).2.env, t.second⟩) := rfl
  simp only [ExceptT.Ends, h]
  rcases Id.run (act.run.run ⟨t.supply, t.first⟩) with ⟨r, σ⟩
  simp

/-- Building in the second environment leaves the first one alone. -/
theorem ends_onSecond {act : Build α} {a : α} : (onSecond act).Ends t a t' ↔
      ∃ σ, act.Ends ⟨t.supply, t.second⟩ a σ ∧ ⟨σ.supply, t.first, σ.env⟩ = t' := by
  have h : Id.run ((onSecond act).run.run t) =
      ((Id.run (act.run.run ⟨t.supply, t.second⟩)).1,
        ⟨(Id.run (act.run.run ⟨t.supply, t.second⟩)).2.supply, t.first,
          (Id.run (act.run.run ⟨t.supply, t.second⟩)).2.env⟩) := rfl
  simp only [ExceptT.Ends, h]
  rcases Id.run (act.run.run ⟨t.supply, t.second⟩) with ⟨r, σ⟩
  simp

namespace Twin

/-- The constraint is listed up to the present number of nodes. -/
def Lists (t : Twin) (ν : Nat → Constraint) (c : Constraint) : Prop :=
  c.Listed ν t.supply.nodes

/-- What builders in two environments may do: extend both environments and make new nodes. -/
structure Builds (t : Twin) (ν : Nat → Constraint) (t' : Twin) (ν' : Nat → Constraint) :
    Prop where
  first : t.first.Grows t'.first
  second : t.second.Grows t'.second
  soundFirst : t.first.Sound → t'.first.Sound
  soundSecond : t.second.Sound → t'.second.Sound
  nodes : t.supply.nodes ≤ t'.supply.nodes
  table : ∀ i < t.supply.nodes, ν' i = ν i

variable {t'' : Twin} {ν ν' ν'' : Nat → Constraint} {c : Constraint}

theorem Builds.refl (t : Twin) (ν : Nat → Constraint) : t.Builds ν t ν :=
  ⟨.refl _, .refl _, fun h => h, fun h => h, le_rfl, fun _ _ => rfl⟩

theorem Builds.trans (h : t.Builds ν t' ν') (h' : t'.Builds ν' t'' ν'') : t.Builds ν t'' ν'' where
  first := h.first.trans h'.first
  second := h.second.trans h'.second
  soundFirst := fun hs => h'.soundFirst (h.soundFirst hs)
  soundSecond := fun hs => h'.soundSecond (h.soundSecond hs)
  nodes := h.nodes.trans h'.nodes
  table := fun i hi => (h'.table i (hi.trans_le h.nodes)).trans (h.table i hi)

theorem Builds.lists (h : t.Builds ν t' ν') (hc : t.Lists ν c) : t'.Lists ν' c :=
  hc.mono h.nodes h.table

/-- Building in the first environment. -/
theorem Builds.onFirst {σ : Session} (h : Antecedent.Builds ⟨t.supply, t.first⟩ ν σ ν') :
    t.Builds ν ⟨σ.supply, σ.env, t.second⟩ ν' :=
  ⟨h.step.env, .refl _, h.step.sound, fun h => h, h.step.nodes, h.table⟩

theorem Builds.onSecond {σ : Session} (h : Antecedent.Builds ⟨t.supply, t.second⟩ ν σ ν') :
    t.Builds ν ⟨σ.supply, t.first, σ.env⟩ ν' :=
  ⟨.refl _, h.step.env, fun h => h, h.step.sound, h.step.nodes, h.table⟩

end Twin

/-- What a comparator has to keep to: it extends the environments, and the nodes of its condition
have numbers from the supply. -/
def Compare.Tame (act : Compare Constraint) : Prop :=
  ∀ ⦃t c t' ν⦄, act.Ends t c t' → ∃ ν', t.Builds ν t' ν' ∧ t'.Lists ν' c

/-! ## §2 Conditions of both sides -/

/-- Sound environments that the two sides have grown into. -/
structure Twin.Later (t : Twin) (e1 e2 : Environment) : Prop where
  first : t.first.Grows e1
  second : t.second.Grows e2
  soundFirst : e1.Sound
  soundSecond : e2.Sound

theorem Twin.Later.of_builds {ν ν' : Nat → Constraint} {e1 e2 : Environment} (h : t'.Later e1 e2)
    (hb : t.Builds ν t' ν') : t.Later e1 e2 :=
  ⟨hb.first.trans h.first, hb.second.trans h.second, h.soundFirst, h.soundSecond⟩

def Environment.OwnsEither (e1 e2 : Environment) (name : Symbol) (srt : Srt) : Prop :=
  e1.Owns name srt ∨ e2.Owns name srt

def Var.SameIn (e1 e2 : Environment) (s : State) (v : Var) : Prop :=
  (e1.look s v).same (e2.look s v) = true

theorem Twin.Later.holds_iff {e1 e2 : Environment} (h : t.Later e1 e2) {f : Term} {p : State → Bool}
    (hd : f.Denotes (e1.OwnsEither e2) fun s => .bool (p s)) {b : Bool} {s : State} :
    f.holds (s.cutAs b) = true ↔ p s = true := by
  have hne : f.Over fun _ srt => srt ≠ .bool := hd.proper.uses.mono fun _ _ ho =>
    ho.elim h.soundFirst.owns_ne_bool h.soundSecond.owns_ne_bool
  rw [Term.holds, Term.eval_cutAs hne, hd.eval, Value.isTrue]

/-- What a comparator's condition means, in all later environments. -/
def Compare.Means (act : Compare Constraint) (P : Environment → Environment → State → Prop) :
    Prop :=
  ∀ ⦃t c t' ν⦄, act.Ends t c t' → ∃ ν', t.Builds ν t' ν' ∧ t'.Lists ν' c ∧ c.Sorted ∧
    ∀ e1 e2, t'.Later e1 e2 → ∀ b s, c.Holds b s ↔ P e1 e2 s

theorem Compare.Means.tame {act : Compare Constraint} {P : Environment → Environment → State → Prop}
    (h : act.Means P) : act.Tame := by
  intro t c t' ν hrun
  obtain ⟨ν', hb, hl, -⟩ := h (ν := ν) hrun
  exact ⟨ν', hb, hl⟩

/-- What comparators one after the other have to keep to, and what is known of their conditions in
all later environments. -/
def Compare.Yield (acts : List (Compare Constraint))
    (R : List Constraint → Environment → Environment → Prop) : Prop :=
  ∀ ⦃t cs t' ν⦄, (acts.mapM id).Ends t cs t' →
    ∃ ν', t.Builds ν t' ν' ∧ (∀ c ∈ cs, t'.Lists ν' c) ∧ ∀ e1 e2, t'.Later e1 e2 → R cs e1 e2

theorem Compare.Tame.yield {acts : List (Compare Constraint)} (h : ∀ act ∈ acts, act.Tame) :
    Compare.Yield acts fun _ _ _ => True := by
  intro t cs t' ν hrun
  induction acts generalizing t cs ν with
  | nil =>
    obtain ⟨rfl, rfl⟩ := ends_mapM_nil.mp hrun
    exact ⟨ν, .refl t ν, by simp, fun _ _ _ => True.intro⟩
  | cons act acts ih =>
    obtain ⟨hact, hacts⟩ := List.forall_mem_cons.mp h
    obtain ⟨c, t1, hc, cs, hcs, rfl⟩ := ends_mapM_cons.mp hrun
    obtain ⟨ν1, hb1, hl1⟩ := hact (ν := ν) hc
    obtain ⟨ν2, hb2, hl2, -⟩ := ih hacts (ν := ν1) hcs
    exact ⟨ν2, hb1.trans hb2, List.forall_mem_cons.mpr ⟨hb2.lists hl1, hl2⟩,
      fun _ _ _ => True.intro⟩

theorem Compare.Means.yield {f : α → Compare Constraint} {xs : List α}
    {P : α → Environment → Environment → State → Prop} (h : ∀ x ∈ xs, (f x).Means (P x)) :
    Compare.Yield (xs.map f) fun cs e1 e2 => (∀ c ∈ cs, c.Sorted) ∧
      ∀ b s, (∀ c ∈ cs, c.Holds b s) ↔ ∀ x ∈ xs, P x e1 e2 s := by
  intro t cs t' ν hrun
  induction xs generalizing t cs ν with
  | nil =>
    obtain ⟨rfl, rfl⟩ := ends_mapM_nil.mp hrun
    exact ⟨ν, .refl t ν, by simp, by simp⟩
  | cons x xs ih =>
    obtain ⟨hx, hxs⟩ := List.forall_mem_cons.mp h
    obtain ⟨c, t1, hc, cs, hcs, rfl⟩ := ends_mapM_cons.mp hrun
    obtain ⟨ν1, hb1, hl1, hsort1, hmeans1⟩ := hx (ν := ν) hc
    obtain ⟨ν2, hb2, hl2, hmeans2⟩ := ih hxs (ν := ν1) hcs
    refine ⟨ν2, hb1.trans hb2, List.forall_mem_cons.mpr ⟨hb2.lists hl1, hl2⟩,
      fun e1 e2 hlater => ?_⟩
    obtain ⟨hsort2, hmeans2⟩ := hmeans2 e1 e2 hlater
    refine ⟨List.forall_mem_cons.mpr ⟨hsort1, hsort2⟩, fun b s => ?_⟩
    rw [List.forall_mem_cons, List.forall_mem_cons, hmeans1 e1 e2 (hlater.of_builds hb2), hmeans2]

/-! ## §3 Variables in order -/

theorem Var.Covers.sortByName {us ws : List Var} (h : Var.Covers us vs)
    (hsort : Var.sortByName us = .ok ws) : Var.Covers ws vs := by
  have hperm := Label.sortBy_perm hsort
  refine ⟨fun u hu => h.sub u (hperm.mem_iff.mp hu), fun v hv => ?_⟩
  obtain ⟨u, hu, hv⟩ := h.all v hv
  exact ⟨u, hperm.mem_iff.mpr hu, hv⟩

def Var.arranged (vs : List Var) : List Var :=
  match (do Var.sortByName (← Var.distinct vs)) with
  | .ok us => us
  | .error _ => []

theorem Var.mem_of_mem_arranged {v : Var} (h : v ∈ Var.arranged vs) : v ∈ vs := by
  unfold Var.arranged at h
  split at h
  · next us hus =>
    obtain ⟨ds, hds, hus⟩ := bind_eq_ok.mp hus
    exact ((Var.covers_distinct hds).sortByName hus).sub v h
  · cases h

/-! ## §4 Equal values -/

section SameValue

variable {ν : Nat → Constraint}

theorem Comparator.ends_sameValue {v : Var} {c : Term} (h : (sameValue v).Ends t c t') :
    t.Builds ν t' ν ∧ ∀ e1 e2, t'.Later e1 e2 →
      c.Denotes (e1.OwnsEither e2) fun s => .bool ((e1.look s v).same (e2.look s v)) := by
  simp only [sameValue, ends_bind, ends_lift, ends_onFirst, ends_onSecond] at h
  obtain ⟨a, _, ⟨σ1, ha, rfl⟩, b, _, ⟨σ2, hb, rfl⟩, hc, rfl⟩ := h
  obtain ⟨hstep1, hsup1, hgives1⟩ := Build.ends_getVar ha
  obtain ⟨hstep2, hsup2, hgives2⟩ := Build.ends_getVar hb
  refine ⟨(Twin.Builds.onFirst (.of_step hstep1)).trans (Twin.Builds.onSecond (.of_step hstep2)),
    fun e1 e2 hlater => ?_⟩
  have hgives1 := hgives1.grows hlater.first
  have hgives2 := hgives2.grows hlater.second
  obtain ⟨n1, srt1, rfl, howns1⟩ := hgives1.const hlater.soundFirst
  obtain ⟨n2, srt2, rfl, howns2⟩ := hgives2.const hlater.soundSecond
  have hd := Term.mkEq_ok (P := e1.OwnsEither e2) ⟨.const n1 srt1, .const (.inl howns1)⟩
    ⟨.const n2 srt2, .const (.inr howns2)⟩ hc
  refine ⟨hd.proper, fun s => ?_⟩
  rw [hd.eval, hgives1.look_eq, hgives2.look_eq]

theorem Comparator.ends_sameValues {fs : List Term} (h : (sameValues vs).Ends t fs t') :
    t.Builds ν t' ν ∧ ∀ e1 e2, t'.Later e1 e2 → ∀ b s,
      (∀ f ∈ fs, f.holds (s.cutAs b) = true) ↔ ∀ v ∈ Var.arranged vs, v.SameIn e1 e2 s := by
  simp only [sameValues, ends_bind, ends_lift] at h
  obtain ⟨ds, _, ⟨hds, rfl⟩, us, _, ⟨hus, rfl⟩, h⟩ := h
  have harranged : Var.arranged vs = us := by
    have hboth : (do Var.sortByName (← Var.distinct vs)) = .ok us := bind_eq_ok.mpr ⟨ds, hds, hus⟩
    rw [Var.arranged, hboth]
  rw [harranged]
  clear harranged hus
  -- the variables are compared one after the other, in their order
  induction us generalizing t fs with
  | nil =>
    obtain ⟨rfl, rfl⟩ := ends_mapM_nil.mp h
    exact ⟨.refl _ _, fun _ _ _ => by simp⟩
  | cons v us ih =>
    obtain ⟨f, t1, hf, fs, hfs, rfl⟩ := ends_mapM_cons.mp h
    obtain ⟨hb1, hd⟩ := ends_sameValue (ν := ν) hf
    obtain ⟨hb2, hih⟩ := ih hfs
    refine ⟨hb1.trans hb2, fun e1 e2 hlater b s => ?_⟩
    have hd := hd e1 e2 (hlater.of_builds hb2)
    rw [List.forall_mem_cons, List.forall_mem_cons, hlater.holds_iff hd, hih e1 e2 hlater]
    rfl

end SameValue

/-! ## §5 Comparators -/

namespace Comparator

variable {ν : Nat → Constraint} {c : Constraint}

theorem ends_goal {name : String} {f : Term} (h : (onFirst (Build.goal name f)).Ends t c t') :
    ∃ i ν', c = .goal i name f ∧ t.Builds ν t' ν' ∧ t'.Lists ν' c := by
  rw [ends_onFirst] at h
  obtain ⟨σ, h, rfl⟩ := h
  obtain ⟨i, ν', rfl, hb, hl⟩ := Build.ends_goal (ν := ν) h
  exact ⟨i, ν', rfl, Twin.Builds.onFirst hb, hl⟩

/-- The goal of a conjunction is true if all its members are. -/
theorem ends_conjunctionGoal {name : String} {fs : List Term}
    (h : (conjunctionGoal name fs).Ends t c t') :
    ∃ ν', t.Builds ν t' ν' ∧ t'.Lists ν' c ∧ c.Sorted ∧
      ∀ b s, c.Holds b s ↔ ∀ f ∈ fs, f.holds (s.cutAs b) = true := by
  unfold conjunctionGoal at h
  split at h
  · obtain ⟨i, ν', rfl, hb, hl⟩ := ends_goal (ν := ν) h
    exact ⟨ν', hb, hl, Constraint.sorted_goal, by simp⟩
  · obtain ⟨i, ν', rfl, hb, hl⟩ := ends_goal (ν := ν) h
    exact ⟨ν', hb, hl, Constraint.sorted_goal, by simp⟩
  · obtain ⟨i, ν', rfl, hb, hl⟩ := ends_goal (ν := ν) h
    exact ⟨ν', hb, hl, Constraint.sorted_goal, by simp⟩

/-- Whether a comparator is about the values of variables only. -/
def IsPlain : Comparator → Prop
  | .nothing | .stackPointer _ | .registers _ _ => True
  | .calls | .conditions _ _ => False

/-- What a comparator takes for granted on entry. -/
def Assumes (e1 e2 : Environment) (s : State) : Comparator → Prop
  | .stackPointer sp => sp.SameIn e1 e2 s ∧ e1.SpInRange s
  | .registers pre _ => ∀ v ∈ Var.arranged pre, v.SameIn e1 e2 s
  | _ => True

def Demands (e1 e2 : Environment) (s : State) : Comparator → Prop
  | .stackPointer sp => sp.SameIn e1 e2 s
  | .registers _ post => ∀ v ∈ Var.arranged post, v.SameIn e1 e2 s
  | _ => True

variable {first second : Sub} {cmp : Comparator}

theorem means_trivial : (onFirst Build.trivial).Means fun _ _ _ => True := by
  intro t c t' ν h
  obtain ⟨i, ν', rfl, hb, hl⟩ := ends_goal (ν := ν) h
  exact ⟨ν', hb, hl, Constraint.sorted_goal, by simp⟩

theorem means_sameValues {name : String} :
    (do conjunctionGoal name (← sameValues vs)).Means fun e1 e2 s =>
      ∀ v ∈ Var.arranged vs, v.SameIn e1 e2 s := by
  intro t c t' ν h
  obtain ⟨fs, t1, hfs, hc⟩ := ends_bind.mp h
  obtain ⟨hb1, hsame⟩ := ends_sameValues (ν := ν) hfs
  obtain ⟨ν2, hb2, hl2, hsort, hholds⟩ := ends_conjunctionGoal (ν := ν) hc
  refine ⟨ν2, hb1.trans hb2, hl2, hsort, fun e1 e2 hlater b s => ?_⟩
  rw [hholds, hsame e1 e2 (hlater.of_builds hb2)]

theorem means_hypothesis (hcmp : cmp.IsPlain) :
    (cmp.hypothesis first second).Means fun e1 e2 s => cmp.Assumes e1 e2 s := by
  cases cmp with
  | nothing => exact means_trivial
  | stackPointer sp =>
    intro t c t' ν h
    simp only [hypothesis, ends_bind] at h
    obtain ⟨same, t1, hsame, g, t2, hg, r, t3, hr, hc⟩ := h
    obtain ⟨hb1, hd⟩ := ends_sameValue (ν := ν) hsame
    obtain ⟨i, ν2, rfl, hb2, hl2⟩ := ends_goal (ν := ν) hg
    rw [ends_onFirst] at hr hc
    obtain ⟨σ3, hr, rfl⟩ := hr
    obtain ⟨ν3, hb3, hl3, hsort3, hrange⟩ := Build.ends_stackInRange (ν := ν2) hr
    have hb3 := Twin.Builds.onFirst hb3
    obtain ⟨σ4, hc, rfl⟩ := hc
    obtain ⟨j, ν4, rfl, hb4, hl4⟩ := Build.ends_clause (ν := ν3) hc (by simp)
      (by simpa using ⟨hb3.lists hl2, hl3⟩)
    have hb4 := Twin.Builds.onFirst hb4
    refine ⟨ν4, ((hb1.trans hb2).trans hb3).trans hb4, hl4, by simpa using hsort3,
      fun e1 e2 hlater b s => ?_⟩
    -- both parts are read in environments that come after all of the building
    have hlater3 := hlater.of_builds hb4
    have hsame := hlater.holds_iff (hd e1 e2 (hlater3.of_builds (hb2.trans hb3))) (b := b) (s := s)
    simp [Assumes, Var.SameIn, hsame, hrange e1 hlater3.first hlater.soundFirst]
  | registers pre post => exact means_sameValues
  | calls => exact hcmp.elim
  | conditions pre post => exact hcmp.elim

theorem means_postcondition (hcmp : cmp.IsPlain) :
    (cmp.postcondition first second).Means fun e1 e2 s => cmp.Demands e1 e2 s := by
  cases cmp with
  | nothing => exact means_trivial
  | stackPointer sp =>
    intro t c t' ν h
    simp only [postcondition, ends_bind] at h
    obtain ⟨same, t1, hsame, hc⟩ := h
    obtain ⟨hb1, hd⟩ := ends_sameValue (ν := ν) hsame
    obtain ⟨i, ν2, rfl, hb2, hl2⟩ := ends_goal (ν := ν) hc
    refine ⟨ν2, hb1.trans hb2, hl2, Constraint.sorted_goal, fun e1 e2 hlater b s => ?_⟩
    rw [Constraint.holds_goal, hlater.holds_iff (hd e1 e2 (hlater.of_builds hb2))]
    exact Iff.rfl
  | registers pre post => exact means_sameValues
  | calls => exact hcmp.elim
  | conditions pre post => exact hcmp.elim

end Comparator

end Antecedent
