import Mathlib.Data.List.TakeWhile
import Antecedent.Proofs.Comparators

/-!
# Composing two subroutines

The precondition of the first subroutine for the precondition of the second one is about the runs of
both: the two have constants of their own, so neither run sees the other.

* `Compares` is the inversion principle for comparisons.
* `compareSubs_valid_iff` says what the condition that compares two subroutines means.
-/

namespace Antecedent

/-! ## §1 Names and symbols -/

/-- A name that is its own symbol: a text, not empty and without a null character. -/
def Label.NullFree : Label → Prop
  | .text s => s ≠ "" ∧ '\x00' ∉ s.toList
  | _ => False

/-- A text without null characters is its own symbol. -/
theorem Symbol.ofText_eq_text {s : String} (hne : s ≠ "") (hnull : '\x00' ∉ s.toList) :
    Symbol.ofText s = .text s := by
  have htake : s.toList.takeWhile (· != '\x00') = s.toList := by
    rw [List.takeWhile_eq_self_iff]
    intro c hc
    exact bne_iff_ne.mpr fun heq => hnull (heq ▸ hc)
  rw [ofText, htake, if_neg (by simpa using hne), String.ofList_toList]

theorem Label.NullFree.symbolOf {x : Label} (h : x.NullFree) :
    ∃ s, x = .text s ∧ Term.symbolOf x = .ok (.text s) := by
  cases x with
  | text s => exact ⟨s, rfl, by rw [Term.symbolOf, Symbol.ofText_eq_text h.1 h.2]⟩
  | null | bool _ | int _ | float _ => exact h.elim

/-- Different names without null characters have different symbols. -/
theorem Environment.disjoint_symbols {e1 e2 : Environment} (h1 : ∀ x ∈ e1.introduced, x.NullFree)
    (h2 : ∀ x ∈ e2.introduced, x.NullFree) (h : ∀ x ∈ e1.introduced, x ∉ e2.introduced) :
    ∀ x ∈ e1.symbols, x ∉ e2.symbols := by
  intro name hname hname'
  simp only [symbols, List.mem_filterMap] at hname hname'
  obtain ⟨x, hx, hxname⟩ := hname
  obtain ⟨y, hy, hyname⟩ := hname'
  obtain ⟨s, rfl, hs⟩ := (h1 x hx).symbolOf
  obtain ⟨s', rfl, hs'⟩ := (h2 y hy).symbolOf
  rw [hs] at hxname
  rw [hs'] at hyname
  cases hxname
  cases hyname
  exact h _ hx hy

/-! ## §2 Comparisons -/

/-- The environments of a comparison are made to differ: if neither has constants of its own, the
second one is freshened. -/
def Twin.Prepared (t t0 : Twin) : Prop :=
  (t.first.freshened && t.second.freshened) = false ∧
    if (t.first.freshened || t.second.freshened) = true then t0 = t
    else ∃ e, t.second.freshen = .ok e ∧ t0 = { t with second := e }

/-- A comparison that ends, with the conditions that its comparators gave on exit and on entry. -/
def Compares (posts hyps : List (Compare Constraint)) (first second : Sub) (t : Twin)
    (ps hs : List Constraint) (c : Constraint) (t' : Twin) : Prop :=
  ∃ t0 t1 t2 t3 t4 t5 post inner outer, t.Prepared t0 ∧ (posts.mapM id).Ends t0 ps t1 ∧
    (onFirst (Build.clause [] ps)).Ends t1 post t2 ∧
    (onSecond (precondition post second)).Ends t2 inner t3 ∧
    (onFirst (precondition inner first)).Ends t3 outer t4 ∧ (hyps.mapM id).Ends t4 hs t5 ∧
    (onFirst (Build.clause hs [outer])).Ends t5 c t'

theorem ends_compareSubs {posts hyps : List (Compare Constraint)} {first second : Sub} {t t' : Twin}
    {c : Constraint} : (compareSubs posts hyps first second).Ends t c t' ↔
      ∃ ps hs, Compares posts hyps first second t ps hs c t' := by
  simp only [compareSubs, ends_bind, ends_get, Compares, Twin.Prepared]
  by_cases hboth : (t.first.freshened && t.second.freshened) = true
  · simp [hboth]
  rw [Bool.not_eq_true] at hboth
  by_cases hone : (t.first.freshened || t.second.freshened) = true
  · -- the comparison starts with the environments as they are
    have hneither : (!(t.first.freshened || t.second.freshened)) = false := by rw [hone]; rfl
    constructor
    · rintro ⟨_, _, ⟨rfl, rfl⟩, h⟩
      simp only [hboth, hneither, Bool.false_eq_true, if_false, ends_bind] at h
      obtain ⟨ps, t1, hps, post, t2, hpost, inner, t3, hinner, outer, t4, houter, hs, t5, hhs,
        hc⟩ := h
      exact ⟨ps, hs, t, t1, t2, t3, t4, t5, post, inner, outer, ⟨hboth, by rw [if_pos hone]⟩, hps,
        hpost, hinner, houter, hhs, hc⟩
    · rintro ⟨ps, hs, t0, t1, t2, t3, t4, t5, post, inner, outer, ⟨-, hprep⟩, hps, hpost, hinner,
        houter, hhs, hc⟩
      rw [if_pos hone] at hprep
      subst hprep
      refine ⟨_, _, ⟨rfl, rfl⟩, ?_⟩
      simp only [hboth, hneither, Bool.false_eq_true, if_false, ends_bind]
      exact ⟨ps, t1, hps, post, t2, hpost, inner, t3, hinner, outer, t4, houter, hs, t5, hhs, hc⟩
  · -- the second environment is freshened
    have hneither : (!(t.first.freshened || t.second.freshened)) = true := by simpa using hone
    constructor
    · rintro ⟨_, _, ⟨rfl, rfl⟩, h⟩
      simp only [hboth, hneither, Bool.false_eq_true, if_false, if_true, ends_bind, ends_lift,
        ends_modify] at h
      obtain ⟨e, _, ⟨he, rfl⟩, _, _, rfl, ps, t1, hps, post, t2, hpost, inner, t3, hinner, outer,
        t4, houter, hs, t5, hhs, hc⟩ := h
      exact ⟨ps, hs, _, t1, t2, t3, t4, t5, post, inner, outer,
        ⟨hboth, by rw [if_neg hone]; exact ⟨e, he, rfl⟩⟩, hps, hpost, hinner, houter, hhs, hc⟩
    · rintro ⟨ps, hs, t0, t1, t2, t3, t4, t5, post, inner, outer, ⟨-, hprep⟩, hps, hpost, hinner,
        houter, hhs, hc⟩
      rw [if_neg hone] at hprep
      obtain ⟨e, he, rfl⟩ := hprep
      refine ⟨_, _, ⟨rfl, rfl⟩, ?_⟩
      simp only [hboth, hneither, Bool.false_eq_true, if_false, if_true, ends_bind, ends_lift,
        ends_modify]
      exact ⟨e, t, ⟨he, rfl⟩, (), _, rfl, ps, t1, hps, post, t2, hpost, inner, t3, hinner, outer,
        t4, houter, hs, t5, hhs, hc⟩

/-- Preparing keeps the environments sound, and their conditions on accesses; an environment that is
freshened already stays. -/
theorem Twin.Prepared.keeps {t t0 : Twin} (h : t.Prepared t0) (hs2 : t.second.Sound) :
    t0.first = t.first ∧ t0.second.Sound ∧ t0.second.hooks = t.second.hooks ∧
      t0.supply = t.supply ∧ (t.second.freshened = true → t0 = t) := by
  obtain ⟨-, h⟩ := h
  split at h
  · subst h
    exact ⟨rfl, hs2, rfl, rfl, fun _ => rfl⟩
  · next hone =>
    obtain ⟨e, he, rfl⟩ := h
    have hready := Environment.ready_freshen he
    exact ⟨rfl, hready.sound, hready.hooks, rfl, fun hfresh => by simp [hfresh] at hone⟩

section Comparison

variable {posts hyps : List (Compare Constraint)} {first second : Sub} {t t' : Twin}
  {ps hs : List Constraint} {c : Constraint}

/-- The condition of a comparison is a clause about the precondition of the first subroutine, for
the precondition of the second one as its postcondition. -/
theorem Compares.meets {R R' : List Constraint → Environment → Environment → Prop}
    {ν : Nat → Constraint} (h : Compares posts hyps first second t ps hs c t')
    (hposts : Compare.Yield posts R) (hhyps : Compare.Yield hyps R') (hs1 : t.first.Sound)
    (hs2 : t.second.Sound) (hfit1 : ∀ hook ∈ t.first.hooks, hook.Fit)
    (hfit2 : ∀ hook ∈ t.second.hooks, hook.Fit) (hcalls1 : first.CallFree)
    (hcalls2 : second.CallFree) (hknown1 : first.IsKnown) (hknown2 : second.IsKnown) :
    t'.Later t'.first t'.second ∧ t.first.Grows t'.first ∧ t'.second.hooks = t.second.hooks ∧
      (t.second.freshened = true → t.second.Grows t'.second) ∧
      ∃ ν' i j inner outer, c = .clause i hs [outer] ∧ (∀ d, t.Lists ν d → t'.Lists ν' d) ∧
        t'.Lists ν' c ∧ (∀ p ∈ ps, t'.Lists ν' p) ∧ (∀ p ∈ hs, t'.Lists ν' p) ∧
        ∀ e1 e2, t'.Later e1 e2 → R ps e1 e2 ∧ R' hs e1 e2 ∧ first.Meets e1 inner outer ∧
          second.Meets e2 (.clause j [] ps) inner := by
  obtain ⟨t0, t1, t2, t3, t4, t5, post, inner, outer, hprep, hps, hpost, hinner, houter, hhs,
    hc⟩ := h
  obtain ⟨hfirst, hs2, hhooks2, hsupply, hfresh⟩ := hprep.keeps hs2
  rw [← hfirst] at hs1 hfit1 ⊢
  rw [← hhooks2] at hfit2 ⊢
  -- the conditions on exit
  obtain ⟨ν1, hb1, hl1, hr1⟩ := hposts (ν := ν) hps
  rw [ends_onFirst] at hpost houter hc
  rw [ends_onSecond] at hinner
  obtain ⟨σ2, hpost, rfl⟩ := hpost
  obtain ⟨j, ν2, rfl, hb2, hl2⟩ := Build.ends_clause (ν := ν1) hpost (by simp) hl1
  have hb2 := Twin.Builds.onFirst hb2
  -- the precondition of the second subroutine
  obtain ⟨σ3, hinner, rfl⟩ := hinner
  obtain ⟨ν3, hb3, hl3, hmeets2⟩ := Build.ends_precondition (ν := ν2) hinner
    ((hb1.trans hb2).soundSecond hs2) ((hb1.trans hb2).second.hooks ▸ hfit2) hcalls2 hknown2 hl2
  have hb3 := Twin.Builds.onSecond hb3
  -- the precondition of the first subroutine
  obtain ⟨σ4, houter, rfl⟩ := houter
  have hb13 := (hb1.trans hb2).trans hb3
  obtain ⟨ν4, hb4, hl4, hmeets1⟩ := Build.ends_precondition (ν := ν3) houter
    (hb13.soundFirst hs1) (hb13.first.hooks ▸ hfit1) hcalls1 hknown1 hl3
  have hb4 := Twin.Builds.onFirst hb4
  -- the hypotheses
  obtain ⟨ν5, hb5, hl5, hr5⟩ := hhyps (ν := ν4) hhs
  obtain ⟨σ6, hc, rfl⟩ := hc
  obtain ⟨i, ν6, rfl, hb6, hl6⟩ := Build.ends_clause (ν := ν5) hc hl5
    (List.forall_mem_singleton.mpr (hb5.lists hl4))
  have hb6 := Twin.Builds.onFirst hb6
  have hrest := (((hb2.trans hb3).trans hb4).trans hb5).trans hb6
  have hall := hb1.trans hrest
  refine ⟨⟨.refl _, .refl _, hall.soundFirst hs1, hall.soundSecond hs2⟩, hall.first,
    hall.second.hooks, fun h => hfresh h ▸ hall.second, ν6, i, j, inner, outer, rfl,
    fun d hd => hall.lists ?_, hl6, fun p hp => hrest.lists (hl1 p hp),
    fun p hp => hb6.lists (hl5 p hp), fun e1 e2 hlater => ⟨?_, ?_, ?_, ?_⟩⟩
  · rwa [Twin.Lists, hsupply]
  · exact hr1 e1 e2 (hlater.of_builds hrest)
  · exact hr5 e1 e2 (hlater.of_builds hb6)
  · exact hmeets1 e1 ((hb5.trans hb6).first.trans hlater.first) hlater.soundFirst
  · exact hmeets2 e2 (((hb4.trans hb5).trans hb6).second.trans hlater.second) hlater.soundSecond

/-- The states of the two sides of a comparison in one: the constants of the second side come from
the second state, all others from the first. -/
def Twin.pair (t : Twin) (s1 s2 : State) : State :=
  s1.patch t.second.symbols s2

variable {e : Environment} {names : List Symbol}

theorem Environment.Sound.frame_left (hs : e.Sound) (h : ∀ x ∈ e.symbols, x ∉ names) (u : State) :
    e.Frame fun s => s.patch names u where
  agree _ _ _ ho := (State.const_patch_not_mem (h _ (hs.owns_symbol ho))).symm
  set _ _ _ _ ho := State.patch_set_not_mem (h _ (hs.owns_symbol ho))

theorem Environment.Sound.frame_right (hs : e.Sound) (u : State) :
    e.Frame fun s => u.patch e.symbols s where
  agree _ _ _ ho := (State.const_patch_mem (hs.owns_symbol ho)).symm
  set _ _ _ _ ho := State.patch_set_mem (hs.owns_symbol ho)

end Comparison

/-! ## §3 Two counters -/

/-- Two counters, the second one with a constant of its own. -/
def counterTwin : Twin where
  first := counterEnv false
  second := counterEnv true

def counters : Comparator :=
  .registers [counter] [counter]

def sameCounters (i : Nat) (name : String) : Constraint :=
  .goal i name (.app .eq [counterTerm false, counterTerm true])

/-- The condition before the two runs. -/
def drainsPre : Constraint :=
  drainPre 5 (counterTerm false)
    (drainPre 2 (counterTerm true) (.clause 1 [] [sameCounters 0 "registers equal on exit"]))

def drainsEqual : Constraint :=
  .clause 9 [sameCounters 8 "registers equal on entry"] [drainsPre]

theorem ends_drains :
    (compareSubs [counters.postcondition drain drain]
      [counters.hypothesis drain drain] drain drain).Ends counterTwin
      drainsEqual { counterTwin with supply := { nodes := 10 } } :=
  ends_compareSubs.mpr ⟨_, _, counterTwin, { counterTwin with supply := { nodes := 1 } },
    { counterTwin with supply := { nodes := 2 } }, { counterTwin with supply := { nodes := 5 } },
    { counterTwin with supply := { nodes := 8 } }, { counterTwin with supply := { nodes := 9 } },
    _, _, _, ⟨rfl, rfl⟩, rfl, rfl, ends_onSecond.mpr ⟨_, ends_drain true { nodes := 2 } _, rfl⟩,
    ends_onFirst.mpr ⟨_, ends_drain false { nodes := 5 } _, rfl⟩, rfl, rfl⟩

theorem nullFree_counterEnv (fresh : Bool) : ∀ x ∈ (counterEnv fresh).introduced, x.NullFree := by
  rw [counterEnv, List.forall_mem_singleton]
  cases fresh <;> exact ⟨by decide, by decide⟩

theorem tame_counters :
    (∀ act ∈ [counters.postcondition drain drain], act.Tame) ∧
      ∀ act ∈ [counters.hypothesis drain drain], act.Tame := by
  have hplain : counters.IsPlain := True.intro
  simp only [List.forall_mem_singleton]
  exact ⟨(Comparator.means_postcondition hplain).tame, (Comparator.means_hypothesis hplain).tame⟩

theorem flatten_drainsEqual :
    drainsEqual.flatten? true = .ok (drainsEqual.flatten true) := by
  have hcoherent : drainsEqual.Coherent := by
    simp [Constraint.Coherent, drainsEqual, drainsPre, drainPre, oneLess, sameCounters,
      Constraint.subtrees, Constraint.subtreesList, Constraint.id]
  refine (hcoherent.flatten?_eq ?_ true).1
  simp [drainsEqual, drainsPre, drainPre, oneLess, sameCounters, Replacement.keepsSorts,
    counterTerm, Term.sort]

/-! ## §4 Self-composition -/

/-- **Self-composition**: the condition that compares two subroutines is valid exactly if, for every
state of either side such that the hypotheses hold in both together, whenever both runs leave, the
conditions on exit hold in the states where they leave. -/
theorem compareSubs_valid_iff {posts hyps : List (Compare Constraint)} {first second : Sub}
    {t t' : Twin} {c : Constraint} {φ : Term}
    (hrun : (compareSubs posts hyps first second).Ends t c t')
    (hposts : ∀ act ∈ posts, act.Tame) (hhyps : ∀ act ∈ hyps, act.Tame) (hs1 : t.first.Sound)
    (hs2 : t.second.Sound) (hhooks1 : t.first.hooks = []) (hhooks2 : t.second.hooks = [])
    (hcalls1 : first.CallFree) (hcalls2 : second.CallFree) (hknown1 : first.IsKnown)
    (hknown2 : second.IsKnown) (hdisjoint : ∀ x ∈ t'.first.symbols, x ∉ t'.second.symbols)
    (hφ : c.flatten? true = .ok φ) :
    ∃ ps hs, Compares posts hyps first second t ps hs c t' ∧
      ((∀ s, φ.holds s = true) ↔
        ∀ s1 s2, (∀ h ∈ hs, (h.flatten true).holds (t'.pair s1 s2) = true) →
          ∀ s1' s2', first.Runs t'.first s1 (.exit s1') → second.Runs t'.second s2 (.exit s2') →
            ∀ p ∈ ps, (p.flatten true).holds (t'.pair s1' s2') = true) := by
  obtain ⟨ps, hs, hcomp⟩ := ends_compareSubs.mp hrun
  obtain ⟨hlater, hgrows1, he2, -, ν, i, j, inner, outer, rfl, -, hl, hlp, hlh, hmeets⟩ :=
    hcomp.meets (ν := default) (Compare.Tame.yield hposts) (Compare.Tame.yield hhyps) hs1 hs2
      (by simp [hhooks1]) (by simp [hhooks2]) hcalls1 hcalls2 hknown1 hknown2
  have hs1 := hlater.soundFirst
  have hs2 := hlater.soundSecond
  have he1 := hgrows1.hooks.trans hhooks1
  rw [hhooks2] at he2
  obtain ⟨-, -, hfirst, hsecond⟩ := hmeets _ _ hlater
  obtain ⟨hsort, rfl⟩ := hl.flatten?_eq_ok.mp hφ
  have houter : outer.Sorted := by simpa using (Constraint.sorted_clause.mp hsort).2
  refine ⟨ps, hs, hcomp, ?_⟩
  have hps : ∀ s, (∀ p ∈ ps, (p.flatten true).holds s = true) ↔ ∀ p ∈ ps, p.Holds true s :=
    fun s => forall₂_congr fun p hp => (hlp p hp).holds_flatten true s
  have hhs : ∀ s, (∀ p ∈ hs, (p.flatten true).holds s = true) ↔ ∀ p ∈ hs, p.Holds true s :=
    fun s => forall₂_congr fun p hp => (hlh p hp).holds_flatten true s
  simp only [hl.holds_flatten, hps, hhs, Constraint.holds_clause, List.forall_mem_singleton]
  constructor
  · intro hvalid s1 s2 hhyps s1' s2' hrun1 hrun2
    -- both runs take place in the paired state, one after the other
    have hrun1' : first.Runs t'.first (t'.pair s1 s2) (.exit (t'.pair s1' s2)) :=
      hrun1.frame he1 hs1 (hs1.frame_left hdisjoint s2) hfirst.settled
    have hrun2' : second.Runs t'.second (t'.pair s1' s2) (.exit (t'.pair s1' s2')) :=
      hrun2.frame he2 hs2 (hs2.frame_right s1') hsecond.settled
    have hinner := ((hfirst.means houter true _).mp (hvalid _ hhyps)).holds hrun1'
    have hsorted := houter.of_mem (hfirst.exits _ _ hrun1')
    simpa using ((hsecond.means hsorted true _).mp hinner).holds hrun2'
  · intro hpair s hhyps
    rw [hfirst.means houter, Sub.endsWell_iff he1]
    obtain ⟨o1, hrun1⟩ := hfirst.settled.runs s
    rcases hrun1.exit_or_cut he1 with ⟨s1, rfl⟩ | rfl
    · refine .inl ⟨s1, hrun1, ?_⟩
      rw [hsecond.means (houter.of_mem (hfirst.exits _ _ hrun1)), Sub.endsWell_iff he2]
      -- the first run leaves the second side alone
      have hs1' : t'.pair s1 s = s1 := by
        rw [← hrun1.patch hs1 hfirst.settled]
        exact State.patch_patch_of_disjoint hdisjoint s s1
      obtain ⟨o2, hrun2⟩ := hsecond.settled.runs s
      have hrun2' := hrun2.frame he2 hs2 (hs2.frame_right s1) hsecond.settled
      change second.Runs t'.second (t'.pair s1 s) _ at hrun2'
      rw [hs1'] at hrun2'
      rcases hrun2.exit_or_cut he2 with ⟨s2, rfl⟩ | rfl
      · refine .inl ⟨t'.pair s1 s2, hrun2', ?_⟩
        simpa using hpair s s (by simpa [Twin.pair] using hhyps) s1 s2 hrun1 hrun2
      · exact .inr ⟨hrun2', rfl⟩
    · exact .inr ⟨hrun1, rfl⟩

/-- Two drained counters compare as equal exactly if equal counters stay equal. -/
theorem compareSubs_valid_iff_drain : ∃ ps hs,
    Compares [counters.postcondition drain drain] [counters.hypothesis drain drain]
      drain drain counterTwin ps hs drainsEqual
      { counterTwin with supply := { nodes := 10 } } ∧
    ((∀ s, (drainsEqual.flatten true).holds s = true) ↔
      ∀ s1 s2, (∀ h ∈ hs, (h.flatten true).holds (counterTwin.pair s1 s2) = true) →
        ∀ s1' s2', drain.Runs counterTwin.first s1 (.exit s1') →
          drain.Runs counterTwin.second s2 (.exit s2') →
            ∀ p ∈ ps, (p.flatten true).holds (counterTwin.pair s1' s2') = true) :=
  compareSubs_valid_iff ends_drains tame_counters.1 tame_counters.2 (sound_counterEnv false)
    (sound_counterEnv true) rfl rfl callFree_drain callFree_drain isKnown_drain
    isKnown_drain (Environment.disjoint_symbols (nullFree_counterEnv false)
      (nullFree_counterEnv true) (by decide)) flatten_drainsEqual

/-! ## §5 Names that share a symbol

The symbol of a name ends at the first null character, and the suffix of a freshened name comes
after it.  So the two sides may introduce different names and still share a constant. -/

/-- A variable with a null character in its name. -/
def shadow : Var :=
  { name := .str "a\x00", width := .int 8 }

def shadowTerm : Term :=
  .const (.text "a") (.bits 8)

/-- An environment that knows the counter and this variable. -/
def shadowEnv (fresh : Bool) : Environment :=
  { counterEnv fresh with
    vars := [(.text "n", counterTerm fresh), (.text "a\x00", shadowTerm)]
    introduced := [.text (counterName fresh), .text (if fresh then "a\x00_mod" else "a\x00")] }

theorem sound_shadowEnv (fresh : Bool) : (shadowEnv fresh).Sound := by
  intro t ht
  obtain rfl | rfl : t = counterTerm fresh ∨ t = shadowTerm := by
    simpa [Environment.constants, shadowEnv, counterEnv] using ht
  · exact ⟨.text (counterName fresh), .bits 8, rfl, by simp, by cases fresh <;> decide⟩
  · exact ⟨.text "a", .bits 8, rfl, by simp, by cases fresh <;> decide⟩

def shadowTwin : Twin where
  first := shadowEnv false
  second := shadowEnv true

def setShadow : Sub :=
  .straight [{ tid := .str "one", lhs := shadow, rhs := .int 1 (.int 8) },
    { tid := .str "two", lhs := counter, rhs := .int 1 (.int 8) }]

def readShadow : Sub :=
  .straight [{ tid := .str "one", lhs := counter, rhs := .var shadow }]

/-- The condition that compares the counters after writing and after reading the variable. -/
def shadowsEqual : Constraint :=
  .clause 5 [] [.subst 4 (.subst 3 (.subst 2
    (.clause 1 [] [sameCounters 0 "registers equal on exit"])
    [(counterTerm true, shadowTerm)]) [(counterTerm false, .num 8 1)]) [(shadowTerm, .num 8 1)]]

theorem ends_shadows :
    (compareSubs [counters.postcondition setShadow readShadow] []
      setShadow readShadow).Ends shadowTwin shadowsEqual
      { shadowTwin with supply := { nodes := 6 } } :=
  ends_compareSubs.mpr ⟨_, _, shadowTwin, { shadowTwin with supply := { nodes := 1 } },
    { shadowTwin with supply := { nodes := 2 } }, { shadowTwin with supply := { nodes := 3 } },
    { shadowTwin with supply := { nodes := 5 } }, { shadowTwin with supply := { nodes := 5 } },
    _, _, _, ⟨rfl, rfl⟩, rfl, rfl, rfl, rfl, rfl, rfl⟩

/-- The condition is always true: the second side reads what the first one wrote. -/
theorem holds_shadowsEqual (s : State) : shadowsEqual.Holds true s := by
  have hone : ∀ s : State, ((Term.num 8 1).eval s).Fits (.bits 8) := by simp [Value.Fits]
  have hread : ∀ s : State, ((Term.const (.text "a") (.bits 8)).eval s).Fits (.bits 8) := by
    simp [State.fits_const]
  simp only [shadowsEqual, shadowTerm, counterTerm, Constraint.holds_clause,
    List.forall_mem_singleton]
  rintro -
  rw [Constraint.holds_subst (.inr (by simp)) (.num 8 1) (hone _),
    Constraint.holds_subst (.inr (by simp)) (.num 8 1) (hone _),
    Constraint.holds_subst (.inr (by simp)) (.const (by simp)) (hread _)]
  simp only [Constraint.holds_clause, List.forall_mem_singleton, sameCounters,
    Constraint.holds_goal]
  exact fun _ => rfl

theorem runs_setShadow (s : State) : setShadow.Runs (shadowEnv false) s
    (.exit ((s.set (.text "a") (.bits 8) (.bits 8 1)).set (.text "n") (.bits 8) (.bits 8 1))) := by
  exact Sub.runs_straight rfl

theorem runs_readShadow (s : State) : readShadow.Runs (shadowEnv true) s
    (.exit (s.set (.text "n_mod") (.bits 8) (s.const (.text "a") (.bits 8)))) := by
  exact Sub.runs_straight rfl

/-- It is not enough that the two sides introduce different names. -/
theorem not_valid_iff_of_disjoint_names :
    ¬∀ (posts hyps : List (Compare Constraint)) (first second : Sub) (t t' : Twin) (c : Constraint)
      (φ : Term), (compareSubs posts hyps first second).Ends t c t' → (∀ act ∈ posts, act.Tame) →
      (∀ act ∈ hyps, act.Tame) → t.first.Sound → t.second.Sound → t.first.hooks = [] →
      t.second.hooks = [] → first.CallFree → second.CallFree → first.IsKnown → second.IsKnown →
      (∀ x ∈ t'.first.introduced, x ∉ t'.second.introduced) → c.flatten? true = .ok φ →
      ∃ ps hs, Compares posts hyps first second t ps hs c t' ∧
        ((∀ s, φ.holds s = true) ↔
          ∀ s1 s2, (∀ h ∈ hs, (h.flatten true).holds (t'.pair s1 s2) = true) →
            ∀ s1' s2', first.Runs t'.first s1 (.exit s1') → second.Runs t'.second s2 (.exit s2') →
              ∀ p ∈ ps, (p.flatten true).holds (t'.pair s1' s2') = true) := by
  intro hall
  have htame : ∀ act ∈ [counters.postcondition setShadow readShadow], act.Tame :=
    List.forall_mem_singleton.mpr
      (Comparator.means_postcondition (show counters.IsPlain from True.intro)).tame
  have hknown1 : setShadow.IsKnown := Sub.isKnown_straight (by simp [Expr.isKnown])
  have hknown2 : readShadow.IsKnown := Sub.isKnown_straight (by simp [Expr.isKnown])
  have hcoherent : shadowsEqual.Coherent := .of_nodup (by decide)
  obtain ⟨hflatten, hholds⟩ := hcoherent.flatten?_eq (by simp [shadowsEqual, sameCounters,
    Replacement.keepsSorts, shadowTerm, counterTerm, Term.sort]) true
  obtain ⟨ps, hs, hcomp, hiff⟩ := hall _ _ _ _ _ _ _ _ ends_shadows htame (by simp)
    (sound_shadowEnv false) (sound_shadowEnv true) rfl rfl Sub.callFree_straight
      Sub.callFree_straight hknown1
    hknown2 (by decide) hflatten
  -- the conditions on exit and on entry are the ones given
  obtain ⟨t0, t1, t2, t3, t4, t5, post, inner, outer, ⟨-, hprep⟩, hps, -, -, -, hhs, -⟩ := hcomp
  obtain rfl : t0 = shadowTwin := hprep
  obtain rfl : ps = [sameCounters 0 "registers equal on exit"] := by
    cases hps
    rfl
  obtain rfl : hs = [] := by
    cases hhs
    rfl
  have hexit := hiff.mp (fun s => (hholds s).mpr (holds_shadowsEqual s)) .zero .zero (by simp)
    _ _ (runs_setShadow .zero) (runs_readShadow .zero) _ (List.mem_singleton_self _)
  rw [sameCounters, Constraint.holds_flatten_goal] at hexit
  cases hexit

end Antecedent
