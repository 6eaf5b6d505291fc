import Antecedent.Proofs.Agreement
import Antecedent.Proofs.MalformedFlow

/-!
# Comparisons that are built

The comparison of a well-typed subroutine with itself is not refused: every builder that it consists
of ends in all sessions of a typing, and the walks end because the graph is reducible.

* `Arch.Types` is the typing of a target, and `Sub.Comparable` says what a subroutine is like.
* `Options.exists_comparative` says that the comparison gives a question.
-/

namespace Antecedent

open ExceptT (meets_pure meets_lift meets_lift_bind meets_get_bind meets_mapM)

variable {e e' : Environment} {Γ : String → Srt} {E : Fault → Prop} {v : Var} {vs : List Var}
  {f : Sub} {srt : Srt} {r : String}

/-! ## §1 Well-typed targets -/

/-- The registers and the memory of a target have the sorts of their names, and its calling
convention is about its registers. -/
structure Arch.Types (arch : Arch) (Γ : String → Srt) : Prop where
  registers : ∀ r w, arch.width? r = some w → Term.IsWidth w ∧ Γ r = .bits w.toNat
  memory : ∃ k, Term.checkWidth arch.addressWidth = .ok k ∧ Γ arch.memoryName = .memory k
  special : ∀ r ∈ arch.inputRegisters ++
    (arch.stackPointer.toList ++ arch.returnRegister.toList), ∃ w, arch.width? r = some w

/-- A variable can be a member of a set and has the sort of its name. -/
def Var.Typed (e : Environment) (Γ : String → Srt) (v : Var) : Prop :=
  v.isMember = true ∧ ∃ srt, v.HasSort e Γ srt

theorem Var.Typed.text (h : v.Typed e Γ) : ∃ base, v.name = .str base :=
  let ⟨_, _, hsort⟩ := h
  hsort.name.imp fun _ => And.left

/-- Sorts depend on the target only. -/
theorem Var.Typed.of_arch (h : v.Typed e Γ) (harch : e'.arch = e.arch) : v.Typed e' Γ := by
  obtain ⟨hmember, srt, hname, hsort⟩ := h
  exact ⟨hmember, srt, hname, by rwa [Environment.sortOf, harch]⟩

namespace Arch.Types

variable (h : e.arch.Types Γ)
include h

theorem hasSort_memVar : ∃ k, Term.checkWidth e.arch.addressWidth = .ok k ∧
    e.memVar.HasSort e Γ (.memory k) := by
  obtain ⟨k, hk, hΓ⟩ := h.memory
  exact ⟨k, hk, ⟨_, rfl, hΓ⟩, by rw [Environment.sortOf, hk]; rfl⟩

theorem memVar : e.memVar.Typed e Γ :=
  h.hasSort_memVar.elim fun _ hk => ⟨rfl, _, hk.2⟩

theorem hasSort_regVar {w : Int} (hw : e.arch.width? r = some w) :
    e.regVar r = .ok { name := .str r, width := .int w } ∧
      ({ name := .str r, width := .int w } : Var).HasSort e Γ (.bits w.toNat) := by
  obtain ⟨hwidth, hΓ⟩ := h.registers r w hw
  refine ⟨by rw [Environment.regVar, Arch.width, hw]; rfl, ⟨r, rfl, hΓ⟩, ?_⟩
  have hfield : Term.fieldWidth (.int w) = .ok w.toNat := hwidth.checkWidth
  rw [Environment.sortOf]
  exact bind_eq_ok.mpr ⟨_, hfield, rfl⟩

theorem regVar (hr : ∃ w, e.arch.width? r = some w) : ∃ v, e.regVar r = .ok v ∧ v.Typed e Γ :=
  let ⟨_, hw⟩ := hr
  let ⟨hv, hsort⟩ := h.hasSort_regVar hw
  ⟨_, hv, rfl, _, hsort⟩

theorem exists_mapM_regVar {rs : List String} (hrs : ∀ r ∈ rs, ∃ w, e.arch.width? r = some w) :
    ∃ vs, rs.mapM e.regVar = .ok vs ∧ ∀ v ∈ vs, v.Typed e Γ := by
  obtain ⟨vs, hvs⟩ : ∃ vs, rs.mapM e.regVar = .ok vs :=
    exists_mapM_eq_ok fun r hr => (h.regVar (hrs r hr)).imp fun _ => And.left
  refine ⟨vs, hvs, fun v hv => ?_⟩
  obtain ⟨r, hr, hreg⟩ := (mem_of_mapM_eq_ok hvs).2 v hv
  obtain ⟨u, hu, htyped⟩ := h.regVar (hrs r hr)
  cases hu.symm.trans hreg
  exact htyped

end Arch.Types

theorem Var.Typed.exists_distinct (h : ∀ v ∈ vs, v.Typed e Γ) :
    ∃ us, Var.distinct vs = .ok us ∧ ∀ u ∈ us, u.Typed e Γ := by
  obtain ⟨us, hus⟩ := Var.exists_distinct fun v hv => (h v hv).1
  exact ⟨us, hus, fun u hu => h u ((Var.covers_distinct hus).sub u hu)⟩

theorem Var.Typed.exists_sortByName (h : ∀ v ∈ vs, v.Typed e Γ) :
    ∃ us, Var.sortByName vs = .ok us ∧ ∀ u ∈ us, u.Typed e Γ := by
  obtain ⟨us, hus⟩ := Var.exists_sortByName fun v hv => (h v hv).text
  exact ⟨us, hus, fun u hu => h u ((Label.sortBy_perm hus).mem_iff.mp hu)⟩

/-- A subroutine without calls has no callees. -/
theorem Sub.CallFree.callees_eq_nil (h : f.CallFree) : f.callees = [] := by
  have hjmps : ∀ j ∈ f.blks.flatMap Blk.jmps, j.kind ≠ .call := by
    intro j hj
    obtain ⟨b, hb, hj⟩ := List.mem_flatMap.mp hj
    exact h b hb j hj
  rw [Sub.callees]
  generalize f.blks.flatMap Blk.jmps = js at hjmps
  induction js with
  | nil => rfl
  | cons j js ih =>
    obtain ⟨hj, hjs⟩ := List.forall_mem_cons.mp hjmps
    rw [List.foldl_cons, beq_false_of_ne hj]
    exact ih hjs

/-- **The variables that matter are known**, and they are well typed. -/
theorem Environment.exists_relevantVars (harch : e.arch.Types Γ) (hcalls : f.CallFree)
    (hvars : ∀ v ∈ f.vars, v.Typed e Γ) :
    ∃ vs, e.relevantVars f = .ok vs ∧ ∀ v ∈ vs, v.Typed e Γ := by
  have hspecial := List.forall_mem_append.mp harch.special
  obtain ⟨own, hown, htown⟩ := Var.Typed.exists_distinct hvars
  -- without calls there are no variables of callees
  have hcallees : e.reachableCallees f = .ok [] := by
    rw [reachableCallees, hcalls.callees_eq_nil]
    rfl
  have hmine : ∀ v ∈ own ++ (([] : List Label).filterMap e.findSub?).flatMap Sub.vars,
      v.Typed e Γ := by
    simpa using htown
  obtain ⟨known, hknown, htknown⟩ := Var.Typed.exists_distinct hmine
  obtain ⟨inputs, hinputs, htinputs⟩ : ∃ inputs,
      (if e.useInputs then e.arch.inputRegisters.mapM e.regVar else pure []) = .ok inputs ∧
        ∀ v ∈ inputs, v.Typed e Γ := by
    split
    · exact harch.exists_mapM_regVar hspecial.1
    · exact ⟨[], rfl, by simp⟩
  obtain ⟨special, hmap, htspecial⟩ := harch.exists_mapM_regVar hspecial.2
  -- all that matters is typed: own variables, inputs, special registers and memory
  have hall : ∀ v ∈ known ++ inputs ++ special ++ [e.memVar], v.Typed e Γ := by
    simp only [List.forall_mem_append, List.forall_mem_singleton]
    exact ⟨⟨⟨htknown, htinputs⟩, htspecial⟩, harch.memVar⟩
  obtain ⟨vs, hvs, htvs⟩ := Var.Typed.exists_distinct hall
  refine ⟨vs, ?_, htvs⟩
  by_cases huse : e.useInputs = true
  · rw [if_pos huse] at hinputs
    simp only [relevantVars, bind_eq_ok, if_pos huse]
    exact ⟨own, hown, [], hcallees, known, hknown, inputs, hinputs, special, hmap, hvs⟩
  · rw [if_neg huse] at hinputs
    simp only [relevantVars, bind_eq_ok, if_neg huse]
    exact ⟨own, hown, [], hcallees, known, hknown, inputs, hinputs, special, hmap, hvs⟩

/-! ## §2 Builders of one environment -/

/-- A session of a typing in which entry values, too, have the sorts of their names. -/
def Session.Enters (e : Environment) (Γ : String → Srt) (σ : Session) : Prop :=
  Session.Types e Γ True σ ∧ ∀ base t, σ.env.inits.lookup base = some t → t.sort = Γ base

theorem Var.HasSort.enters_getVar (h : v.HasSort e Γ srt) :
    (Build.getVar v).Meets (Session.Enters e Γ) E fun t => t.sort = srt := by
  intro σ hσ
  refine (h.meets_getVar σ hσ.1).imp_left ?_
  rintro ⟨t, τ, hends, hτ, ht⟩
  have hinits : τ.env.inits = σ.env.inits := by
    obtain ⟨l, -, ⟨-, rfl⟩ | ⟨-, _, _, _, -, -, -, -, rfl⟩⟩ := Build.getVar_cases hends <;> rfl
  exact ⟨t, τ, hends, ⟨hτ, hinits ▸ hσ.2⟩, ht⟩

theorem Var.HasSort.enters_getInit (h : v.HasSort e Γ srt) :
    (Build.getInit v).Meets (Session.Enters e Γ) E fun t => t.sort = srt := by
  obtain ⟨base, hname, hsort⟩ := h.name
  intro σ hσ
  left
  -- an entry value that is there has the right sort, and a new one gets it
  cases hfind : σ.env.inits.lookup base with
  | some t =>
    refine ⟨t, σ, ?_, hσ, (hσ.2 base t hfind).trans hsort⟩
    simp only [Build.getInit, hname, ends_bind, Build.ends_env]
    exact ⟨_, _, ⟨rfl, rfl⟩, by rw [hfind]; exact ends_pure.mpr ⟨rfl, rfl⟩⟩
  | none =>
    have hsrt : σ.env.sortOf v = .ok srt := by
      rw [← h.sort, Environment.sortOf, Environment.sortOf, hσ.1.arch]
    have hends := Build.getInit_new hname hfind (σ.env.localName_text _) rfl hsrt
    have hσ' := hσ.1
    refine ⟨_, _, hends, ⟨⟨hσ'.1, hσ'.2, hσ'.3, hσ'.4, hσ'.5, hσ'.6, hσ'.7⟩, fun b t ht => ?_⟩, rfl⟩
    rw [List.lookup_append] at ht
    cases hold : σ.env.inits.lookup b with
    | some u =>
      rw [hold] at ht
      exact hσ.2 b t (hold.trans ht)
    | none =>
      rw [hold, Option.none_or] at ht
      by_cases hb : b = base
      · subst hb
        rw [List.lookup_cons_self] at ht
        cases ht
        exact hsort.symm
      · simp [List.lookup_cons, beq_false_of_ne hb] at ht

/-- The hypotheses about entry values are built. -/
theorem Build.enters_entryValues (h : ∀ v ∈ vs, v.Typed e Γ) :
    (entryValues vs).Meets (Session.Enters e Γ) E fun _ => True := by
  obtain ⟨us, hus, htyped⟩ := Var.Typed.exists_sortByName h
  refine meets_lift_bind hus
    ((meets_mapM (R := fun _ => True) fun v hv => ?_).mono fun _ _ => True.intro)
  obtain ⟨-, srt, hsort⟩ := htyped v hv
  refine hsort.enters_getInit.bind fun x hx => hsort.enters_getVar.bind fun y hy => ?_
  refine (Term.sorts_mkEq (hx.trans hy.symm)).meets_bind fun t _ => ?_
  refine fun σ hσ => .inl ⟨_, _, rfl, ⟨hσ.1.of_env rfl, hσ.2⟩, True.intro⟩

theorem Build.enters_entryHypotheses (harch : e.arch.Types Γ) (hcalls : f.CallFree)
    (hvars : ∀ v ∈ f.vars, v.Typed e Γ) :
    (entryHypotheses f).Meets (Session.Enters e Γ) E fun _ => True := by
  refine meets_env_bind fun σ hσ => ?_
  obtain ⟨vs, hvs, hall⟩ := Environment.exists_relevantVars (hσ.1.arch ▸ harch) hcalls
    fun v hv => (hvars v hv).of_arch hσ.1.arch
  exact meets_lift_bind hvs (enters_entryValues fun v hv => (hall v hv).of_arch hσ.1.arch.symm)

theorem Build.meets_getRegister {I : Session → Prop} {Q : Term → Prop}
    (hI : ∀ σ, I σ → σ.env.arch = e.arch) (hv : e.regVar r = .ok v)
    (h : (getVar v).Meets I E Q) : (getRegister r).Meets I E Q := by
  unfold getRegister
  refine meets_env_bind fun σ hσ => meets_lift_bind (a := v) ?_ h
  rw [Environment.regVar, hI σ hσ]
  exact hv

/-- Registers and the memory are given constants. -/
theorem Build.enters_seed (harch : e.arch.Types Γ) :
    seed.Meets (Session.Enters e Γ) E fun _ => True := by
  -- the loop over the registers keeps the invariant
  have hloop : ∀ rs : List String, (∀ r ∈ rs, ∃ w, e.arch.width? r = some w) →
      (forIn rs PUnit.unit fun r _ => do
        let _ ← getRegister r
        pure (ForInStep.yield PUnit.unit)).Meets (Session.Enters e Γ) E fun _ => True := by
    intro rs hrs
    induction rs with
    | nil => exact meets_pure True.intro
    | cons r rs ih =>
      obtain ⟨⟨w, hw⟩, hrs⟩ := List.forall_mem_cons.mp hrs
      rw [List.forIn_cons]
      obtain ⟨hv, hsort⟩ := harch.hasSort_regVar hw
      have hget := meets_getRegister (fun σ (hσ : Session.Enters e Γ σ) => hσ.1.arch) hv
        (hsort.enters_getVar (E := E))
      refine (hget.bind fun _ _ => meets_pure (Q := (· = ForInStep.yield PUnit.unit)) rfl).bind ?_
      rintro _ rfl
      exact ih hrs
  refine meets_env_bind fun σ hσ => (hloop _ fun r hr => ?_).bind fun _ _ => ?_
  · obtain ⟨w, hw⟩ := Arch.mem_registerNames.mp hr
    rw [hσ.1.arch] at hw
    rw [← Option.ne_none_iff_exists', Arch.width?, Ne, List.lookup_eq_none_iff]
    exact fun hall => by simpa using hall _ hw
  · obtain ⟨k, -, hsort⟩ := harch.hasSort_memVar
    refine ExceptT.Meets.bind (Q := fun _ => True) (meets_env_bind fun τ hτ => ?_)
      fun _ _ => meets_pure True.intro
    rw [Environment.memVar, hτ.1.arch]
    exact hsort.enters_getVar.mono fun _ _ => True.intro

/-- **An environment without constants is seeded.** -/
theorem Environment.exists_seeded (harch : e.arch.Types Γ)
    (hstart : Session.Types e Γ True ⟨{}, e'⟩) (hinits : e'.inits = [])
    (hsubs : ∀ s ∈ e'.subs, ∃ l, s.name.label = .ok l) :
    ∃ e'', e'.seeded = .ok e'' ∧ ∀ supply, Session.Enters e Γ ⟨supply, e''⟩ := by
  obtain ⟨ls, hls⟩ : ∃ ls, e'.subs.mapM (fun s => s.name.label) = .ok ls := exists_mapM_eq_ok hsubs
  have hσ : Session.Enters e Γ ⟨{}, e'⟩ := ⟨hstart, by simp [hinits]⟩
  obtain ⟨u, τ, hends, hτ, -⟩ := (Build.enters_seed harch).exists_ends hσ
  have hrun : Build.seed.run.run { env := e' } = (.ok u, τ) := hends
  refine ⟨τ.env, ?_, fun supply => ⟨hτ.1.of_env rfl, hτ.2⟩⟩
  rw [seeded, hls, hrun]
  rfl

/-! ## §3 Subroutines that can be compared -/

/-- What a subroutine is like that can be compared with itself: in the environments of a target and
a library it is well formed and its definitions keep sorts, its variables can be members of a set,
and its graph is reducible and not malformed. -/
structure Sub.Comparable (arch : Arch) (logic : Logic) (Γ : String → Srt) (f : Sub) : Prop where
  known : f.IsKnown
  members : ∀ v ∈ f.vars, v.isMember = true
  formed : ∀ e : Environment, e.arch = arch → f.Formed e Γ
  keeps : ∀ e : Environment, e.arch = arch → ∀ b ∈ f.blks, ∀ d ∈ b.defs,
    ∃ srt, d.lhs.HasSort e Γ srt ∧ d.rhs.Sorted e Γ srt
  reducible : ∀ g, f.graph = .ok g → g.Reducible
  intact : ∀ e : Environment, e.arch = arch → e.logic = logic →
    ∀ g, f.graph = .ok g → ¬g.Malformed e

theorem Value.Fits.sort_eq {x : Value} (h : x.Fits srt) : x.sort = srt := by
  cases srt with
  | bool => obtain ⟨_, rfl⟩ := h.bool_inv; rfl
  | bits w => obtain ⟨_, rfl, -⟩ := h.bits_inv; rfl
  | memory a => obtain ⟨_, rfl⟩ := h.memory_inv; rfl

namespace Sub.Comparable

variable (h : f.Comparable e.arch e.logic Γ)
include h

theorem vars : ∀ v ∈ f.vars, v.Typed e Γ := by
  intro v hv
  refine ⟨h.members v hv, ?_⟩
  obtain ⟨b, hb, hv⟩ := List.mem_flatMap.mp hv
  rcases List.mem_append.mp hv with hv | hv
  · obtain ⟨d, hd, hv⟩ := List.mem_flatMap.mp hv
    obtain ⟨srt, hlhs, hrhs⟩ := h.keeps e rfl b hb d hd
    rcases List.mem_cons.mp hv with rfl | hv
    · exact ⟨srt, hlhs⟩
    · exact hrhs.vars v hv
  · obtain ⟨j, hj, hv⟩ := List.mem_flatMap.mp hv
    obtain ⟨w, hcond⟩ := (h.formed e rfl).conds b hb j hj
    exact hcond.vars v hv

/-- **The walk of a subroutine that can be compared gives a condition.** -/
theorem meets_precondition {u : Nat} (post : Constraint)
    (hstart : Session.Types e Γ True ⟨{}, e⟩) (hhooks : ∀ hook ∈ e.hooks, hook.Typed e Γ)
    (hu : e.unroll = .int u) :
    (precondition post f).Meets (Session.Types e Γ True) E fun _ => True := by
  have hapart : ∀ b ∈ f.blks, ∀ j ∈ b.jmps, j.kind = .goto → j.target = .null →
      j.cond.Apart e := fun b hb j hj _ _ => .inl ((h.known b hb).2 j hj)
  obtain ⟨g, hg, hmeets⟩ := (h.formed e rfl).meets_precondition post hstart hhooks hu hapart
    h.reducible
  intro σ hσ
  obtain ⟨c, τ, hends, hτ, -⟩ | ⟨_, -, -, hmalformed⟩ := hmeets σ hσ
  · exact .inl ⟨c, τ, hends, hτ, True.intro⟩
  · exact absurd hmalformed (h.intact e rfl rfl g hg)

/-- The definitions keep sorts in every environment that the builders of a typing leave. -/
theorem wellSorted {σ : Session} (hσ : Session.Types e Γ True σ) (hs : σ.env.Sound)
    (hgives : ∀ v ∈ f.vars, ∃ t, σ.env.Gives v t) : f.WellSorted σ.env := by
  intro b hb d hd s
  obtain ⟨srt, hlhs, hrhs⟩ := h.keeps e rfl b hb d hd
  have hmem : ∀ v ∈ d.lhs :: d.rhs.vars, v ∈ f.vars := fun v hv => List.mem_flatMap.mpr
    ⟨b, hb, List.mem_append_left _ (List.mem_flatMap.mpr ⟨d, hd, hv⟩)⟩
  obtain ⟨hlmem, hrmem⟩ := List.forall_mem_cons.mp hmem
  have hleft : (σ.env.look s d.lhs).sort = srt := by
    obtain ⟨t, ht⟩ := hgives _ hlmem
    obtain ⟨name, hname, hΓ⟩ := hlhs.name
    obtain ⟨l, hl, hfind⟩ := id ht
    obtain rfl : .text name = l := by
      rw [hname] at hl
      exact Except.ok.inj hl
    obtain ⟨x, srt', rfl, -⟩ := ht.const hs
    rw [ht.look_eq, Term.eval_const, (State.fits_const s x srt').sort_eq, ← hΓ]
    exact hσ.agrees name _ hfind
  -- the value of the right side is that of its term, whose sort is known
  obtain ⟨p, τ, hends, -, hsort, -⟩ := (hrhs.meets_toTerm d.tid).exists_ends hσ
  have hyields := Expr.ends_toTerm hends ((h.known b hb).1 d hd)
  have hdenotes := (hyields.translates τ.env (.refl _) (hyields.step.sound hs)).denotes
  have hlook : ∀ v ∈ d.rhs.vars, σ.env.look s v = τ.env.look s v := by
    intro v hv
    obtain ⟨t, ht⟩ := hgives v (hrmem v hv)
    rw [ht.look_eq, (ht.grows hyields.step.env).look_eq]
  rw [hleft, Expr.value_congr hlook, ← hdenotes.eval,
    (Term.eval_fits hdenotes.proper.1 s).sort_eq, hsort]

end Sub.Comparable

/-! ## §4 Builders of two environments -/

/-- Both sides of a comparison are sessions of a typing. -/
def Twin.Types (e1 e2 : Environment) (Γ : String → Srt) (t : Twin) : Prop :=
  Session.Types e1 Γ True ⟨t.supply, t.first⟩ ∧ Session.Types e2 Γ True ⟨t.supply, t.second⟩

section Twins

variable {α : Type} {e1 e2 : Environment} {Q : α → Prop}

theorem meets_onFirst {act : Build α} (h : act.Meets (Session.Types e1 Γ True) E Q) :
    (onFirst act).Meets (Twin.Types e1 e2 Γ) E Q := by
  intro t ht
  obtain ⟨a, σ, hends, hσ, ha⟩ | ⟨fault, hfault, hE⟩ := h _ ht.1
  · exact .inl ⟨a, _, ends_onFirst.mpr ⟨σ, hends, rfl⟩, ⟨hσ, ht.2.of_env rfl⟩, ha⟩
  · exact .inr ⟨fault, hfault, hE⟩

theorem meets_onSecond {act : Build α} (h : act.Meets (Session.Types e2 Γ True) E Q) :
    (onSecond act).Meets (Twin.Types e1 e2 Γ) E Q := by
  intro t ht
  obtain ⟨a, σ, hends, hσ, ha⟩ | ⟨fault, hfault, hE⟩ := h _ ht.2
  · exact .inl ⟨a, _, ends_onSecond.mpr ⟨σ, hends, rfl⟩, ⟨ht.1.of_env rfl, hσ⟩, ha⟩
  · exact .inr ⟨fault, hfault, hE⟩

variable (harch : e2.arch = e1.arch)
include harch

theorem Comparator.meets_sameValue (hv : v.HasSort e1 Γ srt) :
    (sameValue v).Meets (Twin.Types e1 e2 Γ) E fun _ => True := by
  have hv2 : v.HasSort e2 Γ srt :=
    ⟨hv.name, by rw [Environment.sortOf, harch]; exact hv.sort⟩
  refine (meets_onFirst hv.meets_getVar).bind fun a ha =>
    (meets_onSecond hv2.meets_getVar).bind fun b hb => ?_
  obtain ⟨t, ht, -⟩ := Term.sorts_mkEq (ha.trans hb.symm)
  exact meets_lift ht True.intro

theorem Comparator.meets_sameValues (hvs : ∀ v ∈ vs, v.Typed e1 Γ) :
    (sameValues vs).Meets (Twin.Types e1 e2 Γ) E fun _ => True := by
  obtain ⟨ds, hds, htds⟩ := Var.Typed.exists_distinct hvs
  obtain ⟨us, hus, htus⟩ := Var.Typed.exists_sortByName htds
  refine meets_lift_bind hds (meets_lift_bind hus ?_)
  refine (meets_mapM (R := fun _ => True) fun v hv => ?_).mono fun _ _ => True.intro
  obtain ⟨-, srt, hsort⟩ := htus v hv
  exact meets_sameValue harch hsort

omit harch in
theorem Comparator.meets_conjunctionGoal (name : String) (ts : List Term) :
    (conjunctionGoal name ts).Meets (Twin.Types e1 e2 Γ) E fun _ => True := by
  unfold conjunctionGoal
  split
  all_goals exact meets_onFirst (Build.completes_goal _ _)

omit harch in
theorem Build.completes_stackInRange (h : e1.arch.Types Γ) : stackInRange.Completes e1 Γ E := by
  refine meets_env_bind fun σ hσ => ?_
  rw [hσ.arch]
  split
  · exact completes_goal _ _
  · next name hname =>
    obtain ⟨w, hw⟩ := h.special name (by simp [hname])
    obtain ⟨hv, hsort⟩ := h.hasSort_regVar hw
    refine (meets_getRegister (fun τ hτ => hτ.arch) hv hsort.meets_getVar).bind fun sp hsp => ?_
    refine meets_lift_bind (Term.width_ok.mpr hsp) ?_
    -- both bounds compare the stack pointer with a number of its width
    have horder : ∀ (o : Order) (n : Int),
        Term.Sorts (Term.mk (.order o) [sp, Term.numeral w.toNat n]) .bool := by
      intro o n
      have hnum : (Term.numeral w.toNat n).sort = .bits w.toNat := rfl
      exact Term.sorts_mk (by simp [Op.sort?, hsp, hnum])
    refine (horder _ _).meets_bind fun top htop => (horder _ _).meets_bind fun bottom hbottom => ?_
    have hboth : Term.Sorts (Term.mk .and [top, bottom]) .bool :=
      Term.sorts_mk (by simp [Op.sort?, htop, hbottom])
    exact hboth.meets_bind fun t _ => completes_goal _ t

/-- A comparator that compares well-typed variables. -/
def Comparator.Typed (e : Environment) (Γ : String → Srt) : Comparator → Prop
  | .nothing => True
  | .stackPointer sp => sp.Typed e Γ
  | .registers pre post => (∀ v ∈ pre, v.Typed e Γ) ∧ ∀ v ∈ post, v.Typed e Γ
  | .calls | .conditions _ _ => False

theorem Comparator.meets_postcondition {cmp : Comparator} (h : cmp.Typed e1 Γ) (f g : Sub) :
    (cmp.postcondition f g).Meets (Twin.Types e1 e2 Γ) E fun _ => True := by
  cases cmp with
  | nothing => exact meets_onFirst (Build.completes_goal _ _)
  | stackPointer sp =>
    obtain ⟨-, srt, hsort⟩ := h
    exact (meets_sameValue harch hsort).bind fun t _ => meets_onFirst (Build.completes_goal _ t)
  | registers pre post =>
    exact (meets_sameValues harch h.2).bind fun ts _ => meets_conjunctionGoal _ ts
  | calls => exact h.elim
  | conditions _ _ => exact h.elim

theorem Comparator.meets_hypothesis {cmp : Comparator} (ht : e1.arch.Types Γ)
    (h : cmp.Typed e1 Γ) (f g : Sub) :
    (cmp.hypothesis f g).Meets (Twin.Types e1 e2 Γ) E fun _ => True := by
  cases cmp with
  | nothing => exact meets_onFirst (Build.completes_goal _ _)
  | stackPointer sp =>
    obtain ⟨-, srt, hsort⟩ := h
    refine (meets_sameValue harch hsort).bind fun t _ =>
      (meets_onFirst (Build.completes_goal _ t)).bind fun g _ =>
        (meets_onFirst (Build.completes_stackInRange ht)).bind fun r _ => ?_
    exact meets_onFirst (Build.completes_nodeId.bind fun _ _ => meets_pure True.intro)
  | registers pre post =>
    exact (meets_sameValues harch h.1).bind fun ts _ => meets_conjunctionGoal _ ts
  | calls => exact h.elim
  | conditions _ _ => exact h.elim

/-- **The comparators of the options are found**, if only registers are compared. -/
theorem Options.meets_comparators {o : Options} (hcalls : o.compareCalls = false)
    (hpre : o.precond = "") (hpost : o.postcond = "") (hsome : o.compareRegisters ≠ [])
    (ht : e1.arch.Types Γ) (hregs : ∀ r ∈ o.compareRegisters, ∃ w, e1.arch.width? r = some w)
    (hfree : f.CallFree) (hvars : ∀ v ∈ f.vars, v.Typed e1 Γ) :
    (o.comparators f f).Meets (Twin.Types e1 e2 Γ) E fun cs => ∀ cmp ∈ cs, cmp.Typed e1 Γ := by
  -- what matters to a side is known, in the typing of the first one
  have hrelevant : ∀ e : Environment, e.arch = e1.arch →
      ∃ vs, e.relevantVars f = .ok vs ∧ ∀ v ∈ vs, v.Typed e1 Γ := by
    intro e he
    obtain ⟨vs, hvs, htyped⟩ := Environment.exists_relevantVars (he ▸ ht) hfree
      fun v hv => (hvars v hv).of_arch he
    exact ⟨vs, hvs, fun v hv => (htyped v hv).of_arch he.symm⟩
  have heither : (eitherVars f f).Meets (Twin.Types e1 e2 Γ) E
      fun vs => ∀ v ∈ vs, v.Typed e1 Γ := by
    refine meets_get_bind fun t htw => ?_
    obtain ⟨us1, hus1, ht1⟩ := hrelevant t.first htw.1.arch
    obtain ⟨us2, hus2, ht2⟩ := hrelevant t.second (htw.2.arch.trans harch)
    obtain ⟨vs, hvs, htvs⟩ := Var.Typed.exists_distinct (List.forall_mem_append.mpr ⟨ht1, ht2⟩)
    exact meets_lift_bind hus1 (meets_lift_bind hus2 (meets_lift hvs htvs))
  have hregisters : ∀ pre : List Var, (∀ v ∈ pre, v.Typed e1 Γ) →
      (registerComparator pre o.compareRegisters).Meets (Twin.Types e1 e2 Γ) E
        fun cmp => cmp.Typed e1 Γ := by
    refine fun pre hpre => meets_get_bind fun t htw => ?_
    refine (meets_mapM (R := fun v => v.Typed e1 Γ) fun r hr => ?_).bind fun vs hvs =>
      meets_pure ⟨hpre, hvs⟩
    obtain ⟨v, hv, hvt⟩ := ht.regVar (hregs r hr)
    refine meets_lift (a := v) ?_ hvt
    rw [Environment.regVar, htw.1.arch]
    exact hv
  have hsp : (Comparator.ofStackPointer e1.arch).Meets (Twin.Types e1 e2 Γ) E
      fun sp => ∀ cmp ∈ sp.toList, cmp.Typed e1 Γ := by
    unfold Comparator.ofStackPointer
    split
    · next name hname =>
      obtain ⟨w, hw⟩ := ht.special name (by simp [hname])
      obtain ⟨-, hsort⟩ := ht.hasSort_regVar hw
      refine meets_lift_bind (a := w) (by rw [Arch.width, hw]) (meets_pure ?_)
      rw [Option.toList_some, List.forall_mem_singleton]
      exact ⟨rfl, _, hsort⟩
    · refine (meets_onFirst (Q := fun _ => True) ?_).bind fun _ _ => meets_pure (by simp)
      exact ExceptT.meets_modify fun σ hσ => hσ.of_env rfl
  have hne : o.compareRegisters.isEmpty = false := by simpa using hsome
  have hempty : "".isEmpty = true := rfl
  simp only [comparators, hcalls, hpre, hpost, hempty, hne, Bool.false_eq_true, if_false,
    Bool.and_self, if_true, List.nil_append, List.append_nil]
  refine heither.bind fun vs hvs => (hregisters vs hvs).bind fun cmp hcmp => ?_
  obtain ⟨ws, hws, -⟩ := Var.Typed.exists_sortByName hvs
  refine meets_lift_bind hws (.bind (Q := (· = [cmp])) (meets_pure rfl) ?_)
  rintro _ rfl
  refine meets_get_bind fun t htw => ?_
  rw [show t.first.arch = e1.arch from htw.1.arch]
  refine hsp.bind fun sp hsps => meets_pure ?_
  simpa using ⟨hcmp, fun c hc => hsps c (by simpa using hc)⟩

omit harch in
/-- **The comparison of a subroutine with itself is built.** -/
theorem meets_compareSubs {posts hyps : List (Compare Constraint)}
    (hfirst : e1.freshened = false) (hsecond : e2.freshened = true)
    (hpre1 : ∀ post, (precondition post f).Meets (Session.Types e1 Γ True) E fun _ => True)
    (hpre2 : ∀ post, (precondition post f).Meets (Session.Types e2 Γ True) E fun _ => True)
    (hposts : ∀ act ∈ posts, act.Meets (Twin.Types e1 e2 Γ) E fun _ => True)
    (hhyps : ∀ act ∈ hyps, act.Meets (Twin.Types e1 e2 Γ) E fun _ => True) :
    (compareSubs posts hyps f f).Meets (Twin.Types e1 e2 Γ) E fun _ => True := by
  refine meets_get_bind fun t ht => ?_
  rw [show t.first.freshened = false from ht.1.freshened.trans hfirst,
    show t.second.freshened = true from ht.2.freshened.trans hsecond]
  have hclause : ∀ hs cs : List Constraint,
      (onFirst (Build.clause hs cs)).Meets (Twin.Types e1 e2 Γ) E fun _ => True := fun hs cs =>
    meets_onFirst (Build.completes_nodeId.bind fun _ _ => meets_pure True.intro)
  exact (meets_mapM hposts).bind fun ps _ => (hclause [] ps).bind fun post _ =>
    (meets_onSecond (hpre2 post)).bind fun inner _ => (meets_onFirst (hpre1 inner)).bind
      fun outer _ => (meets_mapM hhyps).bind fun hs _ => hclause hs [outer]

end Twins

/-! ## §5 Comparisons -/

/-- The environment of a program under some options before it has constants. -/
def Options.blank (o : Options) (d : Defaults) (p : Program) (hooks : List Hook) (fresh : Bool) :
    Environment where
  arch := p.arch
  logic := d.logic
  subs := p.subs
  summaries := Summary.standard [] o.tripAsserts
  hooks := hooks
  stack := o.stack d.stack
  useInputs := o.useInputs
  unroll := .int (o.unroll.getD d.unroll)
  freshened := fresh

/-- Memories of the target can be compared. -/
theorem Hook.typed_sameAs {m : Term} (h : e.arch.Types Γ) (hm : m.sort = Γ e.arch.memoryName) :
    (Hook.sameAs m []).Typed e Γ := by
  obtain ⟨k, -, hmem⟩ := h.hasSort_memVar
  obtain ⟨_, hname, hΓ⟩ := hmem.name
  cases hname
  exact ⟨k, hmem, hm.trans hΓ, fun addr haddr => ⟨addr, rfl, haddr⟩⟩

section Comparative

variable {o : Options} {d : Defaults} {p : Program} {hooks : List Hook} {fresh : Bool}
  {supply : Supply}

theorem Options.types_blank : Session.Types (o.blank d p hooks fresh) Γ True
    ⟨supply, o.blank d p hooks fresh⟩ :=
  ⟨rfl, rfl, rfl, rfl, rfl, fun _ _ h => (nomatch h), fun _ _ h => absurd h List.not_mem_nil⟩

variable (hinline : o.inline = none) (harch : p.arch.Types Γ)
  (hsubs : ∀ s ∈ p.subs, ∃ l, s.name.label = .ok l)
include hinline harch hsubs

theorem Options.exists_environment (hooks : List Hook) (supply : Supply) :
    ∃ e, (o.environment d p hooks).Ends supply e supply ∧
      ∀ supply, Session.Enters (o.blank d p hooks false) Γ ⟨supply, e⟩ := by
  obtain ⟨e, he, henters⟩ := Environment.exists_seeded (e := o.blank d p hooks false) harch
    types_blank rfl hsubs
  refine ⟨e, ?_, henters⟩
  simp only [environment, hinline, ends_bind, ends_lift]
  exact ⟨[], supply, ends_pure.mpr ⟨rfl, rfl⟩, he, rfl⟩

/-- **The comparison of a well-typed subroutine with itself gives a question**, and both of its
environments are those of the typing. -/
theorem Options.exists_comparative (hoffset : o.memoryOffset = false) (hnull : o.checkNull = false)
    (hcompare : o.compareCalls = false) (hpre : o.precond = "") (hpost : o.postcond = "")
    (hsome : o.compareRegisters ≠ []) (hunroll : 0 ≤ o.unroll.getD d.unroll)
    (hregs : ∀ r ∈ o.compareRegisters, ∃ w, p.arch.width? r = some w)
    (hf : f.Comparable p.arch d.logic Γ) (supply : Supply) :
    ∃ q supply', (o.comparative d p p f f).Ends supply q supply' ∧
      (∃ hooks, Session.Types (o.blank d p hooks false) Γ True ⟨supply', q.first⟩) ∧
      Session.Types (o.blank d p [] true) Γ True ⟨supply', q.second⟩ := by
  obtain ⟨u, hu⟩ := Int.eq_ofNat_of_zero_le hunroll
  have hfree := (hf.formed (o.blank d p [] true) rfl).calls
  -- the side of the second program
  obtain ⟨e, he, henters⟩ := exists_environment (d := d) hinline harch hsubs [] supply
  have htypes := (henters supply).1
  obtain ⟨-, hconf⟩ := configures_environment he
  have hempty : Session.Types (o.blank d p [] true) Γ True ⟨{},
      { e with freshened := true, vars := [], inits := [], calls := [], introduced := [] }⟩ :=
    ⟨htypes.1, htypes.2, htypes.3, htypes.4, rfl, fun _ _ h => (nomatch h),
      fun _ _ h => absurd h List.not_mem_nil⟩
  obtain ⟨e2, he2, henters2⟩ := Environment.exists_seeded harch hempty rfl (by rwa [hconf.subs])
  obtain ⟨inits2, ⟨s2, e2'⟩, hinits2, ⟨htypes2, -⟩, -⟩ :=
    (Build.enters_entryHypotheses (e := o.blank d p [] true) harch hfree hf.vars).exists_ends
      (henters2 supply)
  -- its memory, which the accesses of the first program are compared with, has the right sort
  obtain ⟨hooks, hhooks, hhook⟩ : ∃ hooks,
      (o.firstHooks p p (e2'.findVar? e2'.arch.memoryName)).Ends s2 hooks s2 ∧
        ∀ hook ∈ hooks, hook.Typed (o.blank d p hooks false) Γ := by
    refine ⟨((e2'.findVar? e2'.arch.memoryName).map fun m => Hook.sameAs m []).toList, ?_, ?_⟩
    · simp only [firstHooks, assumedHooks, hoffset, hnull, Bool.false_eq_true, if_false, ends_bind,
        ends_pure]
      exact ⟨[], s2, ⟨rfl, rfl⟩, rfl, rfl⟩
    · intro hook hhook
      obtain ⟨m, hm, rfl⟩ := Option.map_eq_some_iff.mp (Option.mem_toList.mp hhook)
      have hsort := htypes2.agrees _ _ hm
      rw [show e2'.arch = p.arch from htypes2.arch] at hsort
      exact Hook.typed_sameAs harch hsort
  -- the side of the first program
  obtain ⟨e1, he1, henters1⟩ := exists_environment (d := d) hinline harch hsubs hooks s2
  obtain ⟨inits1, ⟨s1, e1'⟩, hinits1, ⟨htypes1, -⟩, -⟩ :=
    (Build.enters_entryHypotheses (e := o.blank d p hooks false) harch hfree hf.vars).exists_ends
      (henters1 s2)
  -- the comparison of both
  have hsame : (o.blank d p [] true).arch = (o.blank d p hooks false).arch := rfl
  have hcs := meets_comparators (E := fun _ => False) hsame hcompare hpre hpost hsome harch
    hregs hfree hf.vars
  have hclause : ∀ c, (Build.clause (inits1 ++ inits2) [c]).Meets
      (Session.Types (o.blank d p hooks false) Γ True) (fun _ => False) fun _ => True :=
    fun c => Build.completes_nodeId.bind fun _ _ => meets_pure True.intro
  have hboth := hcs.bind fun cs hcs => ExceptT.Meets.bind (meets_compareSubs rfl rfl
    (fun post => hf.meets_precondition post types_blank hhook (congrArg Json.int hu))
    (fun post => hf.meets_precondition post types_blank nofun (congrArg Json.int hu))
    (List.forall_mem_map.mpr fun cmp hcmp =>
      Comparator.meets_postcondition hsame (hcs cmp hcmp) f f)
    (List.forall_mem_map.mpr fun cmp hcmp =>
      Comparator.meets_hypothesis hsame harch (hcs cmp hcmp) f f)) fun c _ =>
    meets_onFirst (hclause c)
  obtain ⟨c, t, hends, ⟨htypes1, htypes2⟩, -⟩ := hboth.exists_ends (σ := ⟨s1, e1', e2'⟩)
    ⟨htypes1, htypes2.of_env rfl⟩
  refine ⟨⟨c, t.first, t.second⟩, t.supply, ?_, ⟨hooks, htypes1⟩, htypes2⟩
  have hverified : o.verifiedHooks = [] := by rw [verifiedHooks, hnull]; rfl
  unfold comparative
  rw [hverified]
  refine ends_bind.mpr ⟨e, supply, he, ends_bind.mpr ⟨e2, supply, ends_lift.mpr ⟨he2, rfl⟩, ?_⟩⟩
  refine ends_bind.mpr ⟨(inits2, e2'), s2, Setup.ends_build.mpr hinits2, ?_⟩
  refine ends_bind.mpr ⟨hooks, s2, hhooks, ends_bind.mpr ⟨e1, s2, he1, ?_⟩⟩
  refine ends_bind.mpr ⟨(inits1, e1'), s1, Setup.ends_build.mpr hinits1, ?_⟩
  exact ends_bind.mpr ⟨(c, t.first, t.second), t.supply, Setup.ends_buildBoth.mpr hends,
    ends_pure.mpr ⟨rfl, rfl⟩⟩

end Comparative

end Antecedent
