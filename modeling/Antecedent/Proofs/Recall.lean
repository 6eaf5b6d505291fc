import Antecedent.Proofs.Entry
import Antecedent.Proofs.Preserving
import Antecedent.Proofs.Sameness

/-!
# Entry values in conditions

A condition on exit may speak of the values that variables had on entry.  Each such value has a
constant of its own, and no run writes it, as long as it is not the constant of a variable too.

* `Environment.Records` says which constants stand for entry values, and `Environment.Apart` that
  none of them is the constant of a variable.
* `Environment.frame_recall` says that runs do not see what they hold.
-/

namespace Antecedent

open ExceptT (Preserves preserves_pure preserves_throw preserves_lift preserves_lift_bind ends_pure
  ends_bind ends_lift ends_mapM_nil ends_mapM_cons)

variable {t x : Term} {e : Environment} {base : String} {v : Var} {vs : List Var}

/-! ## §1 The names of constants -/

/-- Marked texts have the same symbol only if the texts have. -/
theorem Symbol.ofText_initMark_inj {a b : String}
    (h : Symbol.ofText (Environment.initMark ++ a) = Symbol.ofText (Environment.initMark ++ b)) :
    Symbol.ofText a = Symbol.ofText b := by
  have htake : ∀ c : String, (Environment.initMark ++ c).toList.takeWhile (· != '\x00') =
      Environment.initMark.toList ++ c.toList.takeWhile (· != '\x00') := by
    intro c
    rw [String.toList_append, List.takeWhile_append_of_pos]
    simp [Environment.initMark]
  have hne : Environment.initMark.toList ≠ [] := by simp [Environment.initMark]
  simp only [ofText, htake, List.isEmpty_iff, List.append_eq_nil_iff, hne, false_and, if_false,
    Symbol.text.injEq, String.ofList_inj, List.append_cancel_left_eq] at h ⊢
  rw [h]

/-- Equality is made of terms of one sort only. -/
theorem Term.sort_eq_of_mkEq {s u : Term} (h : mkEq s t = .ok u) : s.sort = t.sort := by
  have hsort : ∀ {s t : Term}, mk .eq [s, t] = .ok u → s.sort = t.sort := by
    intro s t h
    obtain ⟨-, hs⟩ := mk_ok h
    by_contra hne
    simp [Op.sort?, hne] at hs
  unfold mkEq at h
  split at h
  · exact (hsort h).symm
  · exact hsort h

/-- In a plain environment the constant of a variable has the symbol of the variable's name. -/
structure Environment.Named (e : Environment) : Prop where
  plain : e.freshened = false
  vars : ∀ p ∈ e.vars, ∃ name srt, Term.symbolOf p.1 = .ok name ∧ p.2 = .const name srt

theorem Environment.Named.findVar? (h : e.Named) (ht : e.findVar? (.text base) = some t) :
    ∃ srt, t = .const (.ofText base) srt := by
  obtain ⟨p, hp, rfl⟩ := Option.map_eq_some_iff.mp ht
  have hlabel := Label.eq_of_same_text (by simpa using List.find?_some hp)
  obtain ⟨name, srt, hname, hconst⟩ := h.vars p (List.mem_of_find?_eq_some hp)
  rw [hlabel] at hname
  cases hname
  exact ⟨srt, hconst⟩

namespace Build

variable {σ σ' : Session}

/-- Looking a variable up names its constant after it, and leaves entry values alone. -/
theorem named_getVar (h : (getVar v).Ends σ t σ') (hσ : σ.env.Named) :
    σ'.env.Named ∧ σ'.env.inits = σ.env.inits := by
  obtain ⟨l, -, ⟨-, rfl⟩ | ⟨-, n, name, srt, hn, hname, -, rfl, rfl⟩⟩ := getVar_cases h
  · exact ⟨hσ, rfl⟩
  · unfold Environment.localName at hn
    rw [hσ.plain] at hn
    cases hn
    refine ⟨⟨hσ.plain, fun p hp => ?_⟩, rfl⟩
    rcases List.mem_append.mp hp with hp | hp
    · exact hσ.vars p hp
    · obtain rfl := List.mem_singleton.mp hp
      exact ⟨name, srt, hname, rfl⟩

end Build

/-- A seeded environment names the constants of its variables, and has no entry values. -/
theorem Environment.named_of_seeded {e' : Environment} (h : e.seeded = .ok e')
    (hplain : e.freshened = false) (hvars : e.vars = []) (hinits : e.inits = []) :
    e'.Named ∧ e'.inits = [] := by
  obtain ⟨u, τ, hseed, rfl⟩ := ends_of_seeded h
  refine Build.ends_seed_induction (I := fun σ => σ.env.Named ∧ σ.env.inits = [])
    (fun hget hσ => ?_) hseed ⟨⟨hplain, by simp [hvars]⟩, hinits⟩
  obtain ⟨hnamed, heq⟩ := Build.named_getVar hget hσ.1
  exact ⟨hnamed, heq.trans hσ.2⟩

/-- The environment of a program names the constants of its variables, and has no entry values. -/
theorem Options.named_environment {o : Options} {p : Program} {hooks : List Hook} {d : Defaults}
    {supply supply' : Supply} (h : (o.environment d p hooks).Ends supply e supply') :
    e.Named ∧ e.inits = [] := by
  simp only [environment, ends_bind, ends_lift] at h
  obtain ⟨_, _, -, he, -⟩ := h
  exact Environment.named_of_seeded he rfl rfl rfl

/-! ## §2 What is recorded -/

/-- Every entry value belongs to one of some variables: its constant is named after the variable and
has the sort of the variable's constant. -/
def Environment.Records (e : Environment) (vs : List Var) : Prop :=
  ∀ base t, (base, t) ∈ e.inits → ∃ v ∈ vs, v.name = .str base ∧
    ∃ srt, t = .const (.ofText (initMark ++ base)) srt ∧
      e.findVar? (.text base) = some (.const (.ofText base) srt)

namespace Build

variable {σ σ' : Session} {c : Constraint}

theorem records_entryValue (h : (do
      let init ← getInit v
      let t ← Term.mkEq init (← getVar v)
      goal (Environment.initMark ++ v.name.inText) t).Ends σ c σ') (hnamed : σ.env.Named)
    (hrecords : σ.env.Records vs) (hv : v ∈ vs) :
    σ'.env.Named ∧ σ'.env.Records vs ∧ ∃ base t, v.name = .str base ∧ σ'.env.Gives v t := by
  simp only [goal, ends_bind, ends_lift, ends_nodeId, ends_pure] at h
  obtain ⟨init, τ, hinit, x, τ', hx, f, _, ⟨hf, rfl⟩, _, _, ⟨rfl, rfl⟩, rfl, rfl⟩ := h
  change τ'.env.Named ∧ τ'.env.Records vs ∧ _
  -- the entry value is an old one, or the last one
  have hcases : ∃ base, v.name = .str base ∧ (τ = σ ∨ ∃ srt, init = .const (.ofText
      (Environment.initMark ++ base)) srt ∧ τ.env.Named ∧ τ.env.vars = σ.env.vars ∧
      τ.env.inits = σ.env.inits ++ [(base, init)]) := by
    unfold getInit at hinit
    split at hinit
    · next base hbase =>
      refine ⟨base, hbase, ?_⟩
      simp only [ends_bind, ends_env] at hinit
      obtain ⟨_, _, ⟨rfl, rfl⟩, hinit⟩ := hinit
      split at hinit
      · exact .inl (ends_pure.mp hinit).2.symm
      · simp only [ends_bind, ends_modifyEnv, ends_pure] at hinit
        obtain ⟨_, _, hc, _, _, rfl, rfl, rfl⟩ := hinit
        obtain ⟨n, name, srt, hn, hname, -, rfl, rfl⟩ := ends_constant.mp hc
        unfold Environment.localName at hn
        rw [hnamed.plain] at hn
        cases hn
        cases hname
        exact .inr ⟨srt, rfl, ⟨hnamed.plain, hnamed.vars⟩, rfl, rfl⟩
    · simp at hinit
  obtain ⟨base, hbase, hcases⟩ := hcases
  obtain ⟨hstep, -, l, hl, hfind⟩ := ends_getVar hx
  obtain rfl : .text base = l := by
    rw [hbase] at hl
    exact Except.ok.inj hl
  have hτ : τ.env.Named := by
    rcases hcases with rfl | ⟨_, -, hτ, -⟩
    · exact hnamed
    · exact hτ
  obtain ⟨hτ', hinits⟩ := named_getVar hx hτ
  refine ⟨hτ', fun base' t' hmem => ?_, base, x, hbase, .text base, hl, hfind⟩
  -- variables known before keep their constants
  have hold : (base', t') ∈ σ.env.inits → τ.env.vars = σ.env.vars → ∃ v ∈ vs, v.name = .str base' ∧
      ∃ srt, t' = .const (.ofText (Environment.initMark ++ base')) srt ∧
        τ'.env.findVar? (.text base') = some (.const (.ofText base') srt) := by
    intro hmem hvars
    obtain ⟨w, hw, hname, srt, ht, hfind'⟩ := hrecords base' t' hmem
    have hfind' : τ.env.Gives w (.const (.ofText base') srt) := by
      refine ⟨.text base', by rw [hname]; rfl, ?_⟩
      rw [Environment.findVar?, hvars]
      exact hfind'
    obtain ⟨l, hl, hfind'⟩ := hfind'.grows hstep.env
    rw [hname] at hl
    cases hl
    exact ⟨w, hw, hname, srt, ht, hfind'⟩
  rw [hinits] at hmem
  rcases hcases with rfl | ⟨srt, rfl, -, hvars, hnew⟩
  · exact hold hmem rfl
  · rw [hnew] at hmem
    rcases List.mem_append.mp hmem with hmem | hmem
    · exact hold hmem hvars
    · obtain ⟨rfl, rfl⟩ : base' = base ∧ t' = _ := by simpa using hmem
      obtain ⟨srt', rfl⟩ := hτ'.findVar? hfind
      have hsort : srt = srt' := by simpa [Term.sort] using Term.sort_eq_of_mkEq hf
      exact ⟨v, hv, hbase, srt, rfl, hsort ▸ hfind⟩

theorem records_entryValues {us : List Var} {cs : List Constraint}
    (h : (entryValues us).Ends σ cs σ') (hnamed : σ.env.Named) (hrecords : σ.env.Records vs)
    (hus : ∀ v ∈ us, v ∈ vs) : σ.env.Grows σ'.env ∧ σ'.env.Named ∧ σ'.env.Records vs ∧
      ∀ v ∈ us, ∃ base t, v.name = .str base ∧ σ'.env.Gives v t := by
  simp only [entryValues, ends_bind, ends_lift] at h
  obtain ⟨ws, _, ⟨hws, rfl⟩, h⟩ := h
  have hperm := Label.sortBy_perm hws
  simp only [← hperm.mem_iff] at hus ⊢
  clear hws hperm
  induction ws generalizing σ cs with
  | nil =>
    obtain ⟨-, rfl⟩ := ends_mapM_nil.mp h
    exact ⟨.refl _, hnamed, hrecords, by simp⟩
  | cons v ws ih =>
    obtain ⟨c, τ, hc, cs, hcs, rfl⟩ := ends_mapM_cons.mp h
    obtain ⟨hv, hws⟩ := List.forall_mem_cons.mp hus
    obtain ⟨_, hb, -⟩ := ends_entryValue (ν := fun _ => default) hc
    obtain ⟨hnamed1, hrecords1, base, t, hbase, ht⟩ := records_entryValue hc hnamed hrecords hv
    obtain ⟨hgrows, hnamed2, hrecords2, hall⟩ := ih hnamed1 hrecords1 hcs hws
    exact ⟨hb.step.env.trans hgrows, hnamed2, hrecords2,
      List.forall_mem_cons.mpr ⟨⟨base, t, hbase, ht.grows hgrows⟩, hall⟩⟩

end Build

/-- A variable is listed under its name, if all names are texts. -/
theorem Var.Covers.exists_name {us : List Var} (h : Var.Covers us vs) (hv : v ∈ vs) :
    ∃ u ∈ us, ∀ base, u.name = .str base → v.name = .str base := by
  obtain ⟨u, hu, rfl | halike⟩ := h.all v hv
  · exact ⟨u, hu, fun _ h => h⟩
  · refine ⟨u, hu, fun base hbase => ?_⟩
    simp only [Var.alike, Var.row, Json.alike, Json.alikeItems, Bool.and_eq_true, hbase] at halike
    cases hname : v.name <;> simp_all [Json.alike, Json.label?, Label.same, Label.ratio?]

/-- The variables of a subroutine, the memory and the stack pointer matter to it, if all names are
texts. -/
theorem Environment.exists_name_of_relevantVars {sub : Sub} (h : e.relevantVars sub = .ok vs)
    (hv : v ∈ sub.vars ∨ v = e.memVar ∨ ∃ r, e.arch.stackPointer = some r ∧ e.regVar r = .ok v) :
    ∃ u ∈ vs, ∀ base, u.name = .str base → v.name = .str base := by
  obtain ⟨own, _, known, inputs, special, hown, -, hknown, -, hspecial, hall⟩ :=
    relevantVars_cases h
  have hall := Var.covers_distinct hall
  rcases hv with hv | rfl | ⟨r, hr, hv⟩
  · obtain ⟨u1, hu1, hname1⟩ := (Var.covers_distinct hown).exists_name hv
    obtain ⟨u2, hu2, hname2⟩ := (Var.covers_distinct hknown).exists_name
      (List.mem_append_left _ hu1)
    obtain ⟨u, hu, hname⟩ := hall.exists_name (v := u2) (by simp [hu2])
    exact ⟨u, hu, fun base hbase => hname1 base (hname2 base (hname base hbase))⟩
  · exact hall.exists_name (by simp)
  · have hmem : v ∈ special := by
      rw [mapM_eq_ok, hr] at hspecial
      obtain ⟨w, rest, hw, -, rfl⟩ := List.forall₂_cons_left_iff.mp hspecial
      cases hv.symm.trans hw
      exact List.mem_cons_self ..
    exact hall.exists_name (by simp [hmem])

/-! ## §3 Environments that stay as they are -/

/-- The variables and the entry values of a session are those of an environment, and so is the way
to read conditions. -/
def Environment.Fixed (e : Environment) (σ : Session) : Prop :=
  σ.env.vars = e.vars ∧ σ.env.inits = e.inits ∧ σ.env.arch = e.arch ∧ σ.env.logic = e.logic

namespace Environment

theorem Fixed.both {σ τ : Session} (h : e.Fixed σ) (h' : e.Fixed τ) : τ.env.Fixed σ :=
  ⟨h.1.trans h'.1.symm, h.2.1.trans h'.2.1.symm, h.2.2.1.trans h'.2.2.1.symm,
    h.2.2.2.trans h'.2.2.2.symm⟩

def Knows (e : Environment) (l : Label) : Prop :=
  ∃ t, e.findVar? l = some t

theorem fixed_getVar (h : v.Within e.Knows) : (Build.getVar v).Preserves e.Fixed := by
  refine preserves_lift_bind fun l hl => Build.preserves_env_bind fun σ hσ => ?_
  obtain ⟨t, ht⟩ := h l hl
  have hfind : σ.env.findVar? l = some t := by
    rw [findVar?, hσ.1]
    exact ht
  rw [hfind]
  exact preserves_pure _

/-- **Operations on known variables leave an environment as it is.** -/
theorem stable_fixed (hregs : ∀ r v, e.regVar r = .ok v → v.Within e.Knows)
    (hmem : e.memVar.Within e.Knows) : Stable e.Fixed e.Knows fun _ => False where
  frame _ _ hσ := hσ
  getVar h := fixed_getVar h
  getRegister r := by
    refine Build.preserves_env_bind fun σ hσ => preserves_lift_bind fun v hv => fixed_getVar ?_
    rw [regVar, hσ.2.2.1] at hv
    exact hregs r v hv
  getMemory := by
    refine Build.preserves_env_bind fun σ hσ => fixed_getVar ?_
    rw [memVar, hσ.2.2.1]
    exact hmem
  fresh stem width := Build.preserves_freshBase_bind (fun _ _ hσ => hσ) fun n =>
    (Build.preserves_name fun _ _ hσ _ => hσ).bind fun _ => (preserves_lift _).bind fun _ =>
      (preserves_lift _).bind fun _ => preserves_pure _
  callFlag h := h.elim
  callee _ h := h.elim
  depths _ hσ := hσ

theorem Gives.within (h : e.Gives v t) : v.Within e.Knows := by
  obtain ⟨l, hl, ht⟩ := h
  intro l' hl'
  cases hl.symm.trans hl'
  exact ⟨t, ht⟩

end Environment

namespace Steady

variable {I : Session → Prop} {allowed : Label → Prop} {called : String → Prop}
  (hI : Steady I allowed called)
include hI

theorem stackInRange : Build.stackInRange.Preserves I := by
  refine Build.preserves_env_bind fun σ hσ => ?_
  split
  · exact hI.goal _ _
  · exact (hI.getRegister _).bind fun _ => (preserves_lift _).bind fun _ =>
      (preserves_lift _).bind fun _ => (preserves_lift _).bind fun _ =>
      (preserves_lift _).bind fun _ => hI.goal _ _

theorem conditionOn (name text : String) : (Build.conditionOn name text).Preserves I := by
  refine Build.preserves_env_bind fun σ hσ => preserves_lift_bind fun consts _ => ?_
  unfold Build.condition
  split
  · exact hI.goal _ _
  · refine Build.preserves_env_bind fun σ hσ => ?_
    split
    · exact preserves_throw _
    · exact hI.goal _ _
    · exact hI.goal _ _
    · exact hI.goal _ _

end Steady

/-! ## §4 Recalled values -/

/-- No constant of an entry value is the constant of a variable. -/
def Environment.Apart (e : Environment) : Prop :=
  ∀ base name srt, (base, .const name srt) ∈ e.inits → ¬e.Owns name srt

/-- The state in which the constants of some entry values hold the values that the variables have
in another state. -/
def Environment.recallAll (e : Environment) (s t : State) : List (String × Term) → State
  | [] => t
  | (base, init) :: inits =>
    match init, e.findVar? (.text base) with
    | .const name srt, some x => (e.recallAll s t inits).set name srt (x.eval s)
    | _, _ => e.recallAll s t inits

/-- The second state with the entry values of the first one. -/
def Environment.recall (e : Environment) (s t : State) : State :=
  e.recallAll s t e.inits

namespace Environment

variable {s t : State} {name : Symbol} {srt : Srt} {inits : List (String × Term)}

/-- Constants of other things are not touched. -/
theorem const_recallAll_of_not_mem (h : ∀ base, (base, .const name srt) ∉ inits) :
    (e.recallAll s t inits).const name srt = t.const name srt := by
  induction inits with
  | nil => rfl
  | cons p inits ih =>
    obtain ⟨base, init⟩ := p
    have hrest := ih fun base hmem => h base (List.mem_cons_of_mem _ hmem)
    unfold recallAll
    split
    · next _ name' srt' _ _ =>
      rw [State.const_set_ne, hrest]
      by_contra hsame
      obtain ⟨rfl, rfl⟩ : name = name' ∧ srt = srt' := by simpa [not_or] using hsame
      exact h base (List.mem_cons_self ..)
    · exact hrest

/-- The constant of a recorded entry value holds the value that the variable has in the first
state. -/
theorem Records.const_recallAll (h : e.Records vs) (hsub : ∀ p ∈ inits, p ∈ e.inits)
    (hmem : (base, .const name srt) ∈ inits) (hx : e.findVar? (.text base) = some x) :
    (e.recallAll s t inits).const name srt = x.eval s := by
  induction inits with
  | nil => cases hmem
  | cons p inits ih =>
    obtain ⟨base', init⟩ := p
    obtain ⟨hp, hrest⟩ := List.forall_mem_cons.mp hsub
    obtain ⟨-, -, -, srt', rfl, hfind'⟩ := h base' init hp
    obtain ⟨-, -, -, srt0, hconst, hfind⟩ := h base _ (hsub _ hmem)
    obtain ⟨rfl, rfl⟩ := Term.const.inj hconst
    cases hx.symm.trans hfind
    simp only [recallAll, hfind']
    by_cases hsame :
        Symbol.ofText (initMark ++ base) = Symbol.ofText (initMark ++ base') ∧ srt = srt'
    · obtain ⟨hsymbol, rfl⟩ := hsame
      -- the entry value of another spelling of the variable's name
      rw [hsymbol, Symbol.ofText_initMark_inj hsymbol]
      exact State.const_set_self _ (Term.eval_fits (.const _ _) s)
    · have hother : (base, Term.const (.ofText (initMark ++ base)) srt) ∈ inits := by
        rcases List.mem_cons.mp hmem with heq | hmem
        · cases heq
          exact absurd ⟨rfl, rfl⟩ hsame
        · exact hmem
      rw [State.const_set_ne _ (by tauto)]
      exact ih hrest hother

theorem Records.const_recall (h : e.Records vs) (hmem : (base, .const name srt) ∈ e.inits)
    (hx : e.findVar? (.text base) = some x) : (e.recall s t).const name srt = x.eval s :=
  h.const_recallAll (fun _ hp => hp) hmem hx

theorem Apart.const_recall (h : e.Apart) (howns : e.Owns name srt) :
    (e.recall s t).const name srt = t.const name srt :=
  const_recallAll_of_not_mem fun base hmem => h base name srt hmem howns

/-- **Runs go the same way with recalled values.** -/
theorem frame_recall (h : e.Apart) (s : State) : e.Frame (e.recall s) where
  agree t _ _ howns := (h.const_recall howns).symm
  set t name srt v howns := by
    have hall : ∀ inits : List (String × Term), (∀ p ∈ inits, p ∈ e.inits) →
        e.recallAll s (t.set name srt v) inits = (e.recallAll s t inits).set name srt v := by
      intro inits
      induction inits with
      | nil => exact fun _ => rfl
      | cons p inits ih =>
        intro hsub
        obtain ⟨hp, hrest⟩ := List.forall_mem_cons.mp hsub
        obtain ⟨base, init⟩ := p
        unfold recallAll
        split
        · next _ name' srt' _ _ =>
          rw [ih hrest, State.set_comm]
          by_contra hsame
          obtain ⟨rfl, rfl⟩ : name' = name ∧ srt' = srt := by simpa [not_or] using hsame
          exact h base name' srt' hp howns
        · exact ih hrest
    exact hall e.inits fun _ hp => hp

theorem Apart.look_recall (h : e.Apart) (hs : e.Sound) (hx : e.Gives v x) :
    e.look (e.recall s t) v = e.look t v := by
  obtain ⟨name, srt, rfl, howns⟩ := hx.const hs
  rw [hx.look_eq, hx.look_eq, Term.eval_const, Term.eval_const, h.const_recall howns]

theorem Apart.spInRange_recall (h : e.Apart) {arch : Arch} {hooks : List Hook} {fresh : Bool}
    (hready : e.Ready arch hooks fresh) : e.SpInRange (e.recall s t) ↔ e.SpInRange t := by
  have hlook : ∀ r v, e.regVar r = .ok v → e.look (e.recall s t) v = e.look t v := by
    intro r v hv
    obtain ⟨x, hx⟩ := hready.registers r v hv
    exact h.look_recall hready.sound hx
  constructor
  · intro hsp r v hr hv
    exact hlook r v hv ▸ hsp r v hr hv
  · intro hsp r v hr hv
    exact (hlook r v hv).symm ▸ hsp r v hr hv

/-- **Entry values are what they are recalled to be.** -/
theorem Records.entered_recall (h : e.Records vs) (hapart : e.Apart) (hs : e.Sound) (v : Var) :
    v.Entered e (e.recall s s) := by
  intro init hinit
  unfold initTerm? at hinit
  split at hinit
  · next base hbase =>
    obtain ⟨before, after, hinits, -⟩ := List.lookup_eq_some_iff.mp hinit
    have hmem : (base, init) ∈ e.inits := by simp [hinits]
    obtain ⟨-, -, -, srt, rfl, hfind⟩ := h base init hmem
    have hgives : e.Gives v (.const (.ofText base) srt) := ⟨.text base, by rw [hbase]; rfl, hfind⟩
    rw [hapart.look_recall hs hgives, hgives.look_eq, Term.eval_const, h.const_recall hmem hfind]
    exact Value.same_refl _
  · cases hinit

/-- Where entry values are what they should be, recalling them changes no value. -/
theorem Records.same_recall (h : e.Records vs) (hapart : e.Apart)
    (hentered : ∀ v ∈ vs, v.Entered e s)
    (hkept : ∀ name srt, ¬e.Owns name srt → t.const name srt = s.const name srt)
    (hdecl : .const name srt ∈ e.constants) :
    (t.const name srt).same ((e.recall s t).const name srt) = true := by
  rcases List.mem_append.mp hdecl with howns | hinit
  · rw [hapart.const_recall howns]
    exact Value.same_refl _
  · obtain ⟨⟨base, init⟩, hmem, rfl⟩ := List.mem_map.mp hinit
    obtain ⟨v, hv, hbase, srt', hconst, hfind⟩ := h base _ hmem
    obtain ⟨rfl, rfl⟩ := Term.const.inj hconst
    have hgives : e.Gives v (.const (.ofText base) srt) := ⟨.text base, by rw [hbase]; rfl, hfind⟩
    -- the entry value that is found under the name is this one
    have hlookup : e.initTerm? v = some (.const (.ofText (initMark ++ base)) srt) := by
      rw [initTerm?, hbase]
      cases hfound : e.inits.lookup base with
      | none => exact absurd (List.lookup_eq_none_iff.mp hfound _ hmem) (by simp)
      | some init =>
        obtain ⟨before, after, hinits, -⟩ := List.lookup_eq_some_iff.mp hfound
        obtain ⟨-, -, -, srt', rfl, hfind'⟩ := h base init (by simp [hinits])
        cases hfind.symm.trans hfind'
        exact hfound
    rw [h.const_recall hmem hfind, hkept _ _ (hapart base _ _ hmem), ← hgives.look_eq]
    exact hentered v hv _ hlookup

end Environment

/-! ## §5 Conditions over entry values -/

namespace Environment

/-- What a condition asserts over the constants of an environment. -/
def assertions (e : Environment) (text : String) : List Term :=
  if (Text.trim text).isEmpty then []
  else
    match e.declarations "" with
    | .ok consts => (e.logic.read consts text).getD []
    | .error _ => []

/-- A constant is that of a variable or of an entry value. -/
def Declares (e : Environment) (name : Symbol) (srt : Srt) : Prop :=
  .const name srt ∈ e.constants

/-- A text is read as formulas over the constants of an environment. -/
def Parses (e : Environment) (text : String) : Prop :=
  ∀ f ∈ e.assertions text, f.Proper e.Declares

/-- What a condition says of a state on entry and a later one: all that it asserts is true in the
later one, where the names of entry values stand for the values on entry. -/
def Says (e : Environment) (text : String) (s t : State) : Prop :=
  ∀ f ∈ e.assertions text, f.holds (e.recall s t) = true

end Environment

theorem Build.ends_conditionOn {σ σ' : Session} {ν : Nat → Constraint} {name text : String}
    {c : Constraint} (h : (conditionOn name text).Ends σ c σ') :
    ∃ ν', Builds σ ν σ' ν' ∧ σ'.Lists ν' c ∧ c.Sorted ∧ ∀ e : Environment, e.Fixed σ → ∀ b s,
      c.Holds b s ↔ ∀ f ∈ e.assertions text, f.holds (s.cutAs b) = true := by
  simp only [conditionOn, condition, ends_bind, ends_env, ends_lift] at h
  obtain ⟨_, _, ⟨rfl, rfl⟩, consts, _, ⟨hconsts, rfl⟩, h⟩ := h
  -- whatever is asserted, the condition is one goal
  obtain ⟨label, f, hgoal, hf⟩ : ∃ label f, (goal label f).Ends σ c σ' ∧
      ∀ e : Environment, e.Fixed σ → ∀ s,
        f.holds s = true ↔ ∀ g ∈ e.assertions text, g.holds s = true := by
    split at h
    · next hblank => exact ⟨_, _, h, fun e _ s => by simp [Environment.assertions, hblank]⟩
    · next hblank =>
      simp only [ends_bind, ends_env] at h
      obtain ⟨_, _, ⟨rfl, rfl⟩, h⟩ := h
      have hasserts : ∀ e : Environment, e.Fixed σ →
          e.assertions text = (σ.env.logic.read consts text).getD [] := by
        rintro e ⟨hvars, hinits, -, hlogic⟩
        have hdeclared : e.declarations "" = .ok consts := by
          rw [Environment.declarations, ← hvars, ← hinits]
          exact hconsts
        rw [Environment.assertions, if_neg hblank, hdeclared, hlogic]
      split at h
      · simp at h
      · next hparse => exact ⟨_, _, h, fun e he s => by simp [hasserts e he, hparse]⟩
      · next f hparse => exact ⟨_, _, h, fun e he s => by simp [hasserts e he, hparse]⟩
      · next fs hparse => exact ⟨_, _, h, fun e he s => by simp [hasserts e he, hparse]⟩
  obtain ⟨i, ν', rfl, hb, hl⟩ := ends_goal (ν := ν) hgoal
  exact ⟨ν', hb, hl, Constraint.sorted_goal, fun e he b s => by
    rw [Constraint.holds_goal, hf e he]⟩

end Antecedent
