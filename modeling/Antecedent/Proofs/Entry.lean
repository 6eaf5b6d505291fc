import Antecedent.Analysis.Question
import Antecedent.Proofs.Translation

/-!
# States on entry

What an environment knows before the first block, and what the hypotheses on entry say.

* `Environment.Ready` says that an environment has a constant for every register.
* `Var.Entered` says that the name of a variable's entry value holds the value.
-/

namespace Antecedent

variable {e e' : Environment} {v : Var} {σ σ' : Session} {t : Term} {hooks : List Hook} {α : Type}
  {vs : List Var} {cs : List Constraint} {sub : Sub} {o : Options} {p : Program} {d : Defaults}

/-! ## §1 Seeding -/

namespace Arch

variable {a : Arch} {r n : String} {names : List String}

theorem mem_insertName : r ∈ insertName n names ↔ r = n ∨ r ∈ names := by
  induction names with
  | nil => simp [insertName]
  | cons m names ih =>
    rw [insertName]
    split
    · rw [List.mem_cons]
    · rw [List.mem_cons, ih, List.mem_cons, or_left_comm]

theorem mem_registerNames : r ∈ a.registerNames ↔ ∃ w, (r, w) ∈ a.registers := by
  rw [registerNames]
  induction a.registers with
  | nil => simp
  | cons x regs ih =>
    rw [List.foldr_cons, mem_insertName, ih]
    simp [Prod.ext_iff, exists_or]

end Arch

theorem Environment.mem_registerNames {r : String} (h : e.regVar r = .ok v) :
    r ∈ e.arch.registerNames := by
  simp only [regVar, bind_eq_ok] at h
  obtain ⟨w, hw, -⟩ := h
  unfold Arch.width at hw
  split at hw
  · next w' hlookup =>
    obtain ⟨before, after, hregs, -⟩ := List.lookup_eq_some_iff.mp hlookup
    exact Arch.mem_registerNames.mpr ⟨w', by rw [hregs]; simp⟩
  · cases hw

/-- Registers are given constants one after the other. -/
theorem Build.ends_registers_cons {u : PUnit} {r : String} {rs : List String} :
    (forIn (r :: rs) PUnit.unit fun r _ => do
      let _ ← getRegister r
      pure (ForInStep.yield PUnit.unit)).Ends σ u σ' ↔
    ∃ v t τ, σ.env.regVar r = .ok v ∧ (getVar v).Ends σ t τ ∧
      (forIn rs PUnit.unit fun r _ => do
        let _ ← getRegister r
        pure (ForInStep.yield PUnit.unit)).Ends τ u σ' := by
  simp only [List.forIn_cons, getRegister, ends_bind, ends_env, ends_lift, ends_pure]
  constructor
  · rintro ⟨_, _, ⟨t, τ, ⟨_, _, ⟨rfl, rfl⟩, v, _, ⟨hv, rfl⟩, ht⟩, rfl, rfl⟩, h⟩
    exact ⟨v, t, τ, hv, ht, h⟩
  · rintro ⟨v, t, τ, hv, ht, h⟩
    exact ⟨_, _, ⟨t, τ, ⟨_, _, ⟨rfl, rfl⟩, v, _, ⟨hv, rfl⟩, ht⟩, rfl, rfl⟩, h⟩

/-- After seeding, every register has a constant. -/
theorem Build.ends_seed {u : Unit} (h : seed.Ends σ u σ') :
    σ.Step σ' ∧ ∀ r v, σ'.env.regVar r = .ok v → ∃ t, σ'.env.Gives v t := by
  simp only [seed, ends_bind, ends_env, ends_pure] at h
  obtain ⟨_, _, ⟨rfl, rfl⟩, _, τ, hregs, m, τ', hmem, -, rfl⟩ := h
  obtain ⟨hstep, -⟩ := ends_getMemory hmem
  clear hmem
  -- the registers in the order of their names, each of which keeps its constant
  have hloop : ∀ (regs : List String) {σ τ : Session} {u : PUnit},
      (forIn regs PUnit.unit fun r _ => do
        let _ ← getRegister r
        pure (ForInStep.yield PUnit.unit)).Ends σ u τ →
      σ.Step τ ∧ ∀ r ∈ regs, ∀ v, τ.env.regVar r = .ok v → ∃ t, τ.env.Gives v t := by
    intro regs
    induction regs with
    | nil =>
      intro σ τ u h
      rw [List.forIn_nil, ends_pure] at h
      exact ⟨h.2 ▸ .refl σ, by simp⟩
    | cons r regs ih =>
      intro σ τ u h
      obtain ⟨v, t, τ1, hv, hr, h⟩ := ends_registers_cons.mp h
      obtain ⟨hstep1, -, hgives⟩ := ends_getVar hr
      obtain ⟨hstep2, hall⟩ := ih h
      refine ⟨hstep1.trans hstep2, List.forall_mem_cons.mpr ⟨fun v' hv' => ?_, hall⟩⟩
      rw [(hstep1.trans hstep2).env.regVar, hv] at hv'
      cases hv'
      exact ⟨t, hgives.grows hstep2.env⟩
  obtain ⟨hstep0, hall⟩ := hloop _ hregs
  refine ⟨hstep0.trans hstep, fun r v hv => ?_⟩
  rw [hstep.env.regVar] at hv
  have hmem := Environment.mem_registerNames hv
  rw [hstep0.env.arch] at hmem
  obtain ⟨t, ht⟩ := hall r hmem v hv
  exact ⟨t, ht.grows hstep.env⟩

theorem Build.ends_seed_induction {I : Session → Prop} {u : Unit}
    (hget : ∀ {v t σ σ'}, (getVar v).Ends σ t σ' → I σ → I σ') (h : seed.Ends σ u σ') (hσ : I σ) :
    I σ' := by
  simp only [seed, getMemory, ends_bind, ends_env, ends_pure] at h
  obtain ⟨_, _, ⟨rfl, rfl⟩, _, τ, hregs, m, _, ⟨_, _, ⟨rfl, rfl⟩, hmem⟩, -, rfl⟩ := h
  refine hget hmem ?_
  clear hmem
  generalize σ.env.arch.registerNames = regs at hregs
  induction regs generalizing σ with
  | nil =>
    rw [List.forIn_nil, ends_pure] at hregs
    exact hregs.2 ▸ hσ
  | cons r regs ih =>
    obtain ⟨v, t, τ1, -, hr, hregs⟩ := ends_registers_cons.mp hregs
    exact ih (hget hr hσ) hregs

theorem Environment.ends_of_seeded (h : e.seeded = .ok e') :
    ∃ u τ, Build.seed.Ends { env := e } u τ ∧ τ.env = e' := by
  simp only [seeded, bind_eq_ok] at h
  obtain ⟨_, -, h⟩ := h
  split at h
  · next s hs =>
    cases h
    exact ⟨_, s, hs, rfl⟩
  · cases h

theorem Environment.seeded_ok (h : e.seeded = .ok e') :
    e.Grows e' ∧ (e.Sound → e'.Sound) ∧ ∀ r v, e'.regVar r = .ok v → ∃ t, e'.Gives v t := by
  obtain ⟨u, τ, hseed, rfl⟩ := ends_of_seeded h
  obtain ⟨hstep, hgives⟩ := Build.ends_seed hseed
  exact ⟨hstep.env, hstep.sound, hgives⟩

/-- An environment in which an analysis starts: it has a constant for every register. -/
structure Environment.Ready (e : Environment) (arch : Arch) (hooks : List Hook) (fresh : Bool) :
    Prop where
  sound : e.Sound
  arch : e.arch = arch
  hooks : e.hooks = hooks
  freshened : e.freshened = fresh
  registers : ∀ r v, e.regVar r = .ok v → ∃ t, e.Gives v t

theorem Environment.Ready.grows {arch : Arch} {fresh : Bool} (h : e.Ready arch hooks fresh)
    (hg : e.Grows e') (hs : e'.Sound) : e'.Ready arch hooks fresh where
  sound := hs
  arch := hg.arch.trans h.arch
  hooks := hg.hooks.trans h.hooks
  freshened := hg.freshened.trans h.freshened
  registers r v hv := by
    rw [hg.regVar] at hv
    obtain ⟨t, ht⟩ := h.registers r v hv
    exact ⟨t, ht.grows hg⟩

/-- A seeded environment without earlier constants is ready. -/
theorem Environment.ready_of_seeded (h : e.seeded = .ok e') (hvars : e.vars = [])
    (hinits : e.inits = []) : e'.Ready e.arch e.hooks e.freshened := by
  obtain ⟨hg, hs, hregs⟩ := seeded_ok h
  exact ⟨hs (sound_of_nil hvars hinits), hg.arch, hg.hooks, hg.freshened, hregs⟩

theorem Environment.ready_freshen (h : e.freshen = .ok e') : e'.Ready e.arch e.hooks true :=
  ready_of_seeded h rfl rfl

/-- A seeded environment without earlier constants is labelled. -/
theorem Environment.labelled_of_seeded (h : e.seeded = .ok e') (hvars : e.vars = []) :
    e'.Labelled := by
  obtain ⟨u, τ, hseed, rfl⟩ := ends_of_seeded h
  exact Build.ends_seed_induction (I := fun σ => σ.env.Labelled) Build.labelled_getVar hseed
    (by simp [Labelled, hvars])

/-! ## §2 Variables in order -/

theorem Label.insertBy_perm {before : α → α → Except Fault Bool} {x : α} {xs ys : List α}
    (h : insertBy before x xs = .ok ys) : ys.Perm (x :: xs) := by
  induction xs generalizing ys with
  | nil =>
    cases h
    exact .refl _
  | cons y xs ih =>
    simp only [insertBy, bind_eq_ok] at h
    obtain ⟨earlier, -, h⟩ := h
    cases earlier with
    | true =>
      simp only [if_true, bind_eq_ok, pure_eq_ok] at h
      obtain ⟨zs, hzs, rfl⟩ := h
      exact ((ih hzs).cons y).trans (.swap x y xs)
    | false =>
      simp only [Bool.false_eq_true, if_false, pure_eq_ok] at h
      exact h ▸ .refl _

theorem Label.sortBy_perm {before : α → α → Except Fault Bool} {xs ys : List α}
    (h : sortBy before xs = .ok ys) : ys.Perm xs := by
  induction xs generalizing ys with
  | nil =>
    cases h
    exact .refl _
  | cons x xs ih =>
    simp only [sortBy, bind_eq_ok] at h
    obtain ⟨zs, hzs, h⟩ := h
    exact (insertBy_perm h).trans ((ih hzs).cons x)

theorem Label.sortBy_ok {before : α → α → Except Fault Bool} {xs : List α}
    (h : ∀ x ∈ xs, ∀ y ∈ xs, ∃ b, before x y = .ok b) : ∃ ys, sortBy before xs = .ok ys := by
  -- an insertion asks about members of the list only
  have hinsert : ∀ (x : α) (ys : List α), (∀ y ∈ ys, ∃ b, before y x = .ok b) →
      ∃ zs, insertBy before x ys = .ok zs := by
    intro x ys hys
    induction ys with
    | nil => exact ⟨[x], rfl⟩
    | cons y ys ih =>
      obtain ⟨⟨b, hb⟩, hys⟩ := List.forall_mem_cons.mp hys
      obtain ⟨zs, hzs⟩ := ih hys
      rw [insertBy, hb]
      cases b with
      | true => exact ⟨y :: zs, by rw [hzs]; rfl⟩
      | false => exact ⟨x :: y :: ys, rfl⟩
  induction xs with
  | nil => exact ⟨[], rfl⟩
  | cons x xs ih =>
    obtain ⟨ys, hys⟩ := ih fun y hy z hz =>
      h y (List.mem_cons_of_mem _ hy) z (List.mem_cons_of_mem _ hz)
    obtain ⟨zs, hzs⟩ := hinsert x ys fun y hy =>
      h y (List.mem_cons_of_mem _ ((sortBy_perm hys).mem_iff.mp hy)) x (List.mem_cons_self ..)
    exact ⟨zs, by rw [sortBy, hys]; exact hzs⟩

/-- A list holds each of some variables, in one way of writing it. -/
structure Var.Covers (us vs : List Var) : Prop where
  sub : ∀ u ∈ us, u ∈ vs
  all : ∀ v ∈ vs, ∃ u ∈ us, u = v ∨ v.alike u = true

theorem Var.covers_distinct {us : List Var} (h : Var.distinct vs = .ok us) : Var.Covers us vs := by
  unfold Var.distinct at h
  split at h
  · cases h
    -- the members found so far and those that are left
    have hfold : ∀ (vs found seen : List Var), Var.Covers found seen →
        Var.Covers (vs.foldl (fun found v => if found.any v.alike then found else found ++ [v])
          found) (seen ++ vs) := by
      intro vs
      induction vs with
      | nil =>
        intro found seen hf
        simpa using hf
      | cons v vs ih =>
        intro found seen hf
        rw [List.foldl_cons, List.append_cons seen]
        refine ih _ _ ?_
        split
        · next hany =>
          obtain ⟨u, hu, halike⟩ := List.any_eq_true.mp hany
          refine ⟨fun u hu => List.mem_append_left _ (hf.sub u hu), fun w hw => ?_⟩
          rcases List.mem_append.mp hw with hw | hw
          · exact hf.all w hw
          · obtain rfl := List.mem_singleton.mp hw
            exact ⟨u, hu, .inr halike⟩
        · refine ⟨fun u hu => ?_, fun w hw => ?_⟩
          · rcases List.mem_append.mp hu with hu | hu
            · exact List.mem_append_left _ (hf.sub u hu)
            · exact List.mem_append_right _ hu
          · rcases List.mem_append.mp hw with hw | hw
            · obtain ⟨u, hu, h⟩ := hf.all w hw
              exact ⟨u, List.mem_append_left _ hu, h⟩
            · exact ⟨w, List.mem_append_right _ hw, .inl rfl⟩
    simpa using hfold vs [] [] ⟨by simp, by simp⟩
  · cases h

/-! ## §3 Entry values -/

/-- The constant of a variable's value on entry, if it has been introduced. -/
def Environment.initTerm? (e : Environment) (v : Var) : Option Term :=
  match v.name with
  | .str base => e.inits.lookup base
  | _ => none

/-- The name of a variable's entry value, if there is one, holds the value of the variable. -/
def Var.Entered (e : Environment) (s : State) (v : Var) : Prop :=
  ∀ t, e.initTerm? v = some t → (t.eval s).same (e.look s v) = true

theorem Environment.Grows.initTerm? (h : e.Grows e') (ht : e.initTerm? v = some t) :
    e'.initTerm? v = some t := by
  unfold Environment.initTerm? at ht ⊢
  split at ht
  · next base hbase =>
    obtain ⟨more, hmore⟩ := h.inits
    rw [← hmore, List.lookup_append, ht]
    rfl
  · cases ht

/-- The constants of entry values are never Boolean. -/
theorem Environment.Sound.initTerm? (h : e.Sound) (ht : e.initTerm? v = some t) :
    ∃ name srt, t = .const name srt ∧ srt ≠ .bool := by
  unfold Environment.initTerm? at ht
  split at ht
  · obtain ⟨before, after, hinits, -⟩ := List.lookup_eq_some_iff.mp ht
    have hmem : t ∈ e.constants := by simp [constants, hinits]
    obtain ⟨name, srt, rfl, hne, -⟩ := h t hmem
    exact ⟨name, srt, rfl, hne⟩
  · cases ht

namespace Build

variable {ν : Nat → Constraint}

theorem ends_getInit (h : (getInit v).Ends σ t σ') :
    σ.Step σ' ∧ σ'.supply = σ.supply ∧ σ'.env.initTerm? v = some t := by
  unfold getInit at h
  split at h
  · next base hbase =>
    simp only [ends_bind, ends_env] at h
    obtain ⟨_, _, ⟨rfl, rfl⟩, h⟩ := h
    split at h
    · next u hu =>
      obtain ⟨rfl, rfl⟩ := ends_pure.mp h
      exact ⟨.refl _, rfl, by rw [Environment.initTerm?, hbase]; exact hu⟩
    · next hnone =>
      simp only [ends_bind, ends_modifyEnv, ends_pure] at h
      obtain ⟨_, _, hc, _, _, rfl, rfl, rfl⟩ := h
      obtain ⟨n, name, srt, hn, hname, hsrt, rfl, rfl⟩ := ends_constant.mp hc
      -- the new constant is recorded at the end, so nothing that was there is hidden
      refine ⟨⟨?_, fun hs => ?_, fun hf => hf, rfl, fun _ => rfl, le_rfl, le_rfl⟩, rfl, ?_⟩
      · exact ⟨rfl, rfl, rfl, rfl, rfl, rfl, rfl, rfl, List.prefix_rfl, List.prefix_append ..,
          List.suffix_cons ..⟩
      · refine sound_introduce hs hname (Environment.sortOf_ne_bool hsrt) fun t ht => ?_
        simp only [Environment.constants, List.map_append, List.mem_append, List.map_cons,
          List.map_nil, List.mem_singleton] at ht ⊢
        tauto
      · rw [Environment.initTerm?, hbase]
        simp [List.lookup_append, hnone]
  · simp at h

theorem ends_entryValue {c : Constraint} (h : (do
      let init ← getInit v
      let t ← Term.mkEq init (← getVar v)
      goal (Environment.initMark ++ v.name.inText) t).Ends σ c σ') :
    ∃ ν', Builds σ ν σ' ν' ∧ σ'.Lists ν' c ∧ c.Sorted ∧
      ∀ e, σ'.env.Grows e → e.Sound → ∀ b s, c.Holds b s ↔ v.Entered e s := by
  simp only [ends_bind, ends_lift] at h
  obtain ⟨init, τ, hinit, x, τ', hx, t, _, ⟨ht, rfl⟩, hc⟩ := h
  obtain ⟨hstep, -, hinit⟩ := ends_getInit hinit
  obtain ⟨hstep', -, hgives⟩ := ends_getVar hx
  obtain ⟨i, ν', rfl, hb, hl⟩ := ends_goal (ν := ν) hc
  refine ⟨ν', (Builds.of_step (hstep.trans hstep')).trans hb, hl, Constraint.sorted_goal,
    fun e hg hs b s => ?_⟩
  have hgives := hgives.grows (hb.step.env.trans hg)
  have hinit := ((hstep'.env.trans hb.step.env).trans hg).initTerm? hinit
  obtain ⟨name, srt, rfl, hne⟩ := hs.initTerm? hinit
  obtain ⟨name', srt', rfl, howns⟩ := hgives.const hs
  have hd := Term.mkEq_ok (P := fun _ srt => srt ≠ .bool) ⟨.const name srt, .const hne⟩
    ⟨.const name' srt', .const (hs.owns_ne_bool howns)⟩ ht
  rw [Constraint.holds_goal, Term.holds, Term.eval_cutAs hd.proper.uses, hd.eval, Value.isTrue,
    Var.Entered, hinit]
  simp [hgives.look_eq]

/-- An entry value without a constant is given a new one. -/
theorem getInit_new {n : Label} {name : Symbol} {srt : Srt} {base : String}
    (hbase : v.name = .str base) (hnone : σ.env.inits.lookup base = none)
    (hn : σ.env.localName (.text (Environment.initMark ++ base)) = .ok n)
    (hname : Term.symbolOf n = .ok name) (hsrt : σ.env.sortOf v = .ok srt) :
    (getInit v).Ends σ (.const name srt)
      { σ with env := { σ.env with
          introduced := n :: σ.env.introduced
          inits := σ.env.inits ++ [(base, .const name srt)] } } := by
  simp only [getInit, hbase, ends_bind, ends_env]
  refine ⟨_, _, ⟨rfl, rfl⟩, ?_⟩
  rw [hnone]
  simp only [ends_bind, ends_modifyEnv, ends_pure]
  exact ⟨_, _, ends_constant.mpr ⟨n, name, srt, hn, hname, hsrt, rfl, rfl⟩, (), _, rfl, rfl, rfl⟩

theorem ends_entryValues (h : (entryValues vs).Ends σ cs σ') :
    ∃ ν', Builds σ ν σ' ν' ∧ (∀ c ∈ cs, σ'.Lists ν' c) ∧ (∀ c ∈ cs, c.Sorted) ∧
      ∀ e, σ'.env.Grows e → e.Sound → ∀ b s,
        (∀ c ∈ cs, c.Holds b s) ↔ ∀ v ∈ vs, v.Entered e s := by
  simp only [entryValues, ends_bind, ends_lift] at h
  obtain ⟨us, _, ⟨hus, rfl⟩, h⟩ := h
  have hperm := Label.sortBy_perm hus
  simp only [← hperm.mem_iff]
  clear hus hperm
  induction us generalizing σ ν cs with
  | nil =>
    obtain ⟨rfl, rfl⟩ := ends_mapM_nil.mp h
    exact ⟨ν, .refl _ _, by simp, by simp, by simp⟩
  | cons v us ih =>
    obtain ⟨c, τ, hc, cs, hcs, rfl⟩ := ends_mapM_cons.mp h
    obtain ⟨ν1, hb1, hl1, hsort1, hmeans1⟩ := ends_entryValue (ν := ν) hc
    obtain ⟨ν2, hb2, hl2, hsort2, hmeans2⟩ := ih (ν := ν1) hcs
    refine ⟨ν2, hb1.trans hb2, List.forall_mem_cons.mpr ⟨hb2.lists hl1, hl2⟩,
      List.forall_mem_cons.mpr ⟨hsort1, hsort2⟩, fun e hg hs b s => ?_⟩
    rw [List.forall_mem_cons, List.forall_mem_cons, hmeans1 e (hb2.step.env.trans hg) hs,
      hmeans2 e hg hs]

end Build

/-- The callees that are reached depend on the subroutines known only. -/
theorem Environment.reach_congr (h : e'.subs = e.subs) (bound : Nat) (names : List Json)
    (found : List Label) : e'.reach bound names found = e.reach bound names found := by
  induction bound generalizing names found with
  | zero => rfl
  | succ bound ih =>
    have hfind : ∀ l, e'.findSub? l = e.findSub? l := fun l => by rw [findSub?, findSub?, h]
    simp only [reach, ih, hfind]

/-- The variables that matter depend on the target, the subroutines known and the use of input
registers only. -/
theorem Environment.relevantVars_congr (harch : e'.arch = e.arch) (hsubs : e'.subs = e.subs)
    (hinputs : e'.useInputs = e.useInputs) (sub : Sub) :
    e'.relevantVars sub = e.relevantVars sub := by
  have hfind : e'.findSub? = e.findSub? := by
    funext l
    rw [findSub?, findSub?, hsubs]
  have hreg : e'.regVar = e.regVar := by
    funext r
    rw [Environment.regVar, Environment.regVar, harch]
  have hmem : e'.memVar = e.memVar := by rw [Environment.memVar, Environment.memVar, harch]
  simp only [relevantVars, reachableCallees, reach_congr hsubs, hsubs, hfind, hreg, hinputs, harch,
    hmem]

theorem Environment.Grows.relevantVars (h : e.Grows e') (sub : Sub) :
    e'.relevantVars sub = e.relevantVars sub :=
  relevantVars_congr h.arch h.subs h.useInputs sub

theorem Environment.relevantVars_cases (h : e.relevantVars sub = .ok vs) :
    ∃ own ls known inputs special, Var.distinct sub.vars = .ok own ∧
      e.reachableCallees sub = .ok ls ∧
      Var.distinct (own ++ (ls.filterMap e.findSub?).flatMap Sub.vars) = .ok known ∧
      (e.useInputs = true → e.arch.inputRegisters.mapM e.regVar = .ok inputs) ∧
      (e.arch.stackPointer.toList ++ e.arch.returnRegister.toList).mapM e.regVar = .ok special ∧
      Var.distinct (known ++ inputs ++ special ++ [e.memVar]) = .ok vs := by
  obtain ⟨own, hown, h⟩ := bind_eq_ok.mp h
  obtain ⟨ls, hls, h⟩ := bind_eq_ok.mp h
  obtain ⟨known, hknown, h⟩ := bind_eq_ok.mp h
  dsimp only at h
  split at h <;> simp only [bind_eq_ok, pure_eq_ok] at h
  · obtain ⟨inputs, hinputs, special, hspecial, h⟩ := h
    exact ⟨own, ls, known, inputs, special, hown, hls, hknown, fun _ => hinputs, hspecial, h⟩
  · next hno =>
    obtain ⟨inputs, -, special, hspecial, h⟩ := h
    exact ⟨own, ls, known, inputs, special, hown, hls, hknown, fun hyes => absurd hyes hno,
      hspecial, h⟩

/-- A variable is one of the relevant ones of a subroutine. -/
def Environment.Matters (e : Environment) (sub : Sub) (v : Var) : Prop :=
  ∃ vs, e.relevantVars sub = .ok vs ∧ v ∈ vs

theorem Environment.Grows.matters (h : e.Grows e') : e'.Matters sub v ↔ e.Matters sub v := by
  rw [Environment.Matters, Environment.Matters, h.relevantVars]

/-- The hypotheses on entry say that variables have their initial values. -/
theorem Build.ends_entryHypotheses {ν : Nat → Constraint} (h : (entryHypotheses sub).Ends σ cs σ') :
    ∃ ν', Builds σ ν σ' ν' ∧ (∀ c ∈ cs, σ'.Lists ν' c) ∧ (∀ c ∈ cs, c.Sorted) ∧
      ∀ e, σ'.env.Grows e → e.Sound → ∀ b s,
        (∀ c ∈ cs, c.Holds b s) ↔ ∀ v, e.Matters sub v → v.Entered e s := by
  simp only [entryHypotheses, ends_bind, ends_env, ends_lift] at h
  obtain ⟨_, _, ⟨rfl, rfl⟩, vs, _, ⟨hvs, rfl⟩, h⟩ := h
  obtain ⟨ν', hb, hl, hsort, hmeans⟩ := ends_entryValues (ν := ν) h
  refine ⟨ν', hb, hl, hsort, fun e hg hs b s => ?_⟩
  have hmatters : ∀ v, e.Matters sub v ↔ v ∈ vs := fun v => by
    simp [Environment.Matters, (hb.step.env.trans hg).relevantVars, hvs]
  simp only [hmeans e hg hs, hmatters]

/-- Every variable that matters to a subroutine has a text for a name, and a constant that is
labelled. -/
def Environment.Labels (e : Environment) (sub : Sub) : Prop :=
  ∀ v, e.Matters sub v → ∃ base n name w srt, v.name = .str base ∧
    e.localName (.text base) = .ok n ∧ Term.symbolOf n = .ok name ∧ e.sortOf w = .ok srt ∧
    e.findVar? (.text base) = some (.const name srt)

theorem Environment.Labels.grows (h : e.Labels sub) (hg : e.Grows e') : e'.Labels sub := by
  intro v hv
  obtain ⟨base, n, name, w, srt, hbase, hn, hname, hsrt, hfind⟩ := h v (hg.matters.mp hv)
  have hgives : e.Gives v (.const name srt) := ⟨.text base, by rw [hbase]; rfl, hfind⟩
  obtain ⟨l, hl, hfind⟩ := hgives.grows hg
  rw [hbase] at hl
  cases hl
  refine ⟨base, n, name, w, srt, hbase, ?_, hname, ?_, hfind⟩
  · rwa [localName, hg.freshened]
  · rwa [sortOf, hg.arch]

theorem Build.labels_entryHypotheses (h : (entryHypotheses sub).Ends σ cs σ') (hσ : σ.env.Labelled)
    : σ'.env.Labels sub := by
  simp only [entryHypotheses, entryValues, ends_bind, ends_env, ends_lift] at h
  obtain ⟨_, _, ⟨rfl, rfl⟩, vs, _, ⟨hvs, rfl⟩, us, _, ⟨hus, rfl⟩, h⟩ := h
  -- one variable after the other has a name and is looked up
  have hloop : σ.env.Grows σ'.env ∧ σ'.env.Labelled ∧
      ∀ v ∈ us, ∃ base t, v.name = .str base ∧ σ'.env.Gives v t := by
    clear hus hvs
    induction us generalizing σ cs with
    | nil =>
      obtain ⟨-, rfl⟩ := ends_mapM_nil.mp h
      exact ⟨.refl _, hσ, by simp⟩
    | cons v us ih =>
      obtain ⟨c, τ, hc, cs, hcs, rfl⟩ := ends_mapM_cons.mp h
      obtain ⟨_, hb, -⟩ := ends_entryValue (ν := fun _ => default) hc
      simp only [goal, ends_bind, ends_lift, ends_nodeId, ends_pure] at hc
      obtain ⟨init, τ1, hinit, x, τ2, hx, f, _, ⟨-, rfl⟩, _, _, ⟨rfl, rfl⟩, rfl, rfl⟩ := hc
      obtain ⟨base, hbase, hτ1⟩ : ∃ base, v.name = .str base ∧ τ1.env.Labelled := by
        unfold getInit at hinit
        split at hinit
        · next base hbase =>
          refine ⟨base, hbase, ?_⟩
          simp only [ends_bind, ends_env] at hinit
          obtain ⟨_, _, ⟨rfl, rfl⟩, hinit⟩ := hinit
          split at hinit
          · rwa [← (ends_pure.mp hinit).2]
          · simp only [ends_bind, ends_modifyEnv, ends_pure] at hinit
            obtain ⟨_, _, hconst, _, _, rfl, rfl, rfl⟩ := hinit
            obtain ⟨_, _, _, -, -, -, rfl, rfl⟩ := ends_constant.mp hconst
            exact hσ
        · simp at hinit
      have hτ2 : τ2.env.Labelled := labelled_getVar hx hτ1
      obtain ⟨hgrows, hlabelled, hall⟩ := ih (σ := τ2.bump) hτ2 hcs
      obtain ⟨-, -, hgives⟩ := ends_getVar hx
      exact ⟨hb.step.env.trans hgrows, hlabelled,
        List.forall_mem_cons.mpr ⟨⟨base, x, hbase, hgives.grows hgrows⟩, hall⟩⟩
  obtain ⟨hgrows, hlabelled, hall⟩ := hloop
  intro v hv
  have hmem : v ∈ us := by
    obtain ⟨vs', hvs', hv⟩ := hgrows.matters.mp hv
    rw [hvs] at hvs'
    cases hvs'
    exact (Label.sortBy_perm hus).mem_iff.mpr hv
  obtain ⟨base, t, hbase, l, hl, hfind⟩ := hall v hmem
  rw [hbase] at hl
  cases hl
  obtain ⟨p, hp, rfl⟩ := Option.map_eq_some_iff.mp hfind
  obtain ⟨n, name, w, srt, hn, hname, hsrt, hconst⟩ := hlabelled p (List.mem_of_find?_eq_some hp)
  have hlabel : p.1 = .text base := Label.eq_of_same_text (by simpa using List.find?_some hp)
  exact ⟨base, n, name, w, srt, hbase, hlabel ▸ hn, hname, hsrt, hconst ▸ hfind⟩

/-! ## §4 The stack pointer -/

/-- Whether a value lies in a stack: above its end and at most at its base. -/
def StackRange.Holds (r : StackRange) (v : Value) : Prop :=
  ((r.base - r.size) % (2 ^ v.width : Nat)).toNat < v.toNat ∧
    v.toNat ≤ (r.base % (2 ^ v.width : Nat)).toNat

/-- The stack pointer, if there is one, lies in the stack. -/
def Environment.SpInRange (e : Environment) (s : State) : Prop :=
  ∀ name v, e.arch.stackPointer = some name → e.regVar name = .ok v → e.stack.Holds (e.look s v)

theorem Build.ends_stackInRange {ν : Nat → Constraint} {c : Constraint}
    (h : stackInRange.Ends σ c σ') : ∃ ν', Antecedent.Builds σ ν σ' ν' ∧ σ'.Lists ν' c ∧ c.Sorted ∧
      ∀ e, σ'.env.Grows e → e.Sound → ∀ b s, c.Holds b s ↔ e.SpInRange s := by
  simp only [stackInRange, ends_bind, ends_env] at h
  obtain ⟨_, _, ⟨rfl, rfl⟩, h⟩ := h
  split at h
  · next hnone =>
    obtain ⟨i, ν', rfl, hb, hl⟩ := ends_goal (ν := ν) h
    refine ⟨ν', hb, hl, Constraint.sorted_goal, fun e hg _ b s => ?_⟩
    rw [Constraint.holds_goal, Term.holds_lit, Environment.SpInRange, hg.arch, hb.step.env.arch,
      hnone]
    simp
  · next name hsome =>
    simp only [ends_bind, ends_lift] at h
    obtain ⟨sp, τ, hsp, w, _, ⟨hw, rfl⟩, top, _, ⟨htop, rfl⟩, bottom, _, ⟨hbottom, rfl⟩, f, _,
      ⟨hf, rfl⟩, h⟩ := h
    obtain ⟨hstep, hsup, v, hv, hgives⟩ := ends_getRegister hsp
    obtain ⟨i, ν', rfl, hb, hl⟩ := ends_goal (ν := ν) h
    refine ⟨ν', (Builds.of_step hstep).trans hb, hl, Constraint.sorted_goal, fun e hg hs b s => ?_⟩
    have hgrow := (hstep.env.trans hb.step.env).trans hg
    have hgives := hgives.grows (hb.step.env.trans hg)
    obtain ⟨n, srt, rfl, howns⟩ := hgives.const hs
    have hproper : (Term.const n srt).Proper e.Owns := ⟨.const n srt, .const howns⟩
    have hsort := Term.width_ok.mp hw
    have htop := Term.mk_order_ok hproper (Term.proper_numeral w _) hsort htop
    have hbottom := Term.mk_order_ok hproper (Term.proper_numeral w _) hsort hbottom
    obtain ⟨m, hm, hlt⟩ := hproper.bits hsort s
    -- the architecture and the stack are those of the start, and the register is the one looked up
    have hrange : e.SpInRange s ↔ σ.env.stack.Holds (.bits w m) := by
      rw [← hm, ← hgives.look_eq, ← hgrow.stack]
      constructor
      · exact fun h => h name v (by rw [hgrow.arch, hsome])
          (by rw [Environment.regVar, hgrow.arch]; exact hv)
      · intro h name' v' hname' hv'
        rw [hgrow.arch, hsome] at hname'
        obtain rfl := Option.some.inj hname'
        rw [Environment.regVar, hgrow.arch] at hv'
        rwa [Except.ok.inj (hv'.symm.trans hv)]
    -- neither bound mentions the constant of cut paths
    have hcut : ∀ {f : Term} {v : State → Value}, f.Denotes e.Owns v → f.eval (s.cutAs b) = v s :=
      fun hd => by
        rw [Term.eval_cutAs (hd.proper.uses.mono fun _ _ => hs.owns_ne_bool), hd.eval]
    obtain ⟨rfl, -⟩ := Term.mk_ok hf
    rw [Constraint.holds_goal, Term.holds_and, hrange]
    have hnat : ∀ z : Int, (z % (2 ^ w : Nat)).toNat % 2 ^ w = (z % (2 ^ w : Nat)).toNat :=
      fun z => Nat.mod_eq_of_lt (Term.emod_two_pow_lt w z)
    simp only [List.all_cons, List.all_nil, Bool.and_true, Term.holds, hcut htop, hcut hbottom, hm,
      Value.isTrue, Order.eval, Term.numeral_eq, Term.eval_num, Value.toBits, Value.toNat,
      BitVec.ule_eq_decide, BitVec.ult_eq_decide, BitVec.toNat_ofNat, hnat, Nat.mod_eq_of_lt hlt,
      Bool.and_eq_true, decide_eq_true_eq, StackRange.Holds, Value.width]
    exact and_comm

/-! ## §5 Setting up -/

namespace Setup

variable {supply supply' : Supply}

theorem ends_build {act : Build α} {r : α × Environment} :
    (build e act).Ends supply r supply' ↔ act.Ends ⟨supply, e⟩ r.1 ⟨supply', r.2⟩ := by
  have h : Id.run ((build e act).run.run supply) =
      ((Id.run (act.run.run ⟨supply, e⟩)).1.map fun a =>
          (a, (Id.run (act.run.run ⟨supply, e⟩)).2.env),
        (Id.run (act.run.run ⟨supply, e⟩)).2.supply) := rfl
  simp only [ExceptT.Ends, h]
  rcases Id.run (act.run.run ⟨supply, e⟩) with ⟨r', σ⟩
  obtain ⟨a, e'⟩ := r
  cases r' with
  | error f => simp [Except.map]
  | ok a' =>
    simp only [Except.map, Prod.mk.injEq, Except.ok.injEq]
    constructor
    · rintro ⟨⟨rfl, rfl⟩, rfl⟩
      exact ⟨rfl, rfl⟩
    · rintro ⟨rfl, rfl⟩
      exact ⟨⟨rfl, rfl⟩, rfl⟩

/-- Selecting names makes no nodes. -/
theorem ends_selectLabels {pattern? : Option String} {names : List Json} {ls : List Label}
    (h : (selectLabels pattern? names).Ends supply ls supply') : supply'.nodes = supply.nodes := by
  unfold selectLabels at h
  split at h
  · rw [(ends_pure.mp h).2]
  · rw [(ends_pure.mp h).2]
  · simp only [ends_bind, ends_lift] at h
    obtain ⟨p, _, ⟨-, rfl⟩, selected, τ, hselected, h⟩ := h
    -- the selection asks the pattern only, and draws nothing
    have hτ : supply = τ := by
      clear h
      induction names generalizing selected with
      | nil => exact (ends_pure.mp hselected).2
      | cons name names ih =>
        simp only [List.filterMapM_cons, ends_bind, ends_lift, ends_pure] at hselected
        obtain ⟨r, _, ⟨_, _, ⟨-, rfl⟩, -, rfl⟩, hselected⟩ := hselected
        cases r with
        | none => exact ih _ hselected
        | some l =>
          obtain ⟨ls, σ, hls, hselected⟩ := ends_bind.mp hselected
          obtain ⟨-, rfl⟩ := ends_pure.mp hselected
          exact ih _ hls
    subst hτ
    split at h
    · simp only [warnAll, ends_bind, ends_modify, ends_pure] at h
      obtain ⟨_, _, rfl, -, rfl⟩ := h
      rfl
    · rw [(ends_pure.mp h).2]

end Setup

/-- An environment made for a side is ready for its program. -/
theorem Options.ends_environment {supply supply' : Supply}
    (h : (o.environment d p hooks).Ends supply e supply') :
    e.Ready p.arch hooks false ∧ supply'.nodes = supply.nodes := by
  simp only [environment, ends_bind, ends_lift] at h
  obtain ⟨_, _, hselect, he, rfl⟩ := h
  exact ⟨Environment.ready_of_seeded he rfl rfl, Setup.ends_selectLabels hselect⟩

/-- What an environment has from the options and the program for which it was made. -/
structure Options.Configures (o : Options) (p : Program) (d : Defaults) (e : Environment) :
    Prop where
  logic : e.logic = d.logic
  subs : e.subs = p.subs
  useInputs : e.useInputs = o.useInputs
  unroll : e.unroll = .int (o.unroll.getD d.unroll)

theorem Options.Configures.grows (h : o.Configures p d e) (hg : e.Grows e') :
    o.Configures p d e' :=
  ⟨hg.logic.trans h.logic, hg.subs.trans h.subs, hg.useInputs.trans h.useInputs,
    hg.unroll.trans h.unroll⟩

theorem Options.configures_environment {supply supply' : Supply}
    (h : (o.environment d p hooks).Ends supply e supply') :
    e.Labelled ∧ o.Configures p d e := by
  simp only [environment, ends_bind, ends_lift] at h
  obtain ⟨_, _, -, he, rfl⟩ := h
  refine ⟨Environment.labelled_of_seeded he rfl, .grows ?_ (Environment.seeded_ok he).1⟩
  exact ⟨rfl, rfl, rfl, rfl⟩

theorem Options.Configures.freshen (h : o.Configures p d e) (he : e.freshen = .ok e') :
    e'.Labelled ∧ o.Configures p d e' := by
  obtain ⟨hg, -⟩ := Environment.seeded_ok he
  exact ⟨Environment.labelled_of_seeded he rfl, hg.logic.trans h.logic, hg.subs.trans h.subs,
    hg.useInputs.trans h.useInputs, hg.unroll.trans h.unroll⟩

end Antecedent
