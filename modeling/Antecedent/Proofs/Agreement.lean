import Antecedent.Proofs.Composition

/-!
# What a comparison of two programs proves

The comparison of two programs assumes of every load of the first one that it reads what the memory
of the second one holds on entry.  A run that breaks this assumption is excused, and nothing is
proved about it.

* `Question.Shared` and `Question.Agree` say that both programs start in one state, and leave in
  states that agree.
* `comparative_holds_iff` is the result.
-/

namespace Antecedent

variable {o : Ending} {sub : Sub} {vs : List Var} {v : Var}

/-! ## §1 Runs without conditions on accesses -/

/-- The environment without conditions on accesses. -/
def Environment.unhooked (e : Environment) : Environment :=
  { e with hooks := [] }

section Unhooked

variable {e : Environment} {s s' : State}

/-- A definition that objects to nothing does the same without conditions. -/
theorem Def.run_unhooked {d : Def} (h : Def.run e s d = .ok s') :
    Def.run e.unhooked s d = .ok s' := by
  unfold Def.run at h ⊢
  split at h
  · cases h
  · rw [Environment.objection?_eq_none rfl]
    exact h

/-- Definitions that object to nothing do the same without conditions. -/
theorem Def.foldlM_run_unhooked {ds : List Def} (h : ds.foldlM (Def.run e) s = .ok s') :
    ds.foldlM (Def.run e.unhooked) s = .ok s' := by
  induction ds generalizing s with
  | nil => exact h
  | cons d ds ih =>
    rw [List.foldlM_cons, bind_eq_ok] at h ⊢
    obtain ⟨s2, hd, hds⟩ := h
    exact ⟨s2, Def.run_unhooked hd, ih hds⟩

/-- A jump that objects to nothing is chosen without conditions. -/
theorem Jmp.choose_unhooked {js : List Jmp} {j : Option Jmp} (h : Jmp.choose e s js = .ok j) :
    Jmp.choose e.unhooked s js = .ok j := by
  induction js with
  | nil => exact h
  | cons j' js ih =>
    unfold Jmp.choose at h ⊢
    split at h
    · cases h
    · rw [Environment.objection?_eq_none rfl]
      split at h
      · next htaken => exact (if_pos htaken).trans h
      · next htaken => exact (if_neg htaken).trans (ih h)

/-- A block that objects to nothing does the same without conditions. -/
theorem Blk.run_unhooked {b : Blk} {r : State × Option Jmp} (h : b.run e s = .ok r) :
    b.run e.unhooked s = .ok r := by
  simp only [Blk.run, bind_eq_ok, pure_eq_ok] at h ⊢
  obtain ⟨s1, hdefs, j, hj, rfl⟩ := h
  exact ⟨s1, Def.foldlM_run_unhooked hdefs, j, Jmp.choose_unhooked hj, rfl⟩

/-- A run that does not end at an access does the same without conditions. -/
theorem Flow.Runs.unhooked {f : Flow} {k : Key} (h : f.Runs e k s o)
    (ho : ∀ s' touches, e.objection? s' touches ≠ some o) : f.Runs e.unhooked k s o := by
  induction h with
  | cut hcut => exact .cut hcut
  | stop _ _ hrun =>
    obtain ⟨s', touches, hstop⟩ := Blk.objection_of_run hrun
    exact absurd hstop (ho s' touches)
  | leave hcut hnode hrun hafter => exact .leave hcut hnode (Blk.run_unhooked hrun) hafter
  | go hcut hnode hrun hafter _ ih => exact .go hcut hnode (Blk.run_unhooked hrun) hafter (ih ho)

/-- A run of a subroutine that does not end at an access does the same without conditions. -/
theorem Sub.Runs.unhooked_of_ne (h : sub.Runs e s o)
    (ho : ∀ s' touches, e.objection? s' touches ≠ some o) : sub.Runs e.unhooked s o := by
  unfold Sub.Runs at h ⊢
  split
  · next hempty => rwa [if_pos hempty] at h
  · next hempty =>
    rw [if_neg hempty] at h
    obtain ⟨f, n, rest, hf, hcons, hruns⟩ := h
    exact ⟨f, n, rest, hf, hcons, hruns.unhooked ho⟩

/-- A run of a subroutine that leaves does the same without conditions. -/
theorem Sub.Runs.unhooked (h : sub.Runs e s (.exit s')) : sub.Runs e.unhooked s (.exit s') :=
  h.unhooked_of_ne fun _ _ => Environment.objection?_ne_exit

/-- With assumptions only, a run leaves, is cut, or is excused. -/
theorem Sub.Runs.exit_cut_or_excused
    (he : ∀ hook ∈ e.hooks, ∃ memory map, hook = .sameAs memory map) (h : sub.Runs e s o) :
    (∃ s', o = .exit s') ∨ o = .cut ∨ o = .excused := by
  rcases h.ends with hexit | ⟨rfl, -⟩ | ⟨s', touches, hstop⟩
  · exact .inl hexit
  · exact .inr (.inl rfl)
  · rcases Environment.objection?_cases hstop with rfl | ⟨-, hverify⟩
    · exact .inr (.inr rfl)
    · obtain ⟨t, -, hook, hhook, hverdict⟩ : ∃ t ∈ touches, ∃ hook ∈ e.hooks,
          Hook.verdict (e.look s' e.memVar) s' t hook = some (.verify, false) := by
        simpa [Environment.verdicts] using hverify
      obtain ⟨memory, map, rfl⟩ := he hook hhook
      simp [Hook.verdict] at hverdict

end Unhooked

/-! ## §2 Two environments -/

namespace Setup

variable {α : Type} {supply supply' : Supply}

theorem ends_buildBoth {e1 e2 : Environment} {act : Compare α} {r : α × Environment × Environment} :
    (buildBoth e1 e2 act).Ends supply r supply' ↔
      act.Ends ⟨supply, e1, e2⟩ r.1 ⟨supply', r.2.1, r.2.2⟩ := by
  have h : Id.run ((buildBoth e1 e2 act).run.run supply) =
      ((Id.run (act.run.run ⟨supply, e1, e2⟩)).1.map fun a =>
        (a, (Id.run (act.run.run ⟨supply, e1, e2⟩)).2.first,
          (Id.run (act.run.run ⟨supply, e1, e2⟩)).2.second),
        (Id.run (act.run.run ⟨supply, e1, e2⟩)).2.supply) := rfl
  simp only [ExceptT.Ends, h]
  rcases Id.run (act.run.run ⟨supply, e1, e2⟩) with ⟨r', t⟩
  obtain ⟨a, e1', e2'⟩ := r
  cases r' with
  | error f => simp [Except.map]
  | ok a' =>
    simp only [Except.map, Prod.mk.injEq, Except.ok.injEq]
    constructor
    · rintro ⟨⟨rfl, rfl, rfl⟩, rfl⟩
      exact ⟨rfl, rfl⟩
    · rintro ⟨rfl, rfl⟩
      exact ⟨⟨rfl, rfl, rfl⟩, rfl⟩

end Setup

/-! ## §3 Comparators of the options -/

/-- The registers that are compared on exit: those of the options and the stack pointer. -/
def Options.compared (o : Options) (arch : Arch) : List String :=
  o.compareRegisters ++ arch.stackPointer.toList

section Comparators

variable {o : Options} {first second : Sub} {t t' : Twin}

theorem ends_eitherVars (h : (eitherVars first second).Ends t vs t') :
    t' = t ∧ ∃ us1 us2, t.first.relevantVars first = .ok us1 ∧
      t.second.relevantVars second = .ok us2 ∧ Var.distinct (us1 ++ us2) = .ok vs := by
  simp only [eitherVars, ends_bind, ends_get, ends_lift] at h
  obtain ⟨_, _, ⟨rfl, rfl⟩, us1, _, ⟨hus1, rfl⟩, us2, _, ⟨hus2, rfl⟩, hvs, rfl⟩ := h
  exact ⟨rfl, us1, us2, hus1, hus2, hvs⟩

theorem ends_registerComparator {pre : List Var} {post : List String} {cmp : Comparator}
    (h : (registerComparator pre post).Ends t cmp t') :
    t' = t ∧ ∃ vs, cmp = .registers pre vs ∧
      ∀ v, v ∈ vs ↔ ∃ r ∈ post, t.first.regVar r = .ok v := by
  simp only [registerComparator, ends_bind, ends_get, ends_pure] at h
  obtain ⟨_, _, ⟨rfl, rfl⟩, vs, τ, hvs, rfl, rfl⟩ := h
  suffices hall : τ = t ∧ ∀ v, v ∈ vs ↔ ∃ r ∈ post, t.first.regVar r = .ok v from
    ⟨hall.1, vs, rfl, hall.2⟩
  generalize t.first = e at hvs ⊢
  induction post generalizing vs with
  | nil =>
    obtain ⟨rfl, rfl⟩ := ends_mapM_nil.mp hvs
    simp
  | cons r post ih =>
    simp only [ends_mapM_cons, ends_lift] at hvs
    obtain ⟨u, _, ⟨hu, rfl⟩, vs, hvs, rfl⟩ := hvs
    obtain ⟨rfl, hall⟩ := ih _ hvs
    refine ⟨rfl, fun v => ?_⟩
    rw [List.mem_cons, hall, List.exists_mem_cons_iff, hu, Except.ok.injEq, eq_comm]

theorem Var.exists_distinct (h : ∀ v ∈ vs, v.isMember = true) : ∃ us, Var.distinct vs = .ok us := by
  rw [Var.distinct, if_pos (List.all_eq_true.mpr h)]
  exact ⟨_, rfl⟩

/-- Variables with texts for names have an order. -/
theorem Var.exists_sortByName (h : ∀ v ∈ vs, ∃ base, v.name = .str base) :
    ∃ us, Var.sortByName vs = .ok us := by
  refine Label.sortBy_ok fun x hx y hy => ?_
  obtain ⟨r, hr⟩ := h x hx
  obtain ⟨r', hr'⟩ := h y hy
  rw [hr, hr']
  exact ⟨_, rfl⟩

/-- Variables that can be members of a set and have texts for names are arranged without loss. -/
theorem Var.covers_arranged (hmembers : ∀ v ∈ vs, v.isMember = true)
    (hnames : ∀ v ∈ vs, ∃ base, v.name = .str base) : Var.Covers (Var.arranged vs) vs := by
  obtain ⟨us, hus⟩ := Var.exists_distinct hmembers
  have hcovers := Var.covers_distinct hus
  obtain ⟨ws, hws⟩ := Var.exists_sortByName fun v hv => hnames v (hcovers.sub v hv)
  have harranged : Var.arranged vs = ws := by
    have hboth : (do Var.sortByName (← Var.distinct vs)) = .ok ws := bind_eq_ok.mpr ⟨us, hus, hws⟩
    rw [Var.arranged, hboth]
  rw [harranged]
  exact hcovers.sortByName hws

/-- Registers are arranged without loss. -/
theorem Var.mem_arranged_registers {e : Environment} (hvs : ∀ v ∈ vs, ∃ r, e.regVar r = .ok v) :
    v ∈ Var.arranged vs ↔ v ∈ vs := by
  refine ⟨Var.mem_of_mem_arranged, fun hv => ?_⟩
  have hform : ∀ v ∈ vs, ∃ r w, v = { name := .str r, width := .int w } ∧ e.regVar r = .ok v := by
    intro v hv
    obtain ⟨r, hr⟩ := hvs v hv
    obtain ⟨w, -, hw⟩ := bind_eq_ok.mp hr
    exact ⟨r, w, (pure_eq_ok.mp hw).symm, hr⟩
  have hcovers : Var.Covers (Var.arranged vs) vs := by
    refine Var.covers_arranged ?_ ?_ <;> intro v hv <;> obtain ⟨r, w, rfl, -⟩ := hform v hv
    · rfl
    · exact ⟨r, rfl⟩
  -- a register that is alike is the register itself
  obtain ⟨u, hu, rfl | halike⟩ := hcovers.all v hv
  · exact hu
  · obtain ⟨r, w, rfl, hr⟩ := hform v hv
    obtain ⟨r', w', rfl, hr'⟩ := hform u (hcovers.sub u hu)
    simp only [Var.alike, Var.row, Json.alike, Json.alikeItems, Bool.and_eq_true] at halike
    obtain rfl : r = r' := by simpa [Json.label?, Label.same] using halike.1
    cases hr.symm.trans hr'
    exact hu

theorem ends_ofStackPointer {arch : Arch} {cmp : Option Comparator}
    (h : (Comparator.ofStackPointer arch).Ends t cmp t') (harch : t.first.arch = arch) :
    t'.first = t.first ∧ t'.second = t.second ∧ t'.supply.nodes = t.supply.nodes ∧
      (arch.stackPointer = none ∧ cmp = none ∨
        ∃ r v, arch.stackPointer = some r ∧ t.first.regVar r = .ok v ∧
          cmp = some (.stackPointer v)) := by
  unfold Comparator.ofStackPointer at h
  split at h
  · next r hr =>
    simp only [ends_bind, ends_lift, ends_pure] at h
    obtain ⟨w, _, ⟨hw, rfl⟩, rfl, rfl⟩ := h
    refine ⟨rfl, rfl, rfl, .inr ⟨r, _, hr, ?_, rfl⟩⟩
    rw [Environment.regVar, harch, hw]
    rfl
  · next hnone =>
    simp only [Build.warn, ends_bind, ends_onFirst, ends_modify, ends_pure] at h
    obtain ⟨_, _, ⟨_, rfl, rfl⟩, rfl, rfl⟩ := h
    exact ⟨rfl, rfl, rfl, .inl ⟨hnone, rfl⟩⟩

/-- The comparators of the options, if only registers are compared: that of the registers, if any
are given, and that of the stack pointer, if there is one. -/
theorem Options.comparators_cases {cs : List Comparator}
    (h : (o.comparators first second).Ends t cs t') (hcalls : o.compareCalls = false)
    (hpre : o.precond = "") (hpost : o.postcond = "") :
    ∃ (regs : List Comparator) (sp : Option Comparator),
      (o.compareRegisters = [] ∧ regs = [] ∨ ∃ pre vs us1 us2, regs = [.registers pre vs] ∧
        t.first.relevantVars first = .ok us1 ∧ t.second.relevantVars second = .ok us2 ∧
        Var.distinct (us1 ++ us2) = .ok pre ∧
        ∀ v, v ∈ vs ↔ ∃ r ∈ o.compareRegisters, t.first.regVar r = .ok v) ∧
      (Comparator.ofStackPointer t.first.arch).Ends t sp t' ∧
      (if (regs ++ sp.toList).isEmpty = true then [.nothing] else regs ++ sp.toList) = cs := by
  have hempty : "".isEmpty = true := rfl
  simp only [comparators, hcalls, hpre, hpost, hempty, Bool.false_eq_true, if_false, Bool.and_self,
    if_true, List.nil_append, List.append_nil] at h
  split at h
  · next hnone =>
    simp only [ends_bind, ends_get, ends_pure] at h
    obtain ⟨_, _, ⟨rfl, rfl⟩, _, _, ⟨rfl, rfl⟩, sp, _, hsp, rfl, rfl⟩ := h
    exact ⟨[], sp, .inl ⟨List.isEmpty_iff.mp hnone, rfl⟩, hsp, rfl⟩
  · simp only [ends_bind, ends_lift, ends_get, ends_pure] at h
    obtain ⟨pre, _, hpre, cmp, _, hcmp, _, _, ⟨-, rfl⟩, _, _, ⟨rfl, rfl⟩, _, _, ⟨rfl, rfl⟩, sp,
      _, hsp, rfl, rfl⟩ := h
    obtain ⟨rfl, us1, us2, hus1, hus2, hdistinct⟩ := ends_eitherVars hpre
    obtain ⟨rfl, vs, rfl, hvs⟩ := ends_registerComparator hcmp
    exact ⟨_, sp, .inr ⟨pre, vs, us1, us2, rfl, hus1, hus2, hdistinct, hvs⟩, hsp, rfl⟩

theorem Options.forall_comparators {regs : List Comparator} {sp : Option Comparator}
    {P : Comparator → Prop} (hP : P .nothing) :
    (∀ cmp ∈ (if (regs ++ sp.toList).isEmpty = true then [.nothing] else regs ++ sp.toList),
        P cmp) ↔
      (∀ cmp ∈ regs, P cmp) ∧ ∀ cmp ∈ sp.toList, P cmp := by
  rw [← List.forall_mem_append]
  split
  · next hnone => simp [List.isEmpty_iff.mp hnone, hP]
  · exact Iff.rfl

/-- **The comparators of the options**, if only registers are compared: they take for granted that
both sides start in one state, and ask for agreement on the compared registers. -/
theorem Options.ends_comparators {cs : List Comparator}
    (h : (o.comparators first second).Ends t cs t') (hcalls : o.compareCalls = false)
    (hpre : o.precond = "") (hpost : o.postcond = "") :
    (t'.first = t.first ∧ t'.second = t.second ∧ t'.supply.nodes = t.supply.nodes) ∧
      (∀ cmp ∈ cs, cmp.IsPlain) ∧
      (∀ e1 e2 s, e1.SpInRange s →
        (∀ v, t.first.Matters first v ∨ t.second.Matters second v → v.SameIn e1 e2 s) →
        (∀ r v, t.first.arch.stackPointer = some r → t.first.regVar r = .ok v →
          v.SameIn e1 e2 s) → ∀ cmp ∈ cs, cmp.Assumes e1 e2 s) ∧
      ∀ e1 e2 s, (∀ cmp ∈ cs, cmp.Demands e1 e2 s) ↔
        ∀ r ∈ o.compared t.first.arch, ∀ v, t.first.regVar r = .ok v → v.SameIn e1 e2 s := by
  obtain ⟨regs, sp, hregs, hsp, rfl⟩ := comparators_cases h hcalls hpre hpost
  obtain ⟨h1, h2, hnodes, hsp⟩ := ends_ofStackPointer hsp rfl
  refine ⟨⟨h1, h2, hnodes⟩, (forall_comparators True.intro).mpr ⟨?_, ?_⟩,
    fun e1 e2 s hrange hsame hsame' => (forall_comparators True.intro).mpr ⟨?_, ?_⟩,
    fun e1 e2 s => ?_⟩
  · rcases hregs with ⟨-, rfl⟩ | ⟨pre, vs, us1, us2, rfl, -⟩ <;> simp [Comparator.IsPlain]
  · rcases hsp with ⟨-, rfl⟩ | ⟨r, v, -, -, rfl⟩ <;> simp [Comparator.IsPlain]
  · rcases hregs with ⟨-, rfl⟩ | ⟨pre, vs, us1, us2, rfl, hus1, hus2, hdistinct, -⟩
    · simp
    -- the registers compared on entry are variables that matter to one of the programs
    · rw [List.forall_mem_singleton]
      intro v hv
      refine hsame v ?_
      have hmem := (Var.covers_distinct hdistinct).sub v (Var.mem_of_mem_arranged hv)
      rcases List.mem_append.mp hmem with hv | hv
      · exact .inl ⟨us1, hus1, hv⟩
      · exact .inr ⟨us2, hus2, hv⟩
  · rcases hsp with ⟨-, rfl⟩ | ⟨r, v, hr, hv, rfl⟩
    · simp
    · rw [Option.toList_some, List.forall_mem_singleton]
      exact ⟨hsame' r v hr hv, hrange⟩
  · rw [forall_comparators True.intro, compared, List.forall_mem_append]
    refine and_congr ?_ ?_
    · rcases hregs with ⟨hR, rfl⟩ | ⟨pre, vs, us1, us2, rfl, -, -, -, hvs⟩
      · simp [hR]
      · rw [List.forall_mem_singleton]
        constructor
        · intro h r hr v hv
          -- registers are told apart by their names, so arranging them loses none
          have hregs : ∀ v ∈ vs, ∃ r, t.first.regVar r = .ok v :=
            fun v hv => ((hvs v).mp hv).imp fun _ => And.right
          exact h v ((Var.mem_arranged_registers hregs).mpr ((hvs v).mpr ⟨r, hr, hv⟩))
        · intro h v hv
          obtain ⟨r, hr, hv⟩ := (hvs v).mp (Var.mem_of_mem_arranged hv)
          exact h r hr v hv
    · rcases hsp with ⟨hnone, rfl⟩ | ⟨r, v, hr, hv, rfl⟩
      · simp [hnone]
      · rw [hr, Option.toList_some, Option.toList_some, List.forall_mem_singleton,
          List.forall_mem_singleton]
        constructor
        · intro h v' hv'
          cases hv.symm.trans hv'
          exact h
        · exact fun h => h v hv

end Comparators

/-! ## §4 The comparison of two programs -/

/-- Both programs start in one state: the variables that matter hold the same values on both sides,
the stack pointer lies in the stack, and the names of entry values hold the values. -/
structure Question.Shared (q : Question) (f1 f2 : Sub) (s : State) : Prop where
  same : ∀ v, q.first.Matters f1 v ∨ q.second.Matters f2 v → v.SameIn q.first q.second s
  stack : ∀ r v, q.first.arch.stackPointer = some r → q.first.regVar r = .ok v →
    v.SameIn q.first q.second s
  range : q.first.SpInRange s
  enteredFirst : ∀ v, q.first.Matters f1 v → v.Entered q.first s
  enteredSecond : ∀ v, q.second.Matters f2 v → v.Entered q.second s

/-- The states in which both programs leave agree on some registers. -/
def Question.Agree (q : Question) (rs : List String) (s1 s2 : State) : Prop :=
  ∀ r ∈ rs, ∀ v, q.first.regVar r = .ok v → (q.first.look s1 v).same (q.second.look s2 v) = true

section Comparative

variable {o : Options} {d : Defaults} {p1 p2 : Program} {f1 f2 : Sub} {supply supply' : Supply}
  {q : Question}

/-- The conditions on the accesses of the first program are assumptions that compare with a memory
of the second one. -/
theorem Options.ends_firstHooks {e : Environment} {hooks : List Hook} {l : Label}
    (h : (o.firstHooks p1 p2 (e.findVar? l)).Ends supply hooks supply')
    (hoffset : o.memoryOffset = false) (hnull : o.checkNull = false) (hs : e.Sound) :
    supply' = supply ∧ (∀ hook ∈ hooks, ∃ memory map, hook = .sameAs memory map) ∧
      ∀ hook ∈ hooks, hook.Fit := by
  simp only [firstHooks, assumedHooks, hoffset, hnull, Bool.false_eq_true, if_false, ends_bind,
    ends_pure, List.nil_append] at h
  obtain ⟨_, _, ⟨rfl, rfl⟩, rfl, rfl⟩ := h
  have hall : ∀ hook ∈ ((e.findVar? l).map fun m => Hook.sameAs m []).toList,
      ∃ m, e.findVar? l = some m ∧ hook = .sameAs m [] := by
    intro hook hhook
    obtain ⟨m, hm, rfl⟩ := Option.map_eq_some_iff.mp (Option.mem_toList.mp hhook)
    exact ⟨m, hm, rfl⟩
  refine ⟨rfl, fun hook hhook => ?_, fun hook hhook => ?_⟩
  · obtain ⟨m, -, rfl⟩ := hall hook hhook
    exact ⟨m, [], rfl⟩
  · obtain ⟨m, hm, rfl⟩ := hall hook hhook
    obtain ⟨p, hp, rfl⟩ := Option.map_eq_some_iff.mp hm
    have hmem : p.2 ∈ e.constants :=
      List.mem_append_left _ (List.mem_map_of_mem (List.mem_of_find?_eq_some hp))
    obtain ⟨name, srt, heq, hne, -⟩ := hs _ hmem
    exact ⟨name, srt, heq, hne⟩

/-- What the question of a comparison consists of: the hypotheses on entry and what the comparators
take for granted imply the precondition of the first subroutine for the precondition of the second
one for what the comparators ask for. -/
structure Question.Compared (q : Question) (f1 f2 : Sub) (cs : List Comparator)
    (post inner outer : Constraint) : Prop where
  assumed : ∀ hook ∈ q.first.hooks, ∃ memory map, hook = .sameAs memory map
  labelsFirst : q.first.Labels f1
  labelsSecond : q.second.Labels f2
  listed : ∃ ν n, q.condition.Listed ν n
  sortedPost : post.Sorted
  sorted : q.condition.Sorted ↔ outer.Sorted
  first : f1.Meets q.first inner outer
  second : f2.Meets q.second post inner
  post : ∀ b s, post.Holds b s ↔ ∀ cmp ∈ cs, cmp.Demands q.first q.second s
  condition : ∀ b s, q.condition.Holds b s ↔
    ((∀ v, q.first.Matters f1 v → v.Entered q.first s) →
      (∀ v, q.second.Matters f2 v → v.Entered q.second s) →
      (∀ cmp ∈ cs, cmp.Assumes q.first q.second s) → outer.Holds b s)

/-- **The comparison of two programs asks this question**, in environments that both sides have
grown into. -/
theorem Options.ends_comparison (h : (o.comparative d p1 p2 f1 f2).Ends supply q supply')
    (hoffset : o.memoryOffset = false) (hnull : o.checkNull = false)
    (hcompare : o.compareCalls = false) (hpre : o.precond = "") (hpost : o.postcond = "")
    (hcalls1 : f1.CallFree) (hcalls2 : f2.CallFree) (hknown1 : f1.IsKnown)
    (hknown2 : f2.IsKnown) :
    ∃ hooks t t' cs, (o.comparators f1 f2).Ends t cs t' ∧ t.first.Grows q.first ∧
      t.second.Grows q.second ∧ q.first.Ready p1.arch hooks false ∧
      q.second.Ready p2.arch [] true ∧ o.Configures p1 d q.first ∧
      o.Configures p2 d q.second ∧
      ∃ post inner outer, q.Compared f1 f2 cs post inner outer := by
  simp only [comparative, verifiedHooks, hnull, ends_bind, ends_lift, ends_pure, Setup.ends_build,
    Setup.ends_buildBoth, Bool.false_eq_true, if_false] at h
  obtain ⟨e, σ1, he, e2, _, ⟨he2, rfl⟩, ⟨inits2, e2'⟩, σ2, hinits2, hooks, _, hhooks, e1, σ3, he1,
    ⟨inits1, e1'⟩, σ4, hinits1, ⟨c', e1'', e2''⟩, _, ⟨cs, ⟨τ, t1, t2⟩, hcs, c, t', hc, hc'⟩, rfl,
    rfl⟩ := h
  dsimp only at hinits2 hhooks hinits1 hcs hc' ⊢
  -- the side of the second program
  obtain ⟨hready, -⟩ := ends_environment he
  obtain ⟨-, hconf⟩ := configures_environment he
  have hready2 := Environment.ready_freshen he2
  obtain ⟨hlabelled2, hconf2⟩ := hconf.freshen he2
  rw [hready.arch, hready.hooks] at hready2
  obtain ⟨ν2, hb2, hl2, hsort2, hentered2⟩ := Build.ends_entryHypotheses (ν := default) hinits2
  have hlabels2 := Build.labels_entryHypotheses hinits2 hlabelled2
  have hready2 := hready2.grows hb2.step.env (hb2.step.sound hready2.sound)
  -- the side of the first program
  obtain ⟨rfl, hassume, hfit⟩ := ends_firstHooks hhooks hoffset hnull hready2.sound
  obtain ⟨hready1, hnodes3⟩ := ends_environment he1
  obtain ⟨hlabelled1, hconf1⟩ := configures_environment he1
  obtain ⟨ν1, hb1, hl1, hsort1, hentered1⟩ := Build.ends_entryHypotheses (ν := ν2) hinits1
  have hlabels1 := Build.labels_entryHypotheses hinits1 hlabelled1
  have hready1 := hready1.grows hb1.step.env (hb1.step.sound hready1.sound)
  -- the comparison of both
  obtain ⟨⟨ht1, ht2, hnodes⟩, hplain, -⟩ := ends_comparators hcs hcompare hpre hpost
  dsimp only at ht1 ht2 hnodes
  subst ht1 ht2
  obtain ⟨ps, hs, hcomp⟩ := ends_compareSubs.mp hc
  obtain ⟨hlater, hgrows1, -, hgrows2, ν, i, j, inner, outer, rfl, hlists, hl, -, -, hmeets⟩ :=
    hcomp.meets (ν := ν1)
      (Compare.Means.yield fun cmp hcmp => Comparator.means_postcondition (hplain cmp hcmp))
      (Compare.Means.yield fun cmp hcmp => Comparator.means_hypothesis (hplain cmp hcmp))
      hready1.sound hready2.sound (hready1.hooks ▸ hfit) (hready2.hooks ▸ by simp) hcalls1 hcalls2
      hknown1 hknown2
  have hgrows2 := hgrows2 hready2.freshened
  -- the condition is a clause with the hypotheses on entry
  have hinits : ∀ c ∈ inits1 ++ inits2, t'.Lists ν c := by
    intro c hc
    refine hlists c ?_
    rw [Twin.Lists, hnodes]
    rcases List.mem_append.mp hc with hc | hc
    · exact hl1 c hc
    · refine hb1.lists ?_
      rw [Session.Lists, hnodes3]
      exact hl2 c hc
  rw [ends_onFirst] at hc'
  obtain ⟨σ, hc', heq⟩ := hc'
  obtain ⟨k, ν', rfl, hb, hl'⟩ := Build.ends_clause (ν := ν) hc' hinits
    (List.forall_mem_singleton.mpr hl)
  cases heq
  have hlater : t'.Later σ.env t'.second :=
    ⟨hb.step.env, .refl _, hb.step.sound hlater.soundFirst, hlater.soundSecond⟩
  have hgrows1 := hgrows1.trans hb.step.env
  have hready1 := hready1.grows hgrows1 hlater.soundFirst
  obtain ⟨⟨hsortp, hps⟩, ⟨hsorth, hhs⟩, hmeets1, hmeets2⟩ := hmeets _ _ hlater
  refine ⟨hooks, _, _, cs, hcs, hgrows1, hgrows2, hready1,
    hready2.grows hgrows2 hlater.soundSecond, hconf1.grows (hb1.step.env.trans hgrows1),
    hconf2.grows (hb2.step.env.trans hgrows2), .clause j [] ps, inner, outer,
    ⟨hready1.hooks.symm ▸ hassume, hlabels1.grows hgrows1, hlabels2.grows hgrows2, ⟨ν', _, hl'⟩,
      by simpa using hsortp, ?_, hmeets1, hmeets2, fun b s => ?_, fun b s => ?_⟩⟩
  · simp only [Constraint.sorted_clause, List.forall_mem_singleton, List.forall_mem_append]
    exact ⟨fun h => h.2.2, fun h => ⟨⟨hsort1, hsort2⟩, hsorth, h⟩⟩
  · rw [Constraint.holds_clause]
    simp only [List.not_mem_nil, false_imp_iff, implies_true, true_imp_iff]
    exact hps b s
  · have hinits : (∀ c ∈ inits1 ++ inits2, c.Holds b s) ↔
        (∀ v, σ.env.Matters f1 v → v.Entered σ.env s) ∧
          ∀ v, t'.second.Matters f2 v → v.Entered t'.second s := by
      rw [List.forall_mem_append, hentered1 _ hgrows1 hlater.soundFirst b s,
        hentered2 _ hgrows2 hlater.soundSecond b s]
    simp only [Constraint.holds_clause, List.forall_mem_singleton]
    rw [hinits, hhs b s, and_imp]

/-- The condition that compares two programs is, in shared states, the precondition of the first
subroutine for the precondition of the second one for agreement on exit. -/
theorem Options.ends_comparative (h : (o.comparative d p1 p2 f1 f2).Ends supply q supply')
    (hoffset : o.memoryOffset = false) (hnull : o.checkNull = false)
    (hcompare : o.compareCalls = false) (hpre : o.precond = "") (hpost : o.postcond = "")
    (hcalls1 : f1.CallFree) (hcalls2 : f2.CallFree) (hknown1 : f1.IsKnown)
    (hknown2 : f2.IsKnown) :
    ∃ hooks, (∀ hook ∈ hooks, ∃ memory map, hook = .sameAs memory map) ∧
      q.first.Ready p1.arch hooks false ∧ q.second.Ready p2.arch [] true ∧
      (∃ ν n, q.condition.Listed ν n) ∧ ∃ post inner outer,
        (q.condition.Sorted → outer.Sorted) ∧ f1.Meets q.first inner outer ∧
        f2.Meets q.second post inner ∧
        (∀ b s, post.Holds b s ↔ ∀ r ∈ o.compared q.first.arch, ∀ v, q.first.regVar r = .ok v →
          v.SameIn q.first q.second s) ∧
        ∀ b s, q.Shared f1 f2 s → (q.condition.Holds b s ↔ outer.Holds b s) := by
  obtain ⟨hooks, t, t', cs, hcs, hgrows1, hgrows2, hready1, hready2, -, -, post, inner, outer,
    hq⟩ :=
    ends_comparison h hoffset hnull hcompare hpre hpost hcalls1 hcalls2 hknown1 hknown2
  obtain ⟨-, -, hassumes, hdemands⟩ := ends_comparators hcs hcompare hpre hpost
  refine ⟨hooks, hready1.hooks ▸ hq.assumed, hready1, hready2, hq.listed, post, inner, outer,
    hq.sorted.mp, hq.first, hq.second, fun b s => ?_, fun b s hshared => ?_⟩
  · rw [hq.post, hdemands, hgrows1.arch]
    simp only [hgrows1.regVar]
  · have hgiven : ∀ cmp ∈ cs, cmp.Assumes q.first q.second s := by
      refine hassumes _ _ s hshared.range (fun v hv => hshared.same v ?_)
        fun r v hr hv => hshared.stack r v (hgrows1.arch ▸ hr) (by rw [hgrows1.regVar]; exact hv)
      exact hv.imp hgrows1.matters.mpr hgrows2.matters.mpr
    rw [hq.condition]
    exact ⟨fun h => h hshared.enteredFirst hshared.enteredSecond hgiven, fun h _ _ _ => h⟩

theorem Question.sameIn_pair {hooks : List Hook} {arch : Arch} {r : String}
    (h1 : q.first.Ready arch hooks false) (h2 : q.second.Ready arch [] true)
    (hdisjoint : ∀ x ∈ q.first.symbols, x ∉ q.second.symbols) (hv : q.first.regVar r = .ok v)
    (s1 s2 : State) : v.SameIn q.first q.second (s1.patch q.second.symbols s2) ↔
      (q.first.look s1 v).same (q.second.look s2 v) = true := by
  have hv' : q.second.regVar r = .ok v := by
    rw [Environment.regVar, h2.arch, ← h1.arch]
    exact hv
  obtain ⟨x1, hx1⟩ := h1.registers r v hv
  obtain ⟨x2, hx2⟩ := h2.registers r v hv'
  obtain ⟨n1, srt1, rfl, howns1⟩ := hx1.const h1.sound
  obtain ⟨n2, srt2, rfl, howns2⟩ := hx2.const h2.sound
  rw [Var.SameIn, hx1.look_eq, hx2.look_eq, hx1.look_eq, hx2.look_eq, Term.eval_const,
    Term.eval_const, State.const_patch_not_mem (hdisjoint _ (h1.sound.owns_symbol howns1)),
    State.const_patch_mem (h2.sound.owns_symbol howns2), Term.eval_const, Term.eval_const]

end Comparative

/-! ## §5 A byte read back -/

/-- A target with one register next to the stack pointer. -/
def byteArch : Arch where
  name := "byte"
  addressWidth := 8
  registers := [("a", 8), ("sp", 64)]
  stackPointer := some "sp"

def byteReg : Var where
  name := .str "a"
  width := .int 8

def byteMem : Var where
  name := .str "mem"
  isMem := .bool true

def byteSp : Var where
  name := .str "sp"
  width := .int 64

def writeByte : Def where
  tid := .str "write"
  lhs := byteMem
  rhs := .store (.var byteMem) (.int 0 (.int 8)) (.int 1 (.int 8)) (.int 8) (.str "little")

def readByte : Def where
  tid := .str "read"
  lhs := byteReg
  rhs := .load (.var byteMem) (.int 0 (.int 8)) (.int 8) (.str "little")

def byteProgram (sub : Sub) : Program where
  arch := byteArch
  subs := [sub]

/-- The subroutine that writes the byte before it reads it. -/
def writer : Sub :=
  .straight [writeByte, readByte]

def reader : Sub :=
  .straight [readByte]

/-- A name, plain or freshened. -/
def sideName (fresh : Bool) (base : String) : String :=
  if fresh then base ++ "_mod" else base

def byteTerm (fresh : Bool) (base : String) (srt : Srt) : Term :=
  .const (.text (sideName fresh base)) srt

/-- The environment of a program, with some constants. -/
def byteEnv (fresh : Bool) (hooks : List Hook) (sub : Sub) (bases : List (String × Srt)) :
    Environment where
  arch := byteArch
  subs := [sub]
  summaries := Summary.standard [] false
  hooks := hooks
  freshened := fresh
  vars := bases.map fun (base, srt) => (.text base, byteTerm fresh base srt)
  introduced := (bases.map fun (base, _) => .text (sideName fresh base)).reverse

def byteBases : List (String × Srt) :=
  [("a", .bits 8), ("sp", .bits 64), ("mem", .memory 8)]

/-- The environment of a program on entry, with some of the entry values. -/
def byteEntry (fresh : Bool) (hooks : List Hook) (sub : Sub) (bases : List (String × Srt)) :
    Environment :=
  { byteEnv fresh hooks sub byteBases with
    inits := bases.map fun (base, srt) => (base, byteTerm fresh ("init_" ++ base) srt)
    introduced := (bases.map fun (base, _) => .text (sideName fresh ("init_" ++ base))).reverse ++
      (byteEnv fresh hooks sub byteBases).introduced }

def byteEnd (fresh : Bool) (hooks : List Hook) (sub : Sub) : Environment :=
  byteEntry fresh hooks sub [("a", .bits 8), ("mem", .memory 8), ("sp", .bits 64)]

def byteEntered (i : Nat) (fresh : Bool) (base : String) (srt : Srt) : Constraint :=
  .goal i ("init_" ++ base)
    (.app .eq [byteTerm fresh ("init_" ++ base) srt, byteTerm fresh base srt])

def byteInits (i : Nat) (fresh : Bool) : List Constraint :=
  [byteEntered i fresh "a" (.bits 8), byteEntered (i + 1) fresh "mem" (.memory 8),
    byteEntered (i + 2) fresh "sp" (.bits 64)]

def byteHook : Hook :=
  .sameAs (byteTerm true "mem" (.memory 8)) []

def byteTwin (n : Nat) : Twin where
  supply := { nodes := n }
  first := byteEnd false [byteHook] writer
  second := byteEnd true [] reader

def byteOptions : Options where
  compareRegisters := ["a"]

def byteComparators : List Comparator :=
  [.registers [byteMem, byteReg, byteSp] [byteReg], .stackPointer byteSp]

/-- The variable of a base name holds one value on both sides. -/
def byteSame (base : String) (srt : Srt) : Term :=
  .app .eq [byteTerm false base srt, byteTerm true base srt]

def bytePost : List Constraint :=
  [.goal 6 "registers equal on exit" (byteSame "a" (.bits 8)),
    .goal 7 "stack pointers equal on exit" (byteSame "sp" (.bits 64))]

def byteHyps : List Constraint :=
  let sp := byteTerm false "sp" (.bits 64)
  [.goal 14 "registers equal on entry"
      (.app .and [byteSame "a" (.bits 8), byteSame "mem" (.memory 8), byteSame "sp" (.bits 64)]),
    .clause 17 []
      [.goal 15 "stack pointers equal" (byteSame "sp" (.bits 64)),
        .goal 16 "stack pointer in range"
          (.app .and [.app (.order .ule) [sp, .num 64 0x40000000],
            .app (.order .ugt) [sp, .num 64 0x3f800000]])]]

def byteRead (fresh : Bool) : Term :=
  .app .select [byteTerm fresh "mem" (.memory 8), .num 8 0]

/-- The memory after the write. -/
def byteWritten : Term :=
  .app .store [byteTerm false "mem" (.memory 8), .num 8 0, .app (.extract 7 0) [.num 8 1]]

def readerPre (i : Nat) (post : Constraint) : Constraint :=
  .subst i post [(byteTerm true "a" (.bits 8), byteRead true)]

/-- The precondition of the writer, where the load has the assumption as a hypothesis. -/
def writerPre (i : Nat) (post : Constraint) : Constraint :=
  .subst (i + 3)
    (.clause (i + 2)
      [.goal (i + 1) "memory offset at read" (.app .eq [byteRead false, byteRead true])]
      [.subst i post [(byteTerm false "a" (.bits 8), byteRead false)]])
    [(byteTerm false "mem" (.memory 8), byteWritten)]

def byteQuestion : Question where
  condition := .clause 19 (byteInits 3 false ++ byteInits 0 true)
    [.clause 18 byteHyps [writerPre 10 (readerPre 9 (.clause 8 [] bytePost))]]
  first := byteEnd false [byteHook] writer
  second := byteEnd true [] reader

theorem ends_reader (i : Nat) (post : Constraint) :
    (precondition post reader).Ends ⟨{ nodes := i }, byteEnd true [] reader⟩ (readerPre i post)
      ⟨{ nodes := i + 1 }, byteEnd true [] reader⟩ :=
  rfl

theorem ends_writer (i : Nat) (post : Constraint) :
    (precondition post writer).Ends ⟨{ nodes := i }, byteEnd false [byteHook] writer⟩
      (writerPre i post) ⟨{ nodes := i + 4 }, byteEnd false [byteHook] writer⟩ :=
  rfl

theorem ends_byteComparison :
    (compareSubs (byteComparators.map (Comparator.postcondition writer reader))
      (byteComparators.map (Comparator.hypothesis writer reader)) writer reader).Ends (byteTwin 6)
      (.clause 18 byteHyps [writerPre 10 (readerPre 9 (.clause 8 [] bytePost))]) (byteTwin 19) :=
  ends_compareSubs.mpr ⟨bytePost, byteHyps, byteTwin 6, byteTwin 8, byteTwin 9, byteTwin 10,
    byteTwin 14, byteTwin 18, _, _, _, ⟨rfl, rfl⟩, rfl, rfl,
    ends_onSecond.mpr ⟨_, ends_reader 9 _, rfl⟩, ends_onFirst.mpr ⟨_, ends_writer 10 _, rfl⟩, rfl,
    rfl⟩

theorem ends_bytes :
    (byteOptions.comparative {} (byteProgram writer) (byteProgram reader) writer reader).Ends {}
      byteQuestion { nodes := 20 } := by
  simp only [Options.comparative, ends_bind, ends_lift, ends_pure, Setup.ends_build,
    Setup.ends_buildBoth]
  exact ⟨byteEnv false [] reader byteBases, _, rfl, byteEnv true [] reader byteBases, _,
    ⟨rfl, rfl⟩, (byteInits 0 true, byteEnd true [] reader), { nodes := 3 }, rfl, [byteHook], _, rfl,
    byteEnv false [byteHook] writer byteBases, { nodes := 3 }, rfl,
    (byteInits 3 false, byteEnd false [byteHook] writer), { nodes := 6 }, rfl,
    (byteQuestion.condition, byteQuestion.first, byteQuestion.second), _,
    ⟨byteComparators, byteTwin 6, rfl, _, byteTwin 19, ends_byteComparison, rfl⟩, rfl, rfl⟩

theorem isKnown_writer : writer.IsKnown :=
  Sub.isKnown_straight (by decide)

theorem isKnown_reader : reader.IsKnown :=
  Sub.isKnown_straight (by decide)

theorem flatten_byteQuestion :
    (∃ ν n, byteQuestion.condition.Listed ν n) ∧
      byteQuestion.condition.flatten? true = .ok (byteQuestion.condition.flatten true) := by
  obtain ⟨-, -, -, -, ⟨ν, n, hl⟩, -⟩ := Options.ends_comparative ends_bytes rfl rfl rfl rfl rfl
    Sub.callFree_straight Sub.callFree_straight isKnown_writer isKnown_reader
  refine ⟨⟨ν, n, hl⟩, hl.flatten?_eq_ok.mpr ⟨?_, rfl⟩⟩
  simp [byteQuestion, byteInits, byteEntered, byteHyps, writerPre, readerPre, bytePost, byteSame,
    byteTerm, byteRead, byteWritten, Replacement.keepsSorts, Term.sort]

/-- The condition is true in all states: under the assumption, the memory of the reader holds the
byte that the writer wrote. -/
theorem holds_byteQuestion (s : State) : byteQuestion.condition.Holds true s := by
  have hread : ∀ (fresh : Bool) (s : State), ((byteRead fresh).eval s).Fits (.bits 8) :=
    fun fresh s => ⟨rfl, Nat.mod_lt _ (by decide)⟩
  have hmem : ∀ fresh, (byteTerm fresh "mem" (.memory 8)).Over fun _ srt => srt ≠ .bool :=
    fun _ => .const (by simp)
  have hover : ∀ fresh, (byteRead fresh).Over fun _ srt => srt ≠ .bool :=
    fun fresh => .app (by simp) (by simpa using ⟨hmem fresh, .num 8 0⟩)
  have hwritten : byteWritten.Over fun _ srt => srt ≠ .bool :=
    .app (by simp) (by simpa using ⟨hmem false, .num 8 0, .app (by simp) (by simpa using .num 8 1)⟩)
  have hfits : (byteWritten.eval s).Fits (.memory 8) := rfl
  simp only [byteQuestion, byteHyps, writerPre, readerPre, bytePost, byteTerm,
    Constraint.holds_clause, List.forall_mem_singleton, List.forall_mem_cons]
  rintro - ⟨-, hhyp⟩
  have hsp := (hhyp (by simp)).1
  rw [Constraint.holds_subst (.inr (by simp)) hwritten hfits, Constraint.holds_clause]
  simp only [List.forall_mem_singleton]
  intro hhook
  rw [Constraint.holds_subst (.inr (by simp)) (hover _) (hread _ _),
    Constraint.holds_subst (.inr (by simp)) (hover _) (hread _ _)]
  simp only [Constraint.holds_clause, List.forall_mem_cons, Constraint.holds_goal] at hhook hsp ⊢
  refine fun _ => ⟨?_, hsp, by simp⟩
  -- what both registers are set to is read from the memories that the assumption compares
  generalize s.set _ (.memory 8) _ = s1 at hhook ⊢
  have hx := hread false s1
  have hy := hread true s1
  change ((byteRead false).eval s1).same ((byteRead true).eval s1) = true at hhook
  generalize (byteRead false).eval s1 = x at hx hhook
  change (((s1.set (.text "a") (.bits 8) x).set (.text "a_mod") (.bits 8)
      ((byteRead true).eval s1)).const (.text "a") (.bits 8)).same
    (((s1.set (.text "a") (.bits 8) x).set (.text "a_mod") (.bits 8)
      ((byteRead true).eval s1)).const (.text "a_mod") (.bits 8)) = true
  rwa [State.const_set_self _ hy, State.const_set_ne _ (.inl (by decide)),
    State.const_set_self _ hx]

theorem disjoint_byteQuestion :
    ∀ x ∈ byteQuestion.first.symbols, x ∉ byteQuestion.second.symbols := by
  decide

/-- A state that both programs share: every register holds the base of the stack, or what of it has
room, and all bytes are one or all are zero. -/
def byteState (one : Bool) : State :=
  { State.zero with
    word := fun _ _ => 0x40000000
    memory := fun _ _ => { fill := if one then 1 else 0 } }

theorem matters_byte
    (h : byteQuestion.first.Matters writer v ∨ byteQuestion.second.Matters reader v) :
    v ∈ [byteMem, byteReg, byteSp] := by
  have hfirst : byteQuestion.first.relevantVars writer = .ok [byteMem, byteReg, byteSp] := rfl
  have hsecond : byteQuestion.second.relevantVars reader = .ok [byteReg, byteMem, byteSp] := rfl
  rcases h with ⟨vs, hvs, hv⟩ | ⟨vs, hvs, hv⟩
  · rw [hfirst] at hvs
    cases hvs
    exact hv
  · rw [hsecond] at hvs
    cases hvs
    exact (List.Perm.swap _ _ _).mem_iff.mp hv

theorem shared_byteState (one : Bool) : byteQuestion.Shared writer reader (byteState one) := by
  have hsame : ∀ v ∈ [byteMem, byteReg, byteSp],
      v.SameIn byteQuestion.first byteQuestion.second (byteState one) := by
    simp only [List.forall_mem_cons, List.not_mem_nil, false_imp_iff, implies_true, and_true]
    cases one <;> exact ⟨rfl, rfl, rfl⟩
  have hentered : ∀ v ∈ [byteMem, byteReg, byteSp],
      v.Entered byteQuestion.first (byteState one) ∧
        v.Entered byteQuestion.second (byteState one) := by
    simp only [List.forall_mem_cons, List.not_mem_nil, false_imp_iff, implies_true, and_true]
    refine ⟨⟨?_, ?_⟩, ⟨?_, ?_⟩, ?_, ?_⟩ <;> rintro _ ⟨⟩ <;> cases one <;> rfl
  refine ⟨fun v hv => hsame v (matters_byte hv), ?_, ?_,
    fun v hv => (hentered v (matters_byte (.inl hv))).1,
    fun v hv => (hentered v (matters_byte (.inr hv))).2⟩
  · rintro _ _ ⟨⟩ ⟨⟩
    exact hsame byteSp (by simp)
  · rintro _ _ ⟨⟩ ⟨⟩
    cases one <;> exact ⟨by decide, by decide⟩

def writerEnd (one : Bool) : State :=
  ((byteState one).set (.text "mem") (.memory 8) (byteWritten.eval (byteState one))).set (.text "a")
    (.bits 8) (.bits 8 1)

def readerEnd (one : Bool) : State :=
  (byteState one).set (.text "a_mod") (.bits 8) (.bits 8 (if one then 1 else 0))

theorem runs_writer (one : Bool) :
    writer.Runs byteQuestion.first.unhooked (byteState one) (.exit (writerEnd one)) := by
  cases one <;> exact Sub.runs_straight rfl

theorem runs_reader (one : Bool) :
    reader.Runs byteQuestion.second (byteState one) (.exit (readerEnd one)) := by
  cases one <;> exact Sub.runs_straight rfl

/-- Where all bytes are one, the writer reads what the memory of the reader holds. -/
theorem runs_writer_hooked :
    writer.Runs byteQuestion.first (byteState true) (.exit (writerEnd true)) :=
  Sub.runs_straight rfl

/-! ## §6 What a comparison proves -/

/-- **What a comparison of two programs proves**: in a state that both programs share, the condition
is true exactly if the run of the first program is excused, because one of its loads does not read
what the memory of the second program holds on entry, or both runs leave in states that agree on
the compared registers. -/
theorem comparative_holds_iff {o : Options} {d : Defaults} {p1 p2 : Program} {f1 f2 : Sub}
    {supply supply' : Supply} {q : Question} {φ : Term} {s : State}
    (hrun : (o.comparative d p1 p2 f1 f2).Ends supply q supply') (harch : p1.arch = p2.arch)
    (hoffset : o.memoryOffset = false) (hnull : o.checkNull = false)
    (hcompare : o.compareCalls = false) (hpre : o.precond = "") (hpost : o.postcond = "")
    (hcalls1 : f1.CallFree) (hcalls2 : f2.CallFree) (hknown1 : f1.IsKnown) (hknown2 : f2.IsKnown)
    (hloops1 : f1.LoopFree) (hloops2 : f2.LoopFree)
    (hdisjoint : ∀ x ∈ q.first.symbols, x ∉ q.second.symbols)
    (hφ : q.condition.flatten? true = .ok φ) (hshared : q.Shared f1 f2 s) :
    φ.holds s = true ↔ f1.Runs q.first s .excused ∨
      ∃ s1 s2, f1.Runs q.first.unhooked s (.exit s1) ∧ f2.Runs q.second s (.exit s2) ∧
        q.Agree (o.compared p1.arch) s1 s2 := by
  obtain ⟨hooks, hassume, hready1, hready2, ⟨ν, n, hl⟩, post, inner, outer, hsorted, hmeets1,
    hmeets2, hpost, hcond⟩ := Options.ends_comparative hrun hoffset hnull hcompare hpre hpost
      hcalls1 hcalls2 hknown1 hknown2
  rw [← harch] at hready2
  obtain ⟨hsort, rfl⟩ := hl.flatten?_eq_ok.mp hφ
  have houter := hsorted hsort
  rw [hl.holds_flatten, hcond true s hshared, hmeets1.means houter]
  obtain ⟨o1, hrun1⟩ := hmeets1.settled.runs s
  have hwell : f1.EndsWell q.first inner true s ↔ o1.Accepts (inner.Holds true) true :=
    ⟨fun ⟨o, ho, h⟩ => ho.unique hrun1 ▸ h, fun h => ⟨o1, hrun1, h⟩⟩
  rw [hwell]
  rcases hrun1.exit_cut_or_excused (hready1.hooks ▸ hassume) with ⟨s1, rfl⟩ | rfl | rfl
  · obtain ⟨s2, hrun2⟩ : ∃ s2, f2.Runs q.second s (.exit s2) := by
      obtain ⟨o2, hrun2⟩ := hmeets2.settled.runs s
      rcases hrun2.exit_or_cut hready2.hooks with ⟨s2, rfl⟩ | rfl
      · exact ⟨s2, hrun2⟩
      · exact absurd hrun2 hloops2.not_cut
    -- the first run leaves the second side alone, so the second one starts where it would have
    have hstay : s1.patch q.second.symbols s = s1 := by
      rw [← hrun1.patch hready1.sound hmeets1.settled]
      exact State.patch_patch_of_disjoint hdisjoint s s1
    have hnext : f2.Runs q.second s1 (.exit (s1.patch q.second.symbols s2)) := by
      have hframe := hrun2.frame hready2.hooks hready2.sound (hready2.sound.frame_right s1)
        hmeets2.settled
      rwa [hstay] at hframe
    have hinner : inner.Holds true s1 ↔ q.Agree (o.compared p1.arch) s1 s2 := by
      have hwell2 : f2.EndsWell q.second post true s1 ↔
          post.Holds true (s1.patch q.second.symbols s2) :=
        ⟨fun h => h.holds hnext, fun h => ⟨_, hnext, h⟩⟩
      rw [hmeets2.means (houter.of_mem (hmeets1.exits _ _ hrun1)), hwell2, hpost, hready1.arch]
      exact forall₂_congr fun r _ => forall₂_congr fun v hv =>
        q.sameIn_pair hready1 hready2 hdisjoint hv s1 s2
    constructor
    · exact fun h => .inr ⟨s1, s2, hrun1.unhooked, hrun2, hinner.mp h⟩
    · rintro (h | ⟨u1, u2, hu1, hu2, hagree⟩)
      · cases h.unique hrun1
      · cases hu1.unique hrun1.unhooked
        cases hu2.unique hrun2
        exact hinner.mpr hagree
  · exact absurd hrun1 hloops1.not_cut
  · exact ⟨fun _ => .inl hrun1, fun _ => True.intro⟩

/-- The two programs agree where the run of the writer is not excused. -/
theorem comparative_holds_iff_bytes :
    byteQuestion.Shared writer reader (byteState true) ∧
      ∃ s1 s2, writer.Runs byteQuestion.first.unhooked (byteState true) (.exit s1) ∧
        reader.Runs byteQuestion.second (byteState true) (.exit s2) ∧
        byteQuestion.Agree ["a", "sp"] s1 s2 := by
  obtain ⟨⟨ν, n, hl⟩, hφ⟩ := flatten_byteQuestion
  have hiff := comparative_holds_iff ends_bytes rfl rfl rfl rfl rfl rfl Sub.callFree_straight
    Sub.callFree_straight isKnown_writer isKnown_reader Sub.loopFree_straight Sub.loopFree_straight
    disjoint_byteQuestion hφ (shared_byteState true)
  have hholds := hiff.mp ((hl.holds_flatten true _).mpr (holds_byteQuestion _))
  exact ⟨shared_byteState true, hholds.resolve_left fun h => by cases h.unique runs_writer_hooked⟩

/-- A condition that is true in all states does not make the two programs agree: the run of the
writer is excused where the byte is not there before. -/
theorem not_agree_of_valid :
    ¬∀ (o : Options) (d : Defaults) (p1 p2 : Program) (f1 f2 : Sub) (supply supply' : Supply)
      (q : Question) (φ : Term), (o.comparative d p1 p2 f1 f2).Ends supply q supply' →
      p1.arch = p2.arch → o.memoryOffset = false → o.checkNull = false → o.compareCalls = false →
      o.precond = "" → o.postcond = "" → f1.CallFree → f2.CallFree → f1.IsKnown → f2.IsKnown →
      f1.LoopFree → f2.LoopFree → (∀ x ∈ q.first.symbols, x ∉ q.second.symbols) →
      q.condition.flatten? true = .ok φ → (∀ s, φ.holds s = true) →
      ∀ s, q.Shared f1 f2 s → ∃ s1 s2, f1.Runs q.first.unhooked s (.exit s1) ∧
        f2.Runs q.second s (.exit s2) ∧ q.Agree (o.compared p1.arch) s1 s2 := by
  intro hall
  obtain ⟨⟨ν, n, hl⟩, hφ⟩ := flatten_byteQuestion
  obtain ⟨s1, s2, hrun1, hrun2, hagree⟩ := hall _ _ _ _ _ _ _ _ _ _ ends_bytes rfl rfl rfl rfl rfl
    rfl Sub.callFree_straight Sub.callFree_straight isKnown_writer isKnown_reader
    Sub.loopFree_straight Sub.loopFree_straight disjoint_byteQuestion hφ
    (fun s => (hl.holds_flatten true s).mpr (holds_byteQuestion s)) _ (shared_byteState false)
  cases hrun1.unique (runs_writer false)
  cases hrun2.unique (runs_reader false)
  cases hagree "a" (by decide) byteReg rfl

end Antecedent
