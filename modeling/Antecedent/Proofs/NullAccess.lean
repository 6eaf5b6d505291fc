import Antecedent.Proofs.Agreement

/-!
# Accesses at address zero

A condition on accesses may ask that no load and no store is at address zero.  A run with such
conditions stops at the first access that breaks one.  Here it is compared with the run without
conditions, which goes on.

* `Sub.Evaluates` says which expressions a run evaluates, and in which states.
* `Sub.TouchesNull` says that one of them loads or stores at address zero.
* `precondition_false_iff_touchesNull` is about one subroutine, and `compareSubs_null_valid_iff`
  about two of them.
-/

namespace Antecedent

variable {sub : Sub} {f : Flow} {e : Environment} {s : State} {touches : List Touch}

/-! ## §1 What a run evaluates -/

/-- A block that is entered in one state evaluates an expression in another: the right side of a
definition after the definitions before it, or the condition of a jump after all definitions, if no
jump before it is taken. -/
inductive Blk.Evaluates (e : Environment) (b : Blk) (s : State) : Expr → State → Prop where
  | rhs {done rest : List Def} {d : Def} {s' : State} (hdefs : b.defs = done ++ d :: rest)
      (hrun : done.foldlM (Def.run e) s = .ok s') : Evaluates e b s d.rhs s'
  | cond {passed rest : List Jmp} {j : Jmp} {s' : State}
      (hrun : b.defs.foldlM (Def.run e) s = .ok s') (hjmps : b.jmps = passed ++ j :: rest)
      (hnone : Jmp.choose e s' passed = .ok none) : Evaluates e b s j.cond s'

/-- The run from the block of a key evaluates an expression in a state, before it leaves or is
cut. -/
inductive Flow.Evaluates (f : Flow) (e : Environment) (x : Expr) (t : State) :
    Key → State → Prop where
  | here {k : Key} {s : State} {n : Node} (hcut : f.isCut e.unroll k = .ok false)
      (hnode : f.node k = .ok n) (heval : n.block.Evaluates e s x t) : Evaluates f e x t k s
  | later {k : Key} {s s' : State} {n : Node} {j : Option Jmp} {l : Label}
      (hcut : f.isCut e.unroll k = .ok false) (hnode : f.node k = .ok n)
      (hrun : n.block.run e s = .ok (s', j)) (hafter : f.graph.after n j = some (.block l))
      (next : Evaluates f e x t (f.key (f.graph.resolve l) k.counts) s') : Evaluates f e x t k s

/-- The run of a subroutine from a state evaluates an expression in another. -/
def Sub.Evaluates (sub : Sub) (e : Environment) (s : State) (x : Expr) (t : State) : Prop :=
  ∃ f n rest, sub.flow = .ok f ∧ f.graph = n :: rest ∧ f.Evaluates e x t (f.key n.label []) s

/-- An expression has a load or a store at address zero, in any of its parts. -/
def Expr.TouchesNull (e : Environment) (s : State) (x : Expr) : Prop :=
  ∃ a ∈ x.touches (e.look s), a.addr.toNat = 0

/-- The run from the block of a key touches address zero. -/
def Flow.TouchesNull (f : Flow) (e : Environment) (k : Key) (s : State) : Prop :=
  ∃ x t, f.Evaluates e x t k s ∧ x.TouchesNull e t

/-- The run of a subroutine touches address zero. -/
def Sub.TouchesNull (sub : Sub) (e : Environment) (s : State) : Prop :=
  ∃ x t, sub.Evaluates e s x t ∧ x.TouchesNull e t

/-- A subroutine touches address zero if the run from its first block does. -/
theorem Sub.touchesNull_iff {n : Node} {rest : List Node} (hf : sub.flow = .ok f)
    (hcons : f.graph = n :: rest) : sub.TouchesNull e s ↔ f.TouchesNull e (f.key n.label []) s := by
  constructor
  · rintro ⟨x, t, ⟨f', n', rest', hf', hcons', heval⟩, hnull⟩
    cases hf.symm.trans hf'
    cases hcons.symm.trans hcons'
    exact ⟨x, t, heval, hnull⟩
  · rintro ⟨x, t, heval, hnull⟩
    exact ⟨x, t, ⟨f, n, rest, hf, hcons, heval⟩, hnull⟩

/-! ## §2 Conditions against address zero -/

/-- How a run ends where a condition of a duty is broken. -/
def Duty.ending : Duty → Ending
  | .assume => .excused
  | .verify => .failed

/-- The conditions on accesses are those that loads and stores are not at address zero, all of one
duty. -/
def Environment.Guards (e : Environment) (duty : Duty) : Prop :=
  ∀ hook, hook ∈ e.hooks ↔ ∃ kind, hook = .nonNull kind duty

section Guards

variable {duty : Duty} (he : e.Guards duty)
include he

theorem Environment.Guards.of_hooks {e' : Environment} (h : e'.hooks = e.hooks) :
    e'.Guards duty := by
  intro hook
  rw [h]
  exact he hook

theorem Environment.Guards.fit : ∀ hook ∈ e.hooks, hook.Fit := by
  intro hook hmem
  obtain ⟨kind, rfl⟩ := (he hook).mp hmem
  exact True.intro

/-- A condition is broken exactly by an access at address zero, and it is one of the duty. -/
theorem Environment.Guards.mem_verdicts {d : Duty} :
    (d, false) ∈ e.verdicts s touches ↔ d = duty ∧ ∃ a ∈ touches, a.addr.toNat = 0 := by
  simp only [verdicts, List.mem_flatMap, List.mem_filterMap]
  constructor
  · rintro ⟨a, ha, hook, hhook, hverdict⟩
    obtain ⟨kind, rfl⟩ := (he hook).mp hhook
    rw [Hook.verdict] at hverdict
    split at hverdict
    · cases hverdict
    · obtain ⟨rfl, hzero⟩ := Prod.mk.injEq .. ▸ Option.some.inj hverdict
      exact ⟨rfl, a, ha, by simpa using hzero⟩
  · rintro ⟨rfl, a, ha, hzero⟩
    exact ⟨a, ha, .nonNull a.kind d, (he _).mpr ⟨a.kind, rfl⟩, by simp [Hook.verdict, hzero]⟩

/-- A run stops at accesses exactly if one of them is at address zero. -/
theorem Environment.Guards.objection?_eq_some {o : Ending} :
    e.objection? s touches = some o ↔ o = duty.ending ∧ ∃ a ∈ touches, a.addr.toNat = 0 := by
  simp only [objection?, he.mem_verdicts]
  by_cases hnull : ∃ a ∈ touches, a.addr.toNat = 0
  · cases duty <;> simp [hnull, Duty.ending, eq_comm (b := o)]
  · simp [hnull]

theorem Environment.Guards.objection?_eq_none :
    e.objection? s touches = none ↔ ¬∃ a ∈ touches, a.addr.toNat = 0 := by
  rw [Option.eq_none_iff_forall_ne_some]
  simp [he.objection?_eq_some]

/-- Only the accesses decide, not the state they are made in. -/
theorem Environment.Guards.blind : e.Blind := by
  intro s s' touches
  refine Option.ext fun o => ?_
  rw [he.objection?_eq_some, he.objection?_eq_some]

theorem Environment.Guards.ne_ending {o : Ending} (ho : o ≠ duty.ending) :
    e.objection? s touches ≠ some o :=
  fun h => ho (he.objection?_eq_some.mp h).1

end Guards

/-! ## §3 Blocks that stop -/

section Stops

variable {duty : Duty} (he : e.Guards duty) {s' : State} {o : Ending}
include he

/-- Definitions that stop do so at the first one that touches address zero. -/
theorem Def.exists_null_of_foldlM {ds : List Def} (h : ds.foldlM (Def.run e) s = .error o) :
    o = duty.ending ∧ ∃ done d rest t, ds = done ++ d :: rest ∧
      done.foldlM (Def.run e.unhooked) s = .ok t ∧ d.rhs.TouchesNull e t := by
  induction ds generalizing s with
  | nil => cases h
  | cons d ds ih =>
    rw [List.foldlM_cons] at h
    cases hd : Def.run e s d with
    | error o' =>
      rw [hd] at h
      cases h
      rw [Def.run] at hd
      split at hd
      · next hstop =>
        cases hd
        obtain ⟨rfl, hnull⟩ := he.objection?_eq_some.mp hstop
        exact ⟨rfl, [], d, ds, s, rfl, rfl, hnull⟩
      · cases hd
    | ok s1 =>
      rw [hd] at h
      obtain ⟨rfl, done, d', rest, t, rfl, hrun, hnull⟩ := ih h
      refine ⟨rfl, d :: done, d', rest, t, rfl, ?_, hnull⟩
      rw [List.foldlM_cons, Def.run_unhooked hd]
      exact hrun

/-- Definitions that do not stop do not touch address zero. -/
theorem Def.not_null_of_foldlM {done rest : List Def} {d : Def} {t : State}
    (h : (done ++ d :: rest).foldlM (Def.run e) s = .ok s')
    (hrun : done.foldlM (Def.run e.unhooked) s = .ok t) : ¬d.rhs.TouchesNull e t := by
  rw [List.foldlM_append, bind_eq_ok] at h
  obtain ⟨t', hdone, h⟩ := h
  cases hrun.symm.trans (Def.foldlM_run_unhooked hdone)
  rw [List.foldlM_cons, bind_eq_ok] at h
  obtain ⟨t', hd, -⟩ := h
  rw [Def.run] at hd
  split at hd
  · cases hd
  · next hnone => exact he.objection?_eq_none.mp hnone

/-- Jumps that stop do so at the first condition that touches address zero. -/
theorem Jmp.exists_null_of_choose {js : List Jmp} (h : Jmp.choose e s js = .error o) :
    o = duty.ending ∧ ∃ passed j rest, js = passed ++ j :: rest ∧
      Jmp.choose e.unhooked s passed = .ok none ∧ j.cond.TouchesNull e s := by
  induction js with
  | nil => cases h
  | cons j js ih =>
    rw [Jmp.choose] at h
    split at h
    · next hstop =>
      cases h
      obtain ⟨rfl, hnull⟩ := he.objection?_eq_some.mp hstop
      exact ⟨rfl, [], j, js, rfl, rfl, hnull⟩
    · split at h
      · cases h
      · next hzero =>
        obtain ⟨rfl, passed, j', rest, rfl, hnone, hnull⟩ := ih h
        refine ⟨rfl, j :: passed, j', rest, rfl, ?_, hnull⟩
        rw [Jmp.choose, Environment.objection?_eq_none rfl]
        exact (if_neg hzero).trans hnone

/-- Jumps that do not stop do not touch address zero, up to the one that is taken. -/
theorem Jmp.not_null_of_choose {passed rest : List Jmp} {j : Jmp} {r : Option Jmp}
    (h : Jmp.choose e s (passed ++ j :: rest) = .ok r)
    (hnone : Jmp.choose e.unhooked s passed = .ok none) : ¬j.cond.TouchesNull e s := by
  induction passed with
  | nil =>
    rw [List.nil_append, Jmp.choose] at h
    split at h
    · cases h
    · next hnone => exact he.objection?_eq_none.mp hnone
  | cons j' passed ih =>
    rw [List.cons_append, Jmp.choose] at h
    rw [Jmp.choose, Environment.objection?_eq_none rfl] at hnone
    split at h
    · cases h
    · split at h
      · next htaken => cases (if_pos htaken).symm.trans hnone
      · next hzero => exact ih h ((if_neg hzero).symm.trans hnone)

/-- A block that stops touches address zero, and does so in the run without conditions. -/
theorem Blk.exists_null_of_run {b : Blk} (h : b.run e s = .error o) :
    o = duty.ending ∧ ∃ x t, b.Evaluates e.unhooked s x t ∧ x.TouchesNull e t := by
  rw [Blk.run] at h
  cases hdefs : b.defs.foldlM (Def.run e) s with
  | error o' =>
    rw [hdefs] at h
    cases h
    obtain ⟨rfl, done, d, rest, t, hds, hrun, hnull⟩ := Def.exists_null_of_foldlM he hdefs
    exact ⟨rfl, d.rhs, t, .rhs hds hrun, hnull⟩
  | ok t =>
    rw [hdefs] at h
    change (do return (t, ← Jmp.choose e t b.jmps)) = _ at h
    cases hj : Jmp.choose e t b.jmps with
    | error o' =>
      rw [hj] at h
      cases h
      obtain ⟨rfl, passed, j, rest, hjs, hnone, hnull⟩ := Jmp.exists_null_of_choose he hj
      exact ⟨rfl, j.cond, t, .cond (Def.foldlM_run_unhooked hdefs) hjs hnone, hnull⟩
    | ok j =>
      rw [hj] at h
      cases h

/-- A block that does not stop does not touch address zero. -/
theorem Blk.not_null_of_run {b : Blk} {r : State × Option Jmp} (h : b.run e s = .ok r) {x : Expr}
    {t : State} (heval : b.Evaluates e.unhooked s x t) : ¬x.TouchesNull e t := by
  simp only [Blk.run, bind_eq_ok, pure_eq_ok] at h
  obtain ⟨s1, hdefs, j, hj, -⟩ := h
  cases heval with
  | rhs hds hrun =>
    rw [hds] at hdefs
    exact Def.not_null_of_foldlM he hdefs hrun
  | cond hrun hjs hnone =>
    cases hrun.symm.trans (Def.foldlM_run_unhooked hdefs)
    rw [hjs] at hj
    exact Jmp.not_null_of_choose he hj hnone

end Stops

/-! ## §4 Runs that stop -/

section Runs

variable {duty : Duty} (he : e.Guards duty) {o : Ending}
include he

/-- A run that stops touches address zero, in a block that it reaches without the conditions as
well. -/
theorem Flow.Runs.touchesNull {k : Key} (h : f.Runs e k s o) (ho : o = duty.ending) :
    f.TouchesNull e.unhooked k s := by
  induction h with
  | cut => cases duty <;> cases ho
  | stop hcut hnode hrun =>
    obtain ⟨-, x, t, heval, hnull⟩ := Blk.exists_null_of_run he hrun
    exact ⟨x, t, .here hcut hnode heval, hnull⟩
  | leave => cases duty <;> cases ho
  | go hcut hnode hrun hafter _ ih =>
    obtain ⟨x, t, heval, hnull⟩ := ih ho
    exact ⟨x, t, .later hcut hnode (Blk.run_unhooked hrun) hafter heval, hnull⟩

/-- A run that does not stop does not touch address zero. -/
theorem Flow.Runs.not_touchesNull {k : Key} (h : f.Runs e k s o) (ho : o ≠ duty.ending) :
    ¬f.TouchesNull e.unhooked k s := by
  -- along the run both runs are at the same key in the same state
  induction h with
  | cut hcut =>
    rintro ⟨x, t, heval, -⟩
    cases heval with
    | here hcut' => cases hcut.symm.trans hcut'
    | later hcut' => cases hcut.symm.trans hcut'
  | stop hcut hnode hrun => exact absurd (Blk.exists_null_of_run he hrun).1 ho
  | leave hcut hnode hrun hafter =>
    rintro ⟨x, t, heval, hnull⟩
    cases heval with
    | here _ hnode' heval =>
      cases hnode.symm.trans hnode'
      exact Blk.not_null_of_run he hrun heval hnull
    | later _ hnode' hrun' hafter' =>
      cases hnode.symm.trans hnode'
      cases hrun'.symm.trans (Blk.run_unhooked hrun)
      cases hafter.symm.trans hafter'
  | go hcut hnode hrun hafter _ ih =>
    rintro ⟨x, t, heval, hnull⟩
    cases heval with
    | here _ hnode' heval =>
      cases hnode.symm.trans hnode'
      exact Blk.not_null_of_run he hrun heval hnull
    | later _ hnode' hrun' hafter' next =>
      cases hnode.symm.trans hnode'
      cases hrun'.symm.trans (Blk.run_unhooked hrun)
      cases hafter.symm.trans hafter'
      exact ih ho ⟨x, t, next, hnull⟩

/-- **Where runs stop**: a run with conditions against address zero stops exactly if the run without
them touches address zero. -/
theorem Sub.runs_stop_iff (h : sub.Runs e s o) :
    o = duty.ending ↔ sub.TouchesNull e.unhooked s := by
  by_cases hempty : sub.blks.isEmpty
  · -- without blocks there is nothing to stop at
    rw [Sub.Runs, if_pos hempty] at h
    subst h
    constructor
    · intro ho
      cases duty <;> cases ho
    · rintro ⟨x, t, ⟨f, n, rest, hf, hcons, -⟩, -⟩
      simp [← Sub.map_block_flow hf, hcons] at hempty
  · rw [Sub.Runs, if_neg hempty] at h
    obtain ⟨f, n, rest, hf, hcons, hruns⟩ := h
    rw [Sub.touchesNull_iff hf hcons]
    refine ⟨hruns.touchesNull he, fun hnull => ?_⟩
    by_contra ho
    exact hruns.not_touchesNull he ho hnull

/-- The run with the conditions leaves exactly if the run without them does, and touches no null
address before. -/
theorem Sub.Settled.runs_exit_iff (hsub : sub.Settled e) {s' : State} : sub.Runs e s (.exit s') ↔
      sub.Runs e.unhooked s (.exit s') ∧ ¬sub.TouchesNull e.unhooked s := by
  have hexit : ∀ t, Ending.exit t ≠ duty.ending := fun t => by cases duty <;> simp [Duty.ending]
  have hcut : Ending.cut ≠ duty.ending := by cases duty <;> simp [Duty.ending]
  constructor
  · exact fun h => ⟨h.unhooked, fun hnull => hexit _ ((Sub.runs_stop_iff he h).mpr hnull)⟩
  · rintro ⟨hrun, hnull⟩
    obtain ⟨o, ho⟩ := hsub.runs s
    have hgoes : o ≠ duty.ending := fun h => hnull ((Sub.runs_stop_iff he ho).mp h)
    rwa [hrun.unique (ho.unhooked_of_ne fun _ _ => he.ne_ending hgoes)]

/-- A run with the conditions leaves, is cut, or stops. -/
theorem Sub.Runs.exit_cut_or_stop (h : sub.Runs e s o) :
    (∃ s', o = .exit s') ∨ o = .cut ∨ o = duty.ending := by
  rcases h.ends with hexit | ⟨rfl, -⟩ | ⟨s', touches, hstop⟩
  · exact .inl hexit
  · exact .inr (.inl rfl)
  · exact .inr (.inr (he.objection?_eq_some.mp hstop).1)

/-- Whether a run touches address zero depends on the constants of its environment only. -/
theorem Sub.Settled.touchesNull_frame {g : State → State} (hsub : sub.Settled e) (hs : e.Sound)
    (hg : e.Frame g) (s : State) :
    sub.TouchesNull e.unhooked (g s) ↔ sub.TouchesNull e.unhooked s := by
  obtain ⟨o, ho⟩ := hsub.runs s
  rw [← Sub.runs_stop_iff he ho, ← Sub.runs_stop_iff he (ho.frame_of_blind he.blind hs hg hsub)]
  cases o <;> cases duty <;> simp [Ending.map, Duty.ending]

end Runs

/-- Where nothing is asked for on exit, the runs that end badly are those that touch address zero,
if this has to be shown. -/
theorem Sub.Settled.endsWell_iff_not_touchesNull {post : Constraint} (hsub : sub.Settled e)
    (he : e.Guards .verify) (hpost : ∀ s, post.Holds true s) (s : State) :
    sub.EndsWell e post true s ↔ ¬sub.TouchesNull e.unhooked s := by
  obtain ⟨o, ho⟩ := hsub.runs s
  rw [← Sub.runs_stop_iff he ho]
  constructor
  · rintro ⟨o', ho', haccepts⟩ rfl
    rw [ho'.unique ho] at haccepts
    exact haccepts
  · intro hgoes
    refine ⟨o, ho, ?_⟩
    rcases ho.exit_cut_or_stop he with ⟨s', rfl⟩ | rfl | rfl
    · exact hpost s'
    · exact rfl
    · exact absurd rfl hgoes

/-- Where accesses are assumed not to be at address zero, a run ends well if it meets the condition
on exit whenever it leaves. -/
theorem Sub.Settled.endsWell_iff_of_exit {post : Constraint} (hsub : sub.Settled e)
    (he : e.Guards .assume) (s : State) :
    sub.EndsWell e post true s ↔ ∀ s', sub.Runs e s (.exit s') → post.Holds true s' := by
  constructor
  · exact fun h s' hrun => h.holds hrun
  · intro hexit
    obtain ⟨o, ho⟩ := hsub.runs s
    refine ⟨o, ho, ?_⟩
    rcases ho.exit_cut_or_stop he with ⟨s', rfl⟩ | rfl | rfl
    · exact hexit s' ho
    · exact rfl
    · exact True.intro

/-! ## §5 Pointers -/

def pointer (name : String) : Var :=
  { name := .str name, width := .int 8 }

/-- Replaces a pointer by the byte that it points to. -/
def follow (name : String) : Def where
  tid := .str "follow"
  lhs := pointer name
  rhs := .load (.var byteMem) (.var (pointer name)) (.int 8) (.str "little")

def pointerTerm (symbol : String) : Term :=
  .const (.text symbol) (.bits 8)

def pointedTerm (fresh : Bool) : Term :=
  byteTerm fresh "mem" (.memory 8)

/-- An environment that knows a pointer and the memory, with conditions against address zero. -/
def pointerEnv (fresh : Bool) (duty : Duty) (name symbol : String) : Environment where
  arch := { name := "small", addressWidth := 8 }
  hooks := [.nonNull .load duty, .nonNull .store duty]
  freshened := fresh
  vars := [(.text name, pointerTerm symbol), (.text "mem", pointedTerm fresh)]
  introduced := [.text (sideName fresh name), .text (sideName fresh "mem")]

theorem guards_pointerEnv (fresh : Bool) (duty : Duty) (name symbol : String) :
    (pointerEnv fresh duty name symbol).Guards duty := by
  intro hook
  constructor
  · intro hmem
    rcases List.mem_pair.mp hmem with rfl | rfl <;> exact ⟨_, rfl⟩
  · rintro ⟨kind, rfl⟩
    cases kind <;> simp [pointerEnv]

theorem sound_pointerEnv (fresh : Bool) (duty : Duty) {name symbol : String}
    (h : Term.symbolOf (.text (sideName fresh name)) = .ok (.text symbol)) :
    (pointerEnv fresh duty name symbol).Sound := by
  have hmem : Term.symbolOf (.text (sideName fresh "mem")) =
      .ok (.text (sideName fresh "mem")) := by
    cases fresh <;> rfl
  intro t ht
  obtain rfl | rfl : t = pointerTerm symbol ∨ t = pointedTerm fresh := by
    simpa [Environment.constants, pointerEnv] using ht
  · exact ⟨.text symbol, .bits 8, rfl, by simp, by
      simp [Environment.symbols, pointerEnv, h, Except.toOption]⟩
  · exact ⟨_, .memory 8, rfl, by simp, by
      simp [Environment.symbols, pointerEnv, hmem, Except.toOption]⟩

def pointedByte (fresh : Bool) (symbol : String) : Term :=
  .app .select [pointedTerm fresh, pointerTerm symbol]

/-- The condition before a pointer is followed, with the condition against address zero. -/
def followPre (fresh : Bool) (duty : Duty) (symbol : String) (i : Nat) (post : Constraint) :
    Constraint :=
  let safe := .goal (i + 1) "non-null load at follow"
    (.app .distinct [.num 8 0, pointerTerm symbol])
  let rest := .subst i post [(pointerTerm symbol, pointedByte fresh symbol)]
  match duty with
  | .assume => .clause (i + 2) [safe] [rest]
  | .verify => .clause (i + 2) [] [safe, rest]

theorem keepsSort_follow (fresh : Bool) (duty : Duty) :
    (follow "p").KeepsSort (pointerEnv fresh duty "p" (sideName fresh "p")) := by
  intro s
  rfl

def followTwice : Sub :=
  .straight [follow "p", follow "p"]

/-- The condition before a pointer is followed twice. -/
def followTwicePre : Constraint :=
  followPre false .verify "p" 4 (followPre false .verify "p" 1 (.goal 0 "true" (.lit true)))

theorem ends_followTwice : (do precondition (← Build.trivial) followTwice).Ends
    ⟨{}, pointerEnv false .verify "p" "p"⟩ followTwicePre
    ⟨{ nodes := 7 }, pointerEnv false .verify "p" "p"⟩ :=
  rfl

def followOnce (name : String) : Sub :=
  .straight [follow name]

theorem isKnown_followOnce (name : String) : (followOnce name).IsKnown :=
  Sub.isKnown_straight (by simp [follow, Expr.isKnown])

theorem wellSorted_followOnce (fresh : Bool) (duty : Duty) :
    (followOnce "p").WellSorted (pointerEnv fresh duty "p" (sideName fresh "p")) :=
  List.forall_mem_singleton.mpr (List.forall_mem_singleton.mpr (keepsSort_follow fresh duty))

/-- Two environments with pointers: the first one assumes that they are not null, the second one has
to show it. -/
def pointerTwin : Twin where
  first := pointerEnv false .assume "p" "p"
  second := pointerEnv true .verify "p" "p_mod"

def pointers : Comparator :=
  .registers [pointer "p"] [pointer "p"]

/-- The condition that compares following a pointer on both sides, from equal pointers on. -/
def pointersSafe : Constraint :=
  .clause 8 [.goal 7 "registers equal on entry" (.app .eq [pointerTerm "p", pointerTerm "p_mod"])]
    [followPre false .assume "p" 4 (followPre true .verify "p_mod" 1 (.clause 0 [] []))]

theorem ends_pointersSafe :
    (compareSubs [] [pointers.hypothesis (followOnce "p") (followOnce "p")] (followOnce "p")
      (followOnce "p")).Ends pointerTwin pointersSafe
      { pointerTwin with supply := { nodes := 9 } } :=
  ends_compareSubs.mpr ⟨_, _, pointerTwin, pointerTwin,
    { pointerTwin with supply := { nodes := 1 } }, { pointerTwin with supply := { nodes := 4 } },
    { pointerTwin with supply := { nodes := 7 } }, { pointerTwin with supply := { nodes := 8 } },
    _, _, _, ⟨rfl, rfl⟩, rfl, rfl, rfl, rfl, rfl, rfl⟩

/-! ## §6 One subroutine -/

/-- **Checks for null accesses are exact**: the formula that asks for nothing on exit, and for no
access at address zero, is false in a state exactly if the run from this state touches address zero
before it leaves or is cut.  There is such a formula if definitions keep sorts. -/
theorem precondition_false_iff_touchesNull {σ σ' : Session} {sub : Sub} {pre : Constraint}
    (hσ : σ.env.Sound) (hhooks : σ.env.Guards .verify) (hcalls : sub.CallFree)
    (hknown : sub.IsKnown)
    (hrun : (do precondition (← Build.trivial) sub).Ends σ pre σ') :
    (sub.WellSorted σ'.env → ∃ φ, pre.flatten? true = .ok φ) ∧
      ∀ φ, pre.flatten? true = .ok φ →
        ∀ s, φ.holds s = false ↔ sub.TouchesNull σ'.env.unhooked s := by
  obtain ⟨post, τ, hpost, hpre⟩ := ends_bind.mp hrun
  obtain ⟨i, ν, rfl, hb1, hl1⟩ := Build.ends_goal (ν := default) hpost
  obtain ⟨ν', hb2, hl2, hmeets⟩ := Build.ends_precondition hpre (hb1.step.sound hσ)
    (hhooks.of_hooks hb1.step.env.hooks).fit hcalls hknown hl1
  have hb := hb1.trans hb2
  have hguards := hhooks.of_hooks hb.step.env.hooks
  have hmeets := hmeets σ'.env (.refl _) (hb.step.sound hσ)
  refine ⟨fun hsorts => ?_, fun φ hφ s => ?_⟩
  · exact ⟨_, hl2.flatten?_eq_ok.mpr ⟨hmeets.sorts Constraint.sorted_goal hsorts, rfl⟩⟩
  · obtain ⟨hsorted, rfl⟩ := hl2.flatten?_eq_ok.mp hφ
    have hexits : ∀ s, (Constraint.goal i "true" (.lit true)).Holds true s := fun _ =>
      Constraint.holds_goal.mpr rfl
    have hwell := hmeets.settled.endsWell_iff_not_touchesNull hguards hexits s
    rw [← Bool.not_eq_true, hl2.holds_flatten, hmeets.means hsorted true s, hwell, not_not]

/-- Following a pointer twice is unsafe exactly where the pointer or the byte that it points to is
null. -/
theorem precondition_false_iff_touchesNull_followTwice :
    (∃ φ, followTwicePre.flatten? true = .ok φ) ∧
      ∀ φ, followTwicePre.flatten? true = .ok φ → ∀ s, φ.holds s = false ↔
        followTwice.TouchesNull (pointerEnv false .verify "p" "p").unhooked s := by
  have hexact := precondition_false_iff_touchesNull (sound_pointerEnv false .verify rfl)
    (guards_pointerEnv false .verify "p" "p") Sub.callFree_straight
    (Sub.isKnown_straight (by simp [follow, Expr.isKnown])) ends_followTwice
  refine ⟨hexact.1 (List.forall_mem_singleton.mpr fun d hd => ?_), hexact.2⟩
  obtain rfl : d = follow "p" := by simpa using hd
  exact keepsSort_follow false .verify

/-! ## §7 Two subroutines -/

/-- **No additional null accesses**: where the accesses of the first subroutine are assumed not to
be at address zero and those of the second one have to be shown not to be, the condition that
compares the two is valid exactly if, for every state of either side such that the hypotheses hold
in both together, whenever the first run leaves and has not touched address zero, the second run
does not touch it before it leaves or is cut.  There is a formula for the condition if definitions
and hypotheses keep sorts. -/
theorem compareSubs_null_valid_iff {hyps : List (Compare Constraint)} {first second : Sub}
    {t t' : Twin} {c : Constraint} (hrun : (compareSubs [] hyps first second).Ends t c t')
    (hhyps : ∀ act ∈ hyps, act.Tame) (hs1 : t.first.Sound) (hs2 : t.second.Sound)
    (hguards1 : t.first.Guards .assume) (hguards2 : t.second.Guards .verify)
    (hcalls1 : first.CallFree) (hcalls2 : second.CallFree) (hknown1 : first.IsKnown)
    (hknown2 : second.IsKnown) (hdisjoint : ∀ x ∈ t'.first.symbols, x ∉ t'.second.symbols) :
    ∃ hs, Compares [] hyps first second t [] hs c t' ∧
      (first.WellSorted t'.first → second.WellSorted t'.second → (∀ h ∈ hs, h.Sorted) →
        ∃ φ, c.flatten? true = .ok φ) ∧
      ∀ φ, c.flatten? true = .ok φ → ((∀ s, φ.holds s = true) ↔
        ∀ s1 s2, (∀ h ∈ hs, (h.flatten true).holds (t'.pair s1 s2) = true) →
          ∀ s1', first.Runs t'.first.unhooked s1 (.exit s1') →
            ¬first.TouchesNull t'.first.unhooked s1 →
              ¬second.TouchesNull t'.second.unhooked s2) := by
  obtain ⟨ps, hs, hcomp⟩ := ends_compareSubs.mp hrun
  obtain rfl : ps = [] := by
    obtain ⟨_, _, _, _, _, _, _, _, _, -, hps, -⟩ := hcomp
    exact (ends_mapM_nil.mp hps).1.symm
  obtain ⟨hlater, hgrows1, he2, -, ν, i, j, inner, outer, rfl, -, hl, -, hlh, hmeets⟩ :=
    hcomp.meets (ν := default) (Compare.Tame.yield (by simp)) (Compare.Tame.yield hhyps) hs1 hs2
      hguards1.fit hguards2.fit hcalls1 hcalls2 hknown1 hknown2
  have hs1 := hlater.soundFirst
  have hs2 := hlater.soundSecond
  have hguards1 := hguards1.of_hooks hgrows1.hooks
  have hguards2 := hguards2.of_hooks he2
  obtain ⟨-, -, hfirst, hsecond⟩ := hmeets _ _ hlater
  refine ⟨hs, hcomp, fun hsorts1 hsorts2 hsortsh => ?_, fun φ hφ => ?_⟩
  · have hinner : inner.Sorted := hsecond.sorts (by simp) hsorts2
    exact ⟨_, hl.flatten?_eq_ok.mpr ⟨Constraint.sorted_clause.mpr
      ⟨hsortsh, by simpa using hfirst.sorts hinner hsorts1⟩, rfl⟩⟩
  obtain ⟨hsort, rfl⟩ := hl.flatten?_eq_ok.mp hφ
  have houter : outer.Sorted := by simpa using (Constraint.sorted_clause.mp hsort).2
  -- the second side's part of the condition says that its run does not touch address zero
  have hinner : ∀ s s', first.Runs t'.first s (.exit s') →
      (inner.Holds true s' ↔ ¬second.TouchesNull t'.second.unhooked s') := fun s s' hexit => by
    rw [hsecond.means (houter.of_mem (hfirst.exits _ _ hexit))]
    exact hsecond.settled.endsWell_iff_not_touchesNull hguards2 (by simp) s'
  -- and this depends on the state of the second side only
  have hpair : ∀ s1 s2, second.TouchesNull t'.second.unhooked (t'.pair s1 s2) ↔
      second.TouchesNull t'.second.unhooked s2 := fun s1 s2 =>
    hsecond.settled.touchesNull_frame hguards2 hs2 (hs2.frame_right s1) s2
  have hhs : ∀ s, (∀ p ∈ hs, (p.flatten true).holds s = true) ↔ ∀ p ∈ hs, p.Holds true s :=
    fun s => forall₂_congr fun p hp => (hlh p hp).holds_flatten true s
  simp only [hl.holds_flatten, hhs, Constraint.holds_clause, List.forall_mem_singleton,
    hfirst.means houter, hfirst.settled.endsWell_iff_of_exit hguards1]
  constructor
  · intro hvalid s1 s2 hhyps s1' hrun1 hnull1
    have hexit := (hfirst.settled.runs_exit_iff hguards1).mpr ⟨hrun1, hnull1⟩
    have hexit' : first.Runs t'.first (t'.pair s1 s2) (.exit (t'.pair s1' s2)) :=
      hexit.frame_of_blind hguards1.blind hs1 (hs1.frame_left hdisjoint s2) hfirst.settled
    rw [← hpair s1' s2]
    exact (hinner _ _ hexit').mp (hvalid _ hhyps _ hexit')
  · intro hsafe s hhyps s' hexit
    -- the first run leaves the second side alone
    have hs' : t'.pair s' s = s' := by
      rw [← hexit.patch hs1 hfirst.settled]
      exact State.patch_patch_of_disjoint hdisjoint s s'
    obtain ⟨hrun1, hnull1⟩ := (hfirst.settled.runs_exit_iff hguards1).mp hexit
    rw [hinner s s' hexit, ← hs', hpair]
    exact hsafe s s (by simpa [Twin.pair] using hhyps) s' hrun1 hnull1

/-- Following equal pointers adds no null access exactly if the second run touches address zero
only where the first one does. -/
theorem compareSubs_null_valid_iff_pointers : ∃ hs,
    Compares [] [pointers.hypothesis (followOnce "p") (followOnce "p")] (followOnce "p")
      (followOnce "p") pointerTwin [] hs pointersSafe
      { pointerTwin with supply := { nodes := 9 } } ∧
    (∃ φ, pointersSafe.flatten? true = .ok φ) ∧
    ∀ φ, pointersSafe.flatten? true = .ok φ → ((∀ s, φ.holds s = true) ↔
      ∀ s1 s2, (∀ h ∈ hs, (h.flatten true).holds (pointerTwin.pair s1 s2) = true) →
        ∀ s1', (followOnce "p").Runs pointerTwin.first.unhooked s1 (.exit s1') →
          ¬(followOnce "p").TouchesNull pointerTwin.first.unhooked s1 →
            ¬(followOnce "p").TouchesNull pointerTwin.second.unhooked s2) := by
  have hmeans : (pointers.hypothesis (followOnce "p") (followOnce "p")).Means _ :=
    Comparator.means_hypothesis True.intro
  obtain ⟨hs, hcomp, hφ, hiff⟩ := compareSubs_null_valid_iff ends_pointersSafe
    (List.forall_mem_singleton.mpr hmeans.tame) (sound_pointerEnv false .assume rfl)
    (sound_pointerEnv true .verify rfl) (guards_pointerEnv _ _ _ _) (guards_pointerEnv _ _ _ _)
    Sub.callFree_straight Sub.callFree_straight (isKnown_followOnce "p") (isKnown_followOnce "p")
    (by decide)
  refine ⟨hs, hcomp, hφ (wellSorted_followOnce false .assume) (wellSorted_followOnce true .verify)
    ?_, hiff⟩
  -- the hypothesis is a formula of its own
  obtain ⟨_, _, _, _, _, _, _, _, _, -, -, -, -, -, hhs, -⟩ := hcomp
  obtain ⟨c, _, hc, cs, hcs, rfl⟩ := ends_mapM_cons.mp hhs
  obtain ⟨rfl, -⟩ := ends_mapM_nil.mp hcs
  obtain ⟨-, -, -, hsorted, -⟩ := hmeans (ν := default) hc
  exact List.forall_mem_singleton.mpr hsorted

/-! ## §8 Pointers that share a symbol

As in `not_valid_iff_of_disjoint_names`, the two sides may introduce different names and still share
a constant. -/

def setPointer : Sub :=
  .straight [{ tid := .str "set", lhs := pointer "a\x00", rhs := .int 1 (.int 8) }]

/-- Two environments with a pointer whose name has a null character. -/
def sharedTwin : Twin where
  first := pointerEnv false .assume "a\x00" "a"
  second := pointerEnv true .verify "a\x00" "a"

/-- The condition that compares setting the pointer with following it. -/
def sharedSafe : Constraint :=
  .clause 5 [] [.subst 4 (followPre true .verify "a" 1 (.clause 0 [] []))
    [(pointerTerm "a", .num 8 1)]]

theorem ends_sharedSafe :
    (compareSubs [] [] setPointer (followOnce "a\x00")).Ends sharedTwin sharedSafe
      { sharedTwin with supply := { nodes := 6 } } :=
  ends_compareSubs.mpr ⟨_, _, sharedTwin, sharedTwin,
    { sharedTwin with supply := { nodes := 1 } }, { sharedTwin with supply := { nodes := 4 } },
    { sharedTwin with supply := { nodes := 5 } }, { sharedTwin with supply := { nodes := 5 } },
    _, _, _, ⟨rfl, rfl⟩, rfl, rfl, rfl, rfl, rfl, rfl⟩

/-- The condition is always true: the second side follows the pointer that the first one set. -/
theorem holds_sharedSafe (s : State) : sharedSafe.Holds true s := by
  have hover : (pointedByte true "a").Over fun _ srt => srt ≠ .bool :=
    .app (by simp) (by simpa using ⟨.const (by simp), .const (by simp)⟩)
  have hfits : ∀ s : State, ((pointedByte true "a").eval s).Fits (.bits 8) := fun s =>
    Term.eval_fits (.app (by simpa using ⟨.const _ _, .const _ _⟩) rfl) s
  have hsafe : ∀ s : State, (Constraint.goal 2 "non-null load at follow"
      (.app .distinct [.num 8 0, .const (.text "a") (.bits 8)])).Holds true
        (s.set (.text "a") (.bits 8) (.bits 8 1)) := fun s => Constraint.holds_goal.mpr rfl
  have hrest : ∀ s : State, (Constraint.subst 1 (.clause 0 [] [])
      [(.const (.text "a") (.bits 8), pointedByte true "a")]).Holds true s := fun s => by
    rw [Constraint.holds_subst (.inr (by simp)) hover (hfits s)]
    simp
  rw [sharedSafe, Constraint.holds_clause, List.forall_mem_singleton, pointerTerm,
    Constraint.holds_subst (.inr (by simp)) (.num 8 1) (by simp [Value.Fits]), followPre,
    Constraint.holds_clause, List.forall_mem_cons, List.forall_mem_singleton]
  exact fun _ _ => ⟨hsafe s, hrest _⟩

theorem touchesNull_followShared :
    (followOnce "a\x00").TouchesNull sharedTwin.second.unhooked .zero :=
  ⟨(follow "a\x00").rhs, .zero, ⟨_, _, _, Sub.flow_straight _, rfl,
    .here rfl rfl (@Blk.Evaluates.rhs _ _ _ [] _ _ _ rfl rfl)⟩, _, List.mem_singleton_self _, rfl⟩

/-- It is not enough that the two sides introduce different names. -/
theorem not_null_valid_iff_of_disjoint_names :
    ¬∀ (hyps : List (Compare Constraint)) (first second : Sub) (t t' : Twin) (c : Constraint)
      (φ : Term), (compareSubs [] hyps first second).Ends t c t' → (∀ act ∈ hyps, act.Tame) →
      t.first.Sound → t.second.Sound → t.first.Guards .assume → t.second.Guards .verify →
      t.second.freshened = true → first.CallFree → second.CallFree → first.IsKnown →
      second.IsKnown → (∀ x ∈ t'.first.introduced, x ∉ t'.second.introduced) →
      c.flatten? true = .ok φ →
      ∃ hs, Compares [] hyps first second t [] hs c t' ∧
        ((∀ s, φ.holds s = true) ↔
          ∀ s1 s2, (∀ h ∈ hs, (h.flatten true).holds (t'.pair s1 s2) = true) →
            ∀ s1', first.Runs t'.first.unhooked s1 (.exit s1') →
              ¬first.TouchesNull t'.first.unhooked s1 →
                ¬second.TouchesNull t'.second.unhooked s2) := by
  intro hall
  have hguards1 : sharedTwin.first.Guards .assume := guards_pointerEnv _ _ _ _
  have hguards2 : sharedTwin.second.Guards .verify := guards_pointerEnv _ _ _ _
  have hs1 : sharedTwin.first.Sound := sound_pointerEnv false .assume rfl
  have hs2 : sharedTwin.second.Sound := sound_pointerEnv true .verify rfl
  have hknown1 : setPointer.IsKnown := Sub.isKnown_straight (by simp [Expr.isKnown])
  have hknown2 := isKnown_followOnce "a\x00"
  have hcoherent : sharedSafe.Coherent := .of_nodup (by decide)
  obtain ⟨hflatten, hholds⟩ := hcoherent.flatten?_eq (by simp [sharedSafe, followPre,
    Replacement.keepsSorts, pointerTerm, pointedByte, pointedTerm, byteTerm, Term.sort]) true
  obtain ⟨hs, hcomp, hiff⟩ := hall _ _ _ _ _ _ _ ends_sharedSafe (by simp) hs1 hs2 hguards1
    hguards2 rfl Sub.callFree_straight Sub.callFree_straight hknown1 hknown2 (by decide) hflatten
  obtain rfl : hs = [] := by
    obtain ⟨_, _, _, _, _, _, _, _, _, -, -, -, -, -, hhs, -⟩ := hcomp
    exact (ends_mapM_nil.mp hhs).1.symm
  -- the first run leaves and touches nothing, yet the second one follows a null pointer
  have hexit : setPointer.Runs sharedTwin.first .zero
      (.exit (State.zero.set (.text "a") (.bits 8) (.bits 8 1))) := Sub.runs_straight rfl
  have hnull : ¬setPointer.TouchesNull sharedTwin.first.unhooked .zero := by
    rw [← Sub.runs_stop_iff hguards1 hexit]
    rintro ⟨⟩
  exact hiff.mp (fun s => (hholds s).mpr (holds_sharedSafe s)) .zero .zero
    (by simp) _ hexit.unhooked hnull touchesNull_followShared

end Antecedent
