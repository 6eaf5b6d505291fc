import Antecedent.Decide.Solve
import Antecedent.Proofs.Exactness
import Antecedent.Proofs.Recall

/-!
# What a verdict means

The analysis of one program asks a solver whether the hypotheses on entry imply the precondition of
a subroutine.  Its answer is about runs without a bound if no cut can be reached, and about those
that leave before a cut otherwise.

* `Sub.Leaves` are the runs without a bound.
* `Question.Poses` says what the question about one subroutine is made of.
* `single_verdict` says what each answer means, for a solver that is right.
-/

namespace Antecedent

/-! ## §1 Runs without a bound -/

/-- Runs from a block to the end of the subroutine; no loop is cut. -/
inductive Flow.Leaves (f : Flow) (e : Environment) : Label → State → State → Prop where
  /-- Control leaves the subroutine. -/
  | leave {l : Label} {s s' : State} {n : Node} {j : Option Jmp}
      (hnode : f.graph.node? l = some n) (hrun : n.block.run e s = .ok (s', j))
      (hafter : f.graph.after n j = some .outside) : Leaves f e l s s'
  /-- Control goes to another block. -/
  | go {l l' : Label} {s s' s'' : State} {n : Node} {j : Option Jmp}
      (hnode : f.graph.node? l = some n) (hrun : n.block.run e s = .ok (s', j))
      (hafter : f.graph.after n j = some (.block l'))
      (next : Leaves f e (f.graph.resolve l') s' s'') : Leaves f e l s s''

/-- Runs of a subroutine from its first block to the end; no loop is cut. -/
def Sub.Leaves (sub : Sub) (e : Environment) (s s' : State) : Prop :=
  if sub.blks.isEmpty then s' = s
  else ∃ f n rest, sub.flow = .ok f ∧ f.graph = n :: rest ∧ f.Leaves e n.label s s'

section Leaves

variable {e : Environment} {s s' s'' : State}

theorem Flow.node?_of_node {f : Flow} {k : Key} {n : Node} (h : f.node k = .ok n) :
    f.graph.node? k.label = some n := by
  unfold node at h
  split at h
  · next hn =>
    cases h
    exact hn
  · cases h

theorem Flow.Runs.leaves {f : Flow} {k : Key} {o : Ending} (h : f.Runs e k s o)
    (ho : o = .exit s') : f.Leaves e k.label s s' := by
  induction h with
  | cut => cases ho
  | stop _ _ hrun =>
    obtain ⟨_, _, hstop⟩ := Blk.objection_of_run hrun
    exact absurd (ho ▸ hstop) Environment.objection?_ne_exit
  | leave _ hnode hrun hafter =>
    cases ho
    exact .leave (node?_of_node hnode) hrun hafter
  | go _ hnode hrun hafter _ ih => exact .go (node?_of_node hnode) hrun hafter (ih ho)

theorem Sub.Runs.leaves {sub : Sub} (h : sub.Runs e s (.exit s')) : sub.Leaves e s s' := by
  unfold Runs at h
  unfold Leaves
  split
  · next hempty =>
    rw [if_pos hempty] at h
    exact Ending.exit.inj h
  · next hempty =>
    rw [if_neg hempty] at h
    obtain ⟨f, n, rest, hf, hcons, hruns⟩ := h
    exact ⟨f, n, rest, hf, hcons, hruns.leaves rfl⟩

end Leaves

/-! ## §2 The question -/

/-- What the question about a subroutine is made of: under the hypotheses on entry the user's
precondition implies the precondition of the subroutine for the user's postcondition. -/
structure Question.Poses (q : Question) (o : Options) (f : Sub) (given post pre : Constraint) :
    Prop where
  listed : ∃ ν n, q.condition.Listed ν n
  ready : ∃ arch, q.first.Ready arch [] false
  records : ∃ vs, q.first.relevantVars f = .ok vs ∧ q.first.Records vs
  meets : f.Meets q.first post pre
  below : pre ∈ q.condition.subtrees
  holds : ∀ b s, q.condition.Holds b s ↔ (q.first.SpInRange s →
    (∀ v, q.first.Matters f v → v.Entered q.first s) → given.Holds b s → pre.Holds b s)
  given : ∀ b s, given.Holds b s ↔
    ∀ g ∈ q.first.assertions o.precond, g.holds (s.cutAs b) = true
  post : ∀ b s, post.Holds b s ↔
    ∀ g ∈ q.first.assertions o.postcond, g.holds (s.cutAs b) = true

theorem Build.records_entryHypotheses {σ σ' : Session} {f : Sub} {cs : List Constraint}
    (h : (entryHypotheses f).Ends σ cs σ') (hnamed : σ.env.Named) (hinits : σ.env.inits = []) :
    ∃ vs, σ'.env.relevantVars f = .ok vs ∧ σ'.env.Records vs ∧
      (∀ v ∈ f.vars, v.Within σ'.env.Knows) ∧ σ'.env.memVar.Within σ'.env.Knows := by
  simp only [entryHypotheses, ends_bind, ends_env, ends_lift] at h
  obtain ⟨_, _, ⟨rfl, rfl⟩, vs, _, ⟨hvs, rfl⟩, h⟩ := h
  have hnone : σ.env.Records vs := by simp [Environment.Records, hinits]
  obtain ⟨hgrows, -, hrecords, hall⟩ := records_entryValues h hnamed hnone fun _ hv => hv
  -- a variable is known under the name of one that matters
  have hwithin : ∀ v, v ∈ f.vars ∨ v = σ.env.memVar → v.Within σ'.env.Knows := by
    intro v hv
    obtain ⟨u, hu, hname⟩ := Environment.exists_name_of_relevantVars hvs (hv.imp_right .inl)
    obtain ⟨base, t, hbase, ht⟩ := hall u hu
    obtain ⟨l, hl, hfind⟩ := ht
    refine Environment.Gives.within (t := t) ⟨l, ?_, hfind⟩
    rw [hname base hbase, ← hbase]
    exact hl
  refine ⟨vs, by rw [hgrows.relevantVars, hvs], hrecords, fun v hv => hwithin v (.inl hv), ?_⟩
  rw [hgrows.memVar]
  exact hwithin _ (.inr rfl)

/-- **The analysis of one program asks this question.** -/
theorem Options.ends_single {o : Options} {d : Defaults} {p : Program} {f : Sub}
    {supply supply' : Supply} {q : Question} (h : (o.single d p f).Ends supply q supply')
    (hnull : o.checkNull = false) (hcalls : f.CallFree) (hknown : f.IsKnown) :
    ∃ given post pre, q.Poses o f given post pre := by
  simp only [single, ends_bind, ends_pure, Setup.ends_build] at h
  obtain ⟨e, supply0, he, ⟨condition, e'⟩, supply1, h, rfl, rfl⟩ := h
  obtain ⟨hready, -⟩ := Options.ends_environment he
  obtain ⟨hnamed, hinits⟩ := Options.named_environment he
  rw [verifiedHooks, hnull] at hready
  obtain ⟨inits, σ1, h1, h⟩ := ends_bind.mp h
  obtain ⟨range, σ2, h2, h⟩ := ends_bind.mp h
  obtain ⟨ν1, hb1, hl1, -, hentered⟩ := Build.ends_entryHypotheses (ν := fun _ => default) h1
  obtain ⟨vs, hvs, hrecords, hvars, hmem⟩ := Build.records_entryHypotheses h1 hnamed hinits
  have hready1 := hready.grows hb1.step.env (hb1.step.sound hready.sound)
  obtain ⟨ν2, hb2, hl2, -, hrange⟩ := Build.ends_stackInRange (ν := ν1) h2
  -- nothing that is looked up from here on is new
  have hstable : Stable σ1.env.Fixed σ1.env.Knows fun _ => False :=
    Environment.stable_fixed (fun r v hv => (hready1.registers r v hv).choose_spec.within) hmem
  have hfixed2 : σ1.env.Fixed σ2 := hstable.stackInRange.ends h2 ⟨rfl, rfl, rfl, rfl⟩
  -- the postcondition, if there is one
  obtain ⟨post, σ3, ν3, hb3, hl3, hfixed3, hpost, h⟩ : ∃ post σ3 ν3, Builds σ2 ν2 σ3 ν3 ∧
      σ3.Lists ν3 post ∧ σ1.env.Fixed σ3 ∧
      (∀ e : Environment, e.Fixed σ2 → ∀ b s,
        post.Holds b s ↔ ∀ g ∈ e.assertions o.postcond, g.holds (s.cutAs b) = true) ∧
      (do
        let pre ← precondition post f
        let given ← Build.conditionOn "precondition" o.precond
        Build.clause (range :: inits) [← Build.clause [given] [pre]]).Ends σ3 condition
        ⟨supply1, e'⟩ := by
    dsimp only at h
    split at h
    · next hempty =>
      obtain ⟨post, σ3, h3, h⟩ := ends_bind.mp h
      obtain ⟨i, ν3, rfl, hb3, hl3⟩ := Build.ends_goal (ν := ν2) h3
      refine ⟨_, σ3, ν3, hb3, hl3, (hstable.goal _ _).ends h3 hfixed2, fun e _ b s => ?_, h⟩
      have hnone : e.assertions o.postcond = [] := by
        rw [Environment.assertions, String.isEmpty_iff.mp hempty]
        rfl
      simp [hnone]
    · obtain ⟨post, σ3, h3, h⟩ := ends_bind.mp h
      obtain ⟨ν3, hb3, hl3, -, hpost⟩ := Build.ends_conditionOn (ν := ν2) h3
      exact ⟨post, σ3, ν3, hb3, hl3, (hstable.conditionOn _ _).ends h3 hfixed2, hpost, h⟩
  simp only [ends_bind] at h
  obtain ⟨pre, σ4, h4, given, σ5, h5, inner, σ6, h6, h7⟩ := h
  have hgrows3 := (hb1.step.env.trans hb2.step.env).trans hb3.step.env
  have hhooks3 : σ3.env.hooks = [] := hgrows3.hooks.trans hready.hooks
  obtain ⟨ν4, hb4, hl4, hmeets⟩ := Build.ends_precondition h4
    ((hb2.trans hb3).step.sound hready1.sound) (by simp [hhooks3]) hcalls hknown hl3
  have hwithin : f.Within σ1.env.Knows fun _ => False :=
    ⟨hvars, fun b hb j hj hkind => absurd hkind (hcalls b hb j hj)⟩
  have hfixed4 := (hstable.precondition post hwithin).ends h4 hfixed3
  obtain ⟨ν5, hb5, hl5, -, hgiven⟩ := Build.ends_conditionOn (ν := ν4) h5
  have hfixed5 := (hstable.conditionOn _ _).ends h5 hfixed4
  obtain ⟨i, ν6, rfl, hb6, hl6⟩ := Build.ends_clause (ν := ν5) h6 (by simpa using hl5)
    (by simpa using hb5.lists hl4)
  have hfixed6 := (hstable.clause _ _).ends h6 hfixed5
  have hb26 := ((hb3.trans hb4).trans hb5).trans hb6
  obtain ⟨j, ν7, rfl, hb7, hl7⟩ := Build.ends_clause (ν := ν6) h7
    (List.forall_mem_cons.mpr ⟨hb26.lists hl2, fun c hc => (hb2.trans hb26).lists (hl1 c hc)⟩)
    (by simpa using hl6)
  have hfixed7 : σ1.env.Fixed ⟨supply1, e'⟩ := (hstable.clause _ _).ends h7 hfixed6
  -- what the parts mean at the end
  have hgrows2 := hb26.step.env.trans hb7.step.env
  have hready' := hready1.grows (hb2.step.env.trans hgrows2)
    ((hb7.step.sound ∘ hb26.step.sound ∘ hb2.step.sound) hready1.sound)
  have hvars' : e'.vars = σ1.env.vars := hfixed7.1
  have hinits' : e'.inits = σ1.env.inits := hfixed7.2.1
  have hrecords' : e'.Records vs := by
    unfold Environment.Records Environment.findVar?
    rw [hvars', hinits']
    exact hrecords
  refine ⟨given, post, pre, ⟨ν7, _, hl7⟩, ⟨_, hready'⟩,
    ⟨vs, by rw [(hb2.step.env.trans hgrows2).relevantVars, hvs], hrecords'⟩,
    hmeets e' ((hb5.trans hb6).trans hb7).step.env hready'.sound, ?_, fun b s => ?_,
    hgiven e' (hfixed4.both hfixed7), hpost e' (hfixed2.both hfixed7)⟩
  · have hinner := Constraint.mem_subtrees_of_child
      (Constraint.mem_subtrees_self (.clause j (range :: inits) [.clause i [given] [pre]]))
      (k := .clause i [given] [pre]) (by simp [Constraint.children])
    exact Constraint.mem_subtrees_of_child hinner (by simp [Constraint.children])
  · rw [Constraint.holds_clause, List.forall_mem_cons, hrange e' hgrows2 hready'.sound b s,
      hentered e' (hb2.step.env.trans hgrows2) hready'.sound b s]
    simp

/-! ## §3 Answers -/

/-- Whether a solver is right whenever it decides: what it finds valid is true in every state, and
what it finds invalid is false in the state that it gives. -/
structure Solver.Sound (solver : Solver) : Prop where
  valid : ∀ {φ : Term}, solver φ = .valid → ∀ s, φ.holds s = true
  invalid : ∀ {φ : Term} {m : Model}, solver φ = .invalid m → φ.holds m.state = false

namespace Question.Poses

variable {q : Question} {o : Options} {f : Sub} {given post pre : Constraint} {b : Bool}
  {s t : State} (hq : q.Poses o f given post pre)
include hq

theorem hasCuts (hrun : f.Runs q.first s .cut) : q.condition.hasCuts = true := by
  obtain ⟨ν, n, hlisted⟩ := hq.listed
  obtain ⟨d, hd, hcut⟩ := hq.meets.cuts s hrun
  rw [Constraint.hasCuts, List.any_eq_true]
  exact ⟨d, (hlisted.mem_nodes d).mpr (Constraint.subtrees_trans hq.below hd), hcut⟩

omit hq in
/-- Formulas over the constants of an environment do not see the cuts. -/
theorem holds_cutAs (hs : q.first.Sound) {g : Term} (hg : g.Proper q.first.Declares) :
    g.holds (s.cutAs b) = g.holds s := by
  rw [Term.holds, Term.eval_cutAs, Term.holds]
  refine hg.uses.mono fun name srt hdecl => ?_
  obtain ⟨name', srt', heq, hne, -⟩ := hs _ hdecl
  cases heq
  exact hne

variable (hapart : q.first.Apart)
include hapart

/-- **Where the question is true**, the run from a state that meets the conditions on entry leaves
in a state that meets the condition on exit, or is cut and cuts count as true. -/
theorem leaves_or_cut (hsorted : q.condition.Sorted)
    (hpre : q.first.Parses o.precond)
    (hpost : q.first.Parses o.postcond)
    (hvalid : ∀ s, q.condition.Holds b s) (hsp : q.first.SpInRange s)
    (hgiven : q.first.Says o.precond s s) :
    (∃ s', f.Runs q.first s (.exit s') ∧ q.first.Says o.postcond s s') ∨
      (f.Runs q.first s .cut ∧ b = true) := by
  obtain ⟨arch, hready⟩ := hq.ready
  obtain ⟨vs, -, hrecords⟩ := hq.records
  -- the question is asked where the entry values are recalled
  have hentry : pre.Holds b (q.first.recall s s) := by
    refine (hq.holds b _).mp (hvalid _) ((hapart.spInRange_recall hready).mpr hsp)
      (fun v _ => hrecords.entered_recall hapart hready.sound v) ((hq.given b _).mpr ?_)
    intro g hg
    rw [holds_cutAs hready.sound (hpre g hg)]
    exact hgiven g hg
  have hwell := (hq.meets.means (hsorted.of_mem hq.below) b _).mp hentry
  rw [Sub.endsWell_iff hready.hooks] at hwell
  -- and the run goes the same way from there
  have hframe := q.first.frame_recall hapart s
  have hback : ∀ o, f.Runs q.first (q.first.recall s s) o →
      ∃ o', f.Runs q.first s o' ∧ o'.map (q.first.recall s) = o :=
    fun o => (Sub.runs_frame_iff hready.hooks hready.sound hframe hq.meets.settled).mp
  rcases hwell with ⟨s1, hrun, hholds⟩ | ⟨hrun, hb⟩
  · obtain ⟨o', hrun', ho'⟩ := hback _ hrun
    cases o' with
    | exit s' =>
      obtain rfl : q.first.recall s s' = s1 := Ending.exit.inj ho'
      refine .inl ⟨s', hrun', fun g hg => ?_⟩
      have hg' := (hq.post b _).mp hholds g hg
      rwa [holds_cutAs hready.sound (hpost g hg)] at hg'
    | cut | excused | failed => cases ho'
  · obtain ⟨o', hrun', ho'⟩ := hback _ hrun
    cases o' with
    | cut => exact .inr ⟨hrun', hb⟩
    | exit | excused | failed => cases ho'

/-- **Where the question is false** although cuts count as true, the state meets the conditions on
entry, and its run leaves in a state that breaks the condition on exit. -/
theorem breaks (hsorted : q.condition.Sorted)
    (hpre : q.first.Parses o.precond)
    (hpost : q.first.Parses o.postcond)
    (hfalse : ¬q.condition.Holds true s) :
    q.first.SpInRange s ∧ q.first.Says o.precond s s ∧
      ∃ s', f.Runs q.first s (.exit s') ∧ ¬q.first.Says o.postcond s s' := by
  obtain ⟨arch, hready⟩ := hq.ready
  obtain ⟨vs, hvs, hrecords⟩ := hq.records
  rw [hq.holds] at hfalse
  simp only [Classical.not_imp] at hfalse
  obtain ⟨hsp, hentered, hgiven, hentry⟩ := hfalse
  have hall : ∀ v ∈ vs, v.Entered q.first s := fun v hv => hentered v ⟨vs, hvs, hv⟩
  have hsame : ∀ t, (∀ name srt, ¬q.first.Owns name srt → t.const name srt = s.const name srt) →
      ∀ {g : Term}, g.Proper q.first.Declares → g.holds t = g.holds (q.first.recall s t) :=
    fun t ht _ hg => Term.holds_same hg fun name srt hdecl =>
      hrecords.same_recall hapart hall ht hdecl
  refine ⟨hsp, fun g hg => ?_, ?_⟩
  · have hg' := (hq.given true s).mp hgiven g hg
    rwa [holds_cutAs hready.sound (hpre g hg), hsame s (fun _ _ _ => rfl) (hpre g hg)] at hg'
  · rw [hq.meets.means (hsorted.of_mem hq.below)] at hentry
    obtain ⟨o, hrun⟩ := hq.meets.settled.runs s
    rcases hrun.exit_or_cut hready.hooks with ⟨s', rfl⟩ | rfl
    · refine ⟨s', hrun, fun hsays => hentry ⟨_, hrun, (hq.post true s').mpr fun g hg => ?_⟩⟩
      -- the run leaves the constants of the entry values alone
      have hkept : ∀ name srt, ¬q.first.Owns name srt → s'.const name srt = s.const name srt :=
        fun name srt hne => hrun.const_eq hready.sound hq.meets.settled hne
      rw [holds_cutAs hready.sound (hpost g hg), hsame s' hkept (hpost g hg)]
      exact hsays g hg
    · exact absurd ⟨_, hrun, rfl⟩ hentry

end Question.Poses

/-! ## §4 A loop that hardly ever ends -/

/-- The name of a variable beside the register `n`: one of its own, or one whose symbol is that of
the register's entry value. -/
def spinName (clash : Bool) : String :=
  if clash then "init_n\x00" else "m"

/-- Is repeated for ever unless the register is equal to the variable. -/
def spinBlk (clash : Bool) : Blk where
  tid := .str "only"
  defs := []
  jmps := [{ tid := .str "again", kind := .goto, target := .str "only",
             cond := .binop .neq (.var counter)
               (.var { name := .str (spinName clash), width := .int 8 }) }]

def spin (clash : Bool) : Sub where
  name := .str "f"
  blks := [spinBlk clash]

def spinProgram (clash : Bool) : Program where
  arch :=
    { name := "small", addressWidth := 8, registers := [("n", 8)], returnRegister := some "n" }
  subs := [spin clash]

/-- Asks whether the register is kept where it is equal to the variable; nothing is asked of the
variable with the symbol of the entry value. -/
def spinOptions (clash : Bool) : Options where
  precond := if clash then "" else "(assert (= n m))"
  postcond := if clash then "" else "(assert (= n init_n))"
  unroll := some 0

/-- The environment of the program, with some constants. -/
def spinEnv (clash : Bool) (vars inits : List (String × Srt)) (names : List String) :
    Environment where
  arch := (spinProgram clash).arch
  subs := [spin clash]
  summaries := Summary.standard [] false
  unroll := .int 0
  vars := vars.map fun (base, srt) => (.text base, .const (.ofText base) srt)
  inits := inits.map fun (base, srt) => (base, .const (.ofText ("init_" ++ base)) srt)
  introduced := names.map .text

/-- The environment before anything is built. -/
def spinStart (clash : Bool) : Environment :=
  spinEnv clash [("n", .bits 8), ("mem", .memory 8)] [] ["mem", "n"]

/-- The environment when the entry values are named. -/
def spinEntered (clash : Bool) : Environment :=
  spinEnv clash [("n", .bits 8), ("mem", .memory 8), (spinName clash, .bits 8)]
    [(spinName clash, .bits 8), ("mem", .memory 8), ("n", .bits 8)]
    ["init_n", "init_mem", spinName clash, "init_" ++ spinName clash, "mem", "n"]

/-- The environment when the loop is cut. -/
def spinEnd (clash : Bool) : Environment :=
  { spinEntered clash with truncated := [.text "only"] }

/-- The session when the loop is cut, with some nodes. -/
def spinSession (clash : Bool) (nodes : Nat) : Session where
  supply := { nodes, warnings :=
    ["Loop at only in f unrolled 0 times; the result holds only up to this bound."] }
  env := spinEnd clash

def spinTerm (base : String) : Term :=
  .const (.ofText base) (.bits 8)

def spinInits (clash : Bool) : List Constraint :=
  [.goal 0 ("init_" ++ spinName clash)
      (.app .eq [spinTerm ("init_" ++ spinName clash), spinTerm (spinName clash)]),
    .goal 1 "init_mem"
      (.app .eq [.const (.ofText "init_mem") (.memory 8), .const (.ofText "mem") (.memory 8)]),
    .goal 2 "init_n" (.app .eq [spinTerm "init_n", spinTerm "n"])]

def spinPost (clash : Bool) : Constraint :=
  if clash then .goal 4 "true" (.lit true)
  else .goal 4 "postcondition" (.app .eq [spinTerm "n", spinTerm "init_n"])

def spinCut : Constraint :=
  .goal 5 "loop at only cut after 0 iterations" Term.loopCut

def spinAgain (clash : Bool) : Term :=
  .app .eq [.num 1 1, .app .ite [.app .distinct [spinTerm "n", spinTerm (spinName clash)], .num 1 1,
    .num 1 0]]

/-- The condition of the first entry into the loop. -/
def spinPre (clash : Bool) : Constraint :=
  .ite 6 (.str "again") (spinAgain clash) spinCut (spinPost clash)

def spinGiven (clash : Bool) : Constraint :=
  if clash then .goal 7 "true" (.lit true)
  else .goal 7 "precondition" (.app .eq [spinTerm "n", spinTerm "m"])

def spinQuestion (clash : Bool) : Question where
  condition := .clause 9 (.goal 3 "true" (.lit true) :: spinInits clash)
    [.clause 8 [spinGiven clash] [spinPre clash]]
  first := spinEnd clash
  second := spinEnd clash

section Spin

variable (clash : Bool)

theorem callFree_spin : (spin clash).CallFree := by
  simp [Sub.CallFree, spin, Blk.CallFree, spinBlk]

theorem isKnown_spin : (spin clash).IsKnown := by
  simp [Sub.IsKnown, spin, Blk.IsKnown, spinBlk, Expr.isKnown]

theorem ends_spin : ((spinOptions clash).single {} (spinProgram clash) (spin clash)).Ends {}
    (spinQuestion clash) (spinSession clash 10).supply := by
  simp only [Options.single, ends_bind, ends_pure, Setup.ends_build]
  refine ⟨spinStart clash, {}, ?_, ((spinQuestion clash).condition, spinEnd clash), _, ?_, rfl, rfl⟩
  · cases clash <;> exact rfl
  · refine ends_bind.mpr ⟨spinInits clash, ⟨{ nodes := 3 }, spinEntered clash⟩, ?_, ?_⟩
    · cases clash <;> exact rfl
    · cases clash
      · exact ends_bind.mpr ⟨.goal 3 "true" (.lit true), ⟨{ nodes := 4 }, spinEntered false⟩, rfl,
          ends_bind.mpr ⟨spinPost false, ⟨{ nodes := 5 }, spinEntered false⟩, rfl, rfl⟩⟩
      · exact rfl

theorem holds_spinEq (a b : String) (s : State) :
    (Term.app .eq [spinTerm a, spinTerm b]).holds s = true ↔
      s.word (.ofText a) 8 % 2 ^ 8 = s.word (.ofText b) 8 % 2 ^ 8 := by
  simp [spinTerm, Term.holds, Op.eval, State.const, Value.same, Value.isTrue]

theorem holds_spinAgain (s : State) : (spinAgain clash).holds s = true ↔
    ¬(Term.app .eq [spinTerm "n", spinTerm (spinName clash)]).holds s = true := by
  rw [holds_spinEq]
  by_cases h : s.word (.ofText "n") 8 % 256 = s.word (.ofText (spinName clash)) 8 % 256 <;>
    simp [spinAgain, spinTerm, Term.holds, Op.eval, State.const, allDistinct, Value.same,
      Value.isTrue, h]

/-- The question is true in all states, whether cuts count as true or as false: the hypothesis that
names the entry value of the register is about the variable if that has its symbol. -/
theorem holds_spin (b : Bool) (s : State) : (spinQuestion clash).condition.Holds b s := by
  simp only [spinQuestion, spinInits, spinPre, Constraint.holds_clause, Constraint.holds_ite,
    Constraint.holds_goal, List.forall_mem_cons, List.not_mem_nil, false_imp_iff, implies_true,
    and_true, holds_spinAgain]
  rintro ⟨-, -, -, hinit⟩ hgiven
  rw [holds_spinEq] at hinit
  have hequal :
      (Term.app .eq [spinTerm "n", spinTerm (spinName clash)]).holds (s.cutAs b) = true := by
    cases clash
    · exact Constraint.holds_goal.mp hgiven
    · exact (holds_spinEq _ _ _).mpr hinit.symm
  rw [if_neg (not_not.mpr hequal)]
  cases clash
  · exact Constraint.holds_goal.mpr ((holds_spinEq _ _ _).mpr hinit.symm)
  · exact Constraint.holds_goal.mpr rfl

theorem flatten_spin : (∃ ν n, (spinQuestion clash).condition.Listed ν n) ∧
    (spinQuestion clash).condition.flatten? true =
      .ok ((spinQuestion clash).condition.flatten true) := by
  obtain ⟨_, _, _, hposes⟩ :=
    Options.ends_single (ends_spin clash) rfl (callFree_spin clash) (isKnown_spin clash)
  obtain ⟨ν, n, hl⟩ := hposes.listed
  refine ⟨⟨ν, n, hl⟩, hl.flatten?_eq_ok.mpr ⟨?_, rfl⟩⟩
  cases clash <;> simp [spinQuestion, spinInits, spinGiven, spinPre, spinPost, spinCut]

def spinSolver : Solver := fun φ =>
  if ∃ b, φ = (spinQuestion clash).condition.flatten b then .valid else .unknown "unknown"

theorem sound_spinSolver : (spinSolver clash).Sound := by
  obtain ⟨⟨ν, n, hl⟩, -⟩ := flatten_spin clash
  constructor
  · intro φ hφ s
    unfold spinSolver at hφ
    split at hφ
    · next hknown =>
      obtain ⟨b, rfl⟩ := hknown
      exact (hl.holds_flatten b s).mpr (holds_spin clash b s)
    · cases hφ
  · intro φ m hφ
    unfold spinSolver at hφ
    split at hφ <;> cases hφ

theorem check_spin :
    check (spinSolver clash) (spinQuestion clash).condition = .proved true := by
  have hvalid : ∀ b, spinSolver clash ((spinQuestion clash).condition.flatten b) = .valid :=
    fun b => if_pos ⟨b, rfl⟩
  simp [check, hvalid]

end Spin

theorem apart_spin : (spinEnd false).Apart := by
  intro base name srt hmem howns
  simp only [spinEnd, spinEntered, spinEnv, spinName, Environment.Owns, List.map_cons, List.map_nil,
    List.mem_cons, Prod.mk.injEq, Term.const.injEq, List.not_mem_nil, or_false] at hmem howns
  rcases hmem with ⟨-, rfl, rfl⟩ | ⟨-, rfl, rfl⟩ | ⟨-, rfl, rfl⟩ <;> revert howns <;> decide

theorem proper_spinEq {a b : String} (ha : a ∈ ["n", "m", "init_n"])
    (hb : b ∈ ["n", "m", "init_n"]) :
    (Term.app .eq [spinTerm a, spinTerm b]).Proper (spinEnd false).Declares := by
  have hdeclares : ∀ a ∈ ["n", "m", "init_n"], (spinEnd false).Declares (.ofText a) (.bits 8) := by
    simp [Environment.Declares, Environment.constants, spinEnd, spinEntered, spinEnv, spinName]
  have hsort : Op.eq.sort? ([spinTerm a, spinTerm b].map Term.sort) = some .bool := by
    simp [spinTerm, Term.sort, Op.sort?]
  refine ⟨.app ?_ hsort, .app (by simp) ?_⟩
  · simpa using ⟨.const _ _, .const _ _⟩
  · simpa using ⟨.const (hdeclares a ha), .const (hdeclares b hb)⟩

theorem proper_spin : (∀ g ∈ (spinEnd false).assertions (spinOptions false).precond,
      g.Proper (spinEnd false).Declares) ∧
    ∀ g ∈ (spinEnd false).assertions (spinOptions false).postcond,
      g.Proper (spinEnd false).Declares := by
  have hpre : (spinEnd false).assertions (spinOptions false).precond =
      [.app .eq [spinTerm "n", spinTerm "m"]] := rfl
  have hpost : (spinEnd false).assertions (spinOptions false).postcond =
      [.app .eq [spinTerm "n", spinTerm "init_n"]] := rfl
  rw [hpre, hpost]
  simp only [List.forall_mem_singleton]
  exact ⟨proper_spinEq (by decide) (by decide), proper_spinEq (by decide) (by decide)⟩

/-- A state in which the register differs from the variable. -/
def spinState : State :=
  { State.zero with word := fun name _ => if name = .text "n" then 1 else 0 }

/-- The block leads back to itself. -/
def spinFlow : Flow :=
  ⟨.str "f", [⟨.text "only", spinBlk true, [.text "only"]⟩], [(.text "only", [.text "only"])]⟩

theorem not_leaves_spinFlow {l : Label} {s s' : State}
    (h : spinFlow.Leaves (spinEnd true) l s s') (hl : l = .text "only")
    (hs : s = spinState) : False := by
  have hrun : (spinBlk true).run (spinEnd true) spinState =
      .ok (spinState, (spinBlk true).jmps.head?) :=
    rfl
  induction h with
  | leave hnode hblk hafter =>
    subst hs hl
    cases hnode
    cases hrun.symm.trans hblk
    cases hafter
  | go hnode hblk hafter _ ih =>
    subst hs hl
    cases hnode
    cases hrun.symm.trans hblk
    cases hafter
    exact ih rfl rfl

/-- From that state the loop never ends. -/
theorem not_leaves_spin {s' : State} : ¬(spin true).Leaves (spinEnd true) spinState s' := by
  rw [Sub.Leaves, if_neg (by decide)]
  rintro ⟨f, n, rest, hf, hcons, hleaves⟩
  obtain rfl : spinFlow = f := Except.ok.inj hf
  cases hcons
  exact not_leaves_spinFlow hleaves rfl rfl

/-! ## §5 Verdicts -/

/-- **What the verdict on a program means**, for a solver that is right.  An exact proof says that
from every state with the stack pointer in range that meets the precondition the run of the
subroutine, without any bound, leaves in a state that meets the postcondition.  A proof that is not
exact says so of the runs that leave before they are cut.  A refutation says that there is a run
that leaves before it is cut in a state that breaks the postcondition.  The names of entry values in
either condition stand for the values on entry. -/
theorem single_verdict {o : Options} {d : Defaults} {p : Program} {f : Sub}
    {supply supply' : Supply} {q : Question} {φ : Term} {solver : Solver}
    (hq : (o.single d p f).Ends supply q supply') (hnull : o.checkNull = false)
    (hcalls : f.CallFree) (hknown : f.IsKnown) (hflat : q.condition.flatten? true = .ok φ)
    (hapart : q.first.Apart)
    (hpre : q.first.Parses o.precond)
    (hpost : q.first.Parses o.postcond)
    (hsolver : solver.Sound) :
    match check solver q.condition with
    | .proved true => ∀ s, q.first.SpInRange s → q.first.Says o.precond s s →
        ∃ s', f.Leaves q.first s s' ∧ q.first.Says o.postcond s s'
    | .proved false => ∀ s s', q.first.SpInRange s → q.first.Says o.precond s s →
        f.Runs q.first s (.exit s') → q.first.Says o.postcond s s'
    | .refuted _ => ∃ s s', q.first.SpInRange s ∧ q.first.Says o.precond s s ∧
        f.Runs q.first s (.exit s') ∧ ¬q.first.Says o.postcond s s'
    | .unknown _ => True := by
  obtain ⟨given, post, pre, hposes⟩ := Options.ends_single hq hnull hcalls hknown
  obtain ⟨ν, n, hlisted⟩ := hposes.listed
  obtain ⟨hsorted, -⟩ := hlisted.flatten?_eq_ok.mp hflat
  have hvalid : ∀ b, solver (q.condition.flatten b) = .valid → ∀ s, q.condition.Holds b s :=
    fun b h s => (hlisted.holds_flatten b s).mp (hsolver.valid h s)
  cases htrue : solver (q.condition.flatten true) with
  | unknown reason =>
    simp only [check, htrue]
  | invalid m =>
    simp only [check, htrue]
    have hfalse : ¬q.condition.Holds true m.state := by
      rw [← hlisted.holds_flatten, hsolver.invalid htrue]
      simp
    obtain ⟨hsp, hgiven, s', hrun, hbroken⟩ := hposes.breaks hapart hsorted hpre hpost hfalse
    exact ⟨m.state, s', hsp, hgiven, hrun, hbroken⟩
  | valid =>
    have hbounded : ∀ s s', q.first.SpInRange s → q.first.Says o.precond s s →
        f.Runs q.first s (.exit s') → q.first.Says o.postcond s s' := by
      intro s s' hsp hgiven hrun
      rcases hposes.leaves_or_cut hapart hsorted hpre hpost (hvalid true htrue) hsp hgiven with
        ⟨s1, hrun1, hsays⟩ | ⟨hcut, -⟩
      · cases hrun.unique hrun1
        exact hsays
      · cases hrun.unique hcut
    -- a proof is exact if there are no cuts, or if it holds where cuts count as false
    have hexact : (∃ b, (∀ s, q.condition.Holds b s) ∧ (b = true → q.condition.hasCuts = false)) →
        ∀ s, q.first.SpInRange s → q.first.Says o.precond s s →
          ∃ s', f.Leaves q.first s s' ∧ q.first.Says o.postcond s s' := by
      rintro ⟨b, hall, hcuts⟩ s hsp hgiven
      rcases hposes.leaves_or_cut hapart hsorted hpre hpost hall hsp hgiven with
        ⟨s', hrun, hsays⟩ | ⟨hcut, hb⟩
      · exact ⟨s', hrun.leaves, hsays⟩
      · have hcut := hposes.hasCuts hcut
        rw [hcuts hb] at hcut
        cases hcut
    cases hcuts : q.condition.hasCuts with
    | false =>
      simp only [check, htrue, hcuts, Bool.false_eq_true, if_false]
      exact hexact ⟨true, hvalid true htrue, fun _ => hcuts⟩
    | true =>
      cases hfalse : solver (q.condition.flatten false) with
      | valid =>
        simp only [check, htrue, hcuts, if_true, hfalse]
        exact hexact ⟨false, hvalid false hfalse, by simp⟩
      | invalid m =>
        simp only [check, htrue, hcuts, if_true, hfalse]
        exact hbounded
      | unknown reason =>
        simp only [check, htrue, hcuts, if_true, hfalse]
        exact hbounded

/-- Where the register is equal to the variable, the loop ends at once and the register is kept. -/
theorem single_verdict_spin :
    check (spinSolver false) (spinQuestion false).condition = .proved true ∧
      ∀ s, (spinQuestion false).first.SpInRange s →
        (spinQuestion false).first.Says (spinOptions false).precond s s →
        ∃ s', (spin false).Leaves (spinQuestion false).first s s' ∧
          (spinQuestion false).first.Says (spinOptions false).postcond s s' := by
  obtain ⟨hpre, hpost⟩ := proper_spin
  have hverdict := single_verdict (ends_spin false) rfl (callFree_spin false) (isKnown_spin false)
    (flatten_spin false).2 apart_spin hpre hpost (sound_spinSolver false)
  rw [check_spin] at hverdict
  exact ⟨check_spin false, hverdict⟩

/-- That no variable has the name of another one's entry value is not enough for an exact proof to
say that runs leave: a variable whose name goes on after a null character shares the symbol. -/
theorem not_leaves_of_names_apart :
    ¬∀ (o : Options) (d : Defaults) (p : Program) (f : Sub) (supply supply' : Supply) (q : Question)
      (φ : Term) (solver : Solver), (o.single d p f).Ends supply q supply' → o.checkNull = false →
      f.CallFree → f.IsKnown → q.condition.flatten? true = .ok φ →
      (∀ base, .text base ∈ q.first.vars.map (·.1) →
        .text (Environment.initMark ++ base) ∉ q.first.vars.map (·.1)) →
      q.first.Parses o.precond → q.first.Parses o.postcond → solver.Sound →
      check solver q.condition = .proved true →
      ∀ s, q.first.SpInRange s → q.first.Says o.precond s s →
        ∃ s', f.Leaves q.first s s' ∧ q.first.Says o.postcond s s' := by
  intro hall
  have hnames : ∀ base ∈ ["n", "mem", "init_n\x00"],
      .text (Environment.initMark ++ base) ∉ (spinQuestion true).first.vars.map (·.1) := by
    decide
  obtain ⟨s', hleaves, -⟩ := hall _ _ _ _ _ _ _ _ _ (ends_spin true) rfl (callFree_spin true)
    (isKnown_spin true) (flatten_spin true).2
    (fun base hbase => hnames base
      (by simpa [spinQuestion, spinEnd, spinEntered, spinEnv, spinName] using hbase))
    (fun g hg => by cases hg) (fun g hg => by cases hg) (sound_spinSolver true) (check_spin true)
    spinState (fun name v h => by cases h) (fun g hg => by cases hg)
  exact not_leaves_spin hleaves

end Antecedent
