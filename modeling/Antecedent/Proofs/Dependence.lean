import Antecedent.Proofs.Callees
import Antecedent.Proofs.Carrying
import Antecedent.Proofs.Exactness

/-!
# What preconditions depend on

The variables that matter to a subroutine are found by one search, and read by another: the walk of
the subroutine, of callees that are inlined, and the summaries of the other calls.  Where callees
declare no other inputs, the precondition depends on nothing but the variables that matter, the
condition on exit and what the walk makes up.

* `Environment.Covers` says that the calls of a subroutine read variables that matter only.
* `Constraint.Reacts` says that a tree depends on what may be read.
* `precondition_eq_of_sameFor` is the result.
-/

namespace Antecedent

variable {e : Environment} {name : Symbol} {vs : List Var} {V : Symbol → Srt → Prop} {s s' : State}

/-! ## §1 What may be read -/

theorem Environment.IsFresh.grows {e' : Environment} (h : e.IsFresh name) (hg : e.Grows e') :
    e'.IsFresh name := by
  obtain ⟨stem, n, l, hl, hmem, hname⟩ := h
  refine ⟨stem, n, l, ?_, hg.introduced.subset hmem, hname⟩
  rw [← hl, Environment.localName, Environment.localName, hg.freshened]

/-- The calls that a subroutine leads to read variables that matter only: every input that a callee
declares has the name of one, and calls without a target do not have the name of a subroutine. -/
structure Environment.Covers (e : Environment) (sub : Sub) (vs : List Var) : Prop where
  args : ∀ g g', e.Reaches sub g → e.Invokes g g' → ∀ a ∈ g'.args, Build.isInput a = true →
    ∃ u ∈ vs, a.var.name.alike u.name = true
  indirect : ∀ g, e.Reaches sub g → ∀ b ∈ g.blks, ∀ j ∈ b.jmps, j.kind = .call →
    j.target.truthy = false → ∀ name, j.callee = .ok name → e.findSub? name = none

/-- The constants that the walk of a subroutine reads: those of variables that matter, those that it
makes up, those of memories that conditions on accesses compare with, and others that the condition
on exit mentions. -/
def Environment.Reads (e : Environment) (vs : List Var) (P : Symbol → Srt → Prop)
    (name : Symbol) (srt : Srt) : Prop :=
  (name = cutSymbol ∧ srt = .bool) ∨ (∃ u ∈ vs, e.Gives u (.const name srt)) ∨ e.IsFresh name ∨
    (∃ map, .sameAs (.const name srt) map ∈ e.hooks) ∨ P name srt

/-- A variable may be read if one that matters shares what it is given. -/
theorem Var.readIn_of_shares {P : Symbol → Srt → Prop} {v : Var} (h : ∃ u ∈ vs, v.Shares u) :
    v.ReadIn (·.Reads vs P) e := by
  obtain ⟨u, hu, hshares⟩ := h
  exact fun _ _ _ _ hgives => .inr (.inl ⟨u, hu, hshares hgives⟩)

/-- A jump that calls something has a subroutine of the environment for a callee, or one without
parts. -/
theorem Environment.Covers.calls {sub g : Sub} (h : e.Covers sub vs) (hg : e.Reaches sub g)
    {b : Blk} {j : Jmp} {name : String} (hb : b ∈ g.blks) (hj : j ∈ b.jmps) (hkind : j.kind = .call)
    (hname : j.callee = .ok name) :
    e.Invokes g ((e.findSub? name).getD { name := .str name }) ∨ e.findSub? name = none := by
  cases hfind : e.findSub? name with
  | none => exact .inr rfl
  | some g' =>
    have htruthy : j.target.truthy = true := by
      by_contra hfalse
      rw [h.indirect g hg b hb j hj hkind (Bool.eq_false_iff.mpr hfalse) name hname] at hfind
      cases hfind
    rw [Jmp.callee, if_pos htruthy] at hname
    split at hname
    · next name' htarget =>
      obtain rfl := Except.ok.inj hname
      refine .inl ⟨b, hb, j, hj, name', hkind, htarget, fun hempty => ?_, hfind⟩
      simp [htarget, hempty, Json.truthy] at htruthy
    · cases hname

/-- What the walk of a subroutine may read and walk. -/
def Environment.scope {e : Environment} {sub : Sub} {vs : List Var} (P : Symbol → Srt → Prop)
    (hvs : e.relevantVars sub = .ok vs) (huse : e.useInputs = true) (hcovers : e.Covers sub vs)
    (hfit : ∀ hook ∈ e.hooks, hook.Fit) : Scope e where
  reads e' := e'.Reads vs P
  body g := e.Reaches sub g ∨ g.blks = []
  callee g := (∃ g', e.Reaches sub g' ∧ e.Invokes g' g) ∨ g.blks = [] ∧ g.args = []
  mono := by
    rintro e1 e2 name srt hg (hcut | ⟨u, hu, hgives⟩ | hfresh | ⟨map, hmem⟩ | hP)
    · exact .inl hcut
    · exact .inr (.inl ⟨u, hu, hgives.grows hg⟩)
    · exact .inr (.inr (.inl (hfresh.grows hg)))
    · exact .inr (.inr (.inr (.inl ⟨map, hg.hooks ▸ hmem⟩)))
    · exact .inr (.inr (.inr (.inr hP)))
  cut _ := .inl ⟨rfl, rfl⟩
  fresh hfresh := .inr (.inr (.inl hfresh))
  memory := Var.readIn_of_shares (exists_shares_memVar hvs)
  inputs hr hv := Var.readIn_of_shares (exists_shares_input hvs huse hr hv)
  hooks := by
    intro memory map e' hmem hg
    obtain ⟨name, srt, rfl, -⟩ := hfit _ hmem
    exact .inl ⟨.const name srt, .const (.inr (.inr (.inr (.inl ⟨map, hg.hooks ▸ hmem⟩))))⟩
  vars := by
    rintro g v (hg | hnil) hv
    · exact Var.readIn_of_shares (exists_shares_of_reaches hvs hg hv)
    · simp [Sub.vars, hnil] at hv
  args := by
    rintro g a (⟨g', hg', hcall⟩ | ⟨-, hnil⟩) ha hinput
    · obtain ⟨u, hu, halike⟩ := hcovers.args g' g hg' hcall a ha hinput
      exact Var.readIn_of_shares ⟨u, hu, Var.shares_of_alike halike⟩
    · simp [hnil] at ha
  calls := by
    rintro g b j name (hg | hnil) hb hj hkind hname
    · rcases hcovers.calls hg hb hj hkind hname with hcall | hnone
      · exact .inl ⟨g, hg, hcall⟩
      · exact .inr (by simp [hnone])
    · simp [hnil] at hb
  walks := by
    rintro g (⟨g', hg', hcall⟩ | ⟨hnil, -⟩)
    · exact .inl (hg'.tail hcall)
    · exact .inr hnil

/-! ## §2 Trees that depend on what may be read -/

/-- States that agree on some constants, the one for cut paths apart, agree on them where cut paths
are resolved. -/
theorem State.agreeOn_cutAs (happly : s.apply = s'.apply)
    (h : ∀ name srt, V name srt → name ≠ cutSymbol ∨ srt ≠ .bool →
      s.const name srt = s'.const name srt) (b : Bool) : (s.cutAs b).AgreeOn V (s'.cutAs b) := by
  refine ⟨fun name srt hV => ?_, happly⟩
  by_cases hcut : name = cutSymbol ∧ srt = .bool
  · obtain ⟨rfl, rfl⟩ := hcut
    rw [State.cutAs, State.cutAs, State.const_set_self _ (by simp [Value.Fits]),
      State.const_set_self _ (by simp [Value.Fits])]
  · have hne : name ≠ cutSymbol ∨ srt ≠ .bool := by tauto
    rw [State.cutAs, State.cutAs, State.const_set_ne _ hne, State.const_set_ne _ hne,
      h name srt hV hne]

theorem State.AgreeOn.cutAs (h : s.AgreeOn V s') (b : Bool) : (s.cutAs b).AgreeOn V (s'.cutAs b) :=
  State.agreeOn_cutAs h.apply (fun _ _ hV _ => h.const hV) b

/-- States that agree agree after a replacement by terms that rest on what they agree on. -/
theorem State.AgreeOn.replaced (h : s.AgreeOn V s') {pairs : Replacement} (hwrites : pairs.Writes)
    (hpairs : ∀ p ∈ pairs, p.2.RestsOn V) : (s.replaced pairs).AgreeOn V (s'.replaced pairs) := by
  refine ⟨fun name srt hV => ?_, h.apply⟩
  rw [(hwrites.fitsAt s).const_replaced, (hwrites.fitsAt s').const_replaced]
  cases hfind : pairs.find? (.const name srt) with
  | none => exact h.const hV
  | some u => exact hpairs _ (Replacement.mem_of_find? hfind) h

/-- The truth of a tree that keeps sorts depends on some constants only, and on the functions. -/
def Constraint.Reacts (V : Symbol → Srt → Prop) (b : Bool) (c : Constraint) : Prop :=
  c.Sorted → ∀ s s' : State, s.AgreeOn V s' → (c.Holds b s ↔ c.Holds b s')

namespace Constraint

variable {W : Symbol → Srt → Prop} {b : Bool} {c : Constraint}

theorem Reacts.mono (h : c.Reacts V b) (hVW : ∀ name srt, V name srt → W name srt) :
    c.Reacts W b :=
  fun hsorted s s' hs => h hsorted s s' (hs.mono hVW)

theorem Stands.reacts {σ : Session} {ψ : Term} (h : c.Stands σ b ψ)
    (hψ : ∀ name srt, ψ.Mentions name srt → V name srt) : c.Reacts V b := by
  intro _ s s' hs
  rw [← h.holds_iff, ← h.holds_iff, Term.holds, Term.holds, ψ.restsOn_of_mentions hψ hs]

theorem reacts_of_children (hpass : c.Passes) (hreads : c.ReadsOwn V)
    (hbelow : ∀ d ∈ c.children, d.Reacts V b) : c.Reacts V b := by
  intro hsorted s s' hs
  cases c with
  | goal i name f => rw [holds_goal, holds_goal, Term.holds, Term.holds, hreads (hs.cutAs b)]
  | ite i name cond yes no =>
    obtain ⟨hy, hn⟩ := sorted_ite.mp hsorted
    have hyes := hbelow yes (by simp [children]) hy s s' hs
    have hno := hbelow no (by simp [children]) hn s s' hs
    rw [holds_ite, holds_ite, Term.holds, Term.holds, hreads (hs.cutAs b), hyes, hno]
  | clause i hyps concls =>
    obtain ⟨hh, hc⟩ := sorted_clause.mp hsorted
    have hall : ∀ ds : List Constraint, (∀ d ∈ ds, d ∈ (clause i hyps concls).children) →
        (∀ d ∈ ds, d.Sorted) → ((∀ d ∈ ds, d.Holds b s) ↔ ∀ d ∈ ds, d.Holds b s') :=
      fun ds hmem hsorted => forall₂_congr fun d hd => hbelow d (hmem d hd) (hsorted d hd) s s' hs
    rw [holds_clause, holds_clause, hall hyps (by simp +contextual [children]) hh,
      hall concls (by simp +contextual [children]) hc]
  | subst i body pairs =>
    obtain ⟨hpairs, hbody⟩ := sorted_subst.mp hsorted
    have hwrites := hpass.writes hpairs
    rw [holds_subst_of_writes hwrites, holds_subst_of_writes hwrites]
    exact hbelow body (by simp [children]) hbody _ _ ((hs.cutAs b).replaced hwrites hreads)

/-- What a tree says does not depend on the constant for cut paths, which is resolved. -/
theorem holds_cutAs_self : c.Holds b (s.cutAs b) ↔ c.Holds b s := by
  rw [Holds, Holds, State.cutAs_of_flag (State.flag_cutAs ..)]

end Constraint

theorem Scope.carries_reacts (S : Scope e) (b : Bool) :
    Carries S fun σ ν c => σ.Lists ν c ∧ c.Reacts (S.reads σ.env) b where
  mono hb hc := ⟨hb.lists hc.1, hc.2.mono fun _ _ => S.mono hb.step.env⟩
  frame l n hc := ⟨hc.1, hc.2.mono fun _ _ => S.mono (Environment.grows_setDepth _ l n)⟩
  new hid hpass hreads hbelow := ⟨(Builds.new hid fun d hd => (hbelow d hd).1).2,
    Constraint.reacts_of_children hpass hreads fun d hd => (hbelow d hd).2⟩

/-! ## §3 Formulas -/

/-- Two states cannot be told apart by a subroutine: some variables have the same values, and so
have the constants that a condition mentions, the constants that were made up, the memories that
conditions on accesses compare with, and the functions. -/
structure Environment.SameFor (e : Environment) (vs : List Var) (ψ : Term) (s s' : State) :
    Prop where
  vars : ∀ v ∈ vs, e.look s v = e.look s' v
  exit : ∀ name srt, ψ.Mentions name srt → s.const name srt = s'.const name srt
  fresh : ∀ name srt, e.IsFresh name → s.const name srt = s'.const name srt
  hooks : ∀ memory map, .sameAs memory map ∈ e.hooks → memory.eval s = memory.eval s'
  apply : s.apply = s'.apply

theorem Environment.SameFor.agreeOn {ψ : Term} (h : e.SameFor vs ψ s s') (b : Bool) :
    (s.cutAs b).AgreeOn (e.Reads vs fun name srt => ψ.Mentions name srt) (s'.cutAs b) := by
  refine State.agreeOn_cutAs h.apply ?_ b
  rintro name srt (⟨rfl, rfl⟩ | ⟨u, hu, hgives⟩ | hfresh | ⟨map, hmem⟩ | hψ) hne
  · simp at hne
  · have hlook := h.vars u hu
    rwa [hgives.look_eq, hgives.look_eq, Term.eval_const, Term.eval_const] at hlook
  · exact h.fresh name srt hfresh
  · have hmemory := h.hooks _ map hmem
    rwa [Term.eval_const, Term.eval_const] at hmemory
  · exact h.exit name srt hψ

/-! ## §4 A question -/

/-- What is asked, and the answer. -/
def question : Var :=
  { name := .str "q", width := .int 8 }

@[inherit_doc question]
def answer : Var :=
  { name := .str "a", width := .int 8 }

def questionTerm : Term :=
  .const (.text "q") (.bits 8)

def answerTerm : Term :=
  .const (.text "a") (.bits 8)

/-- Answers questions; only what it reads and writes is known. -/
def oracle : Sub where
  name := .str "oracle"
  args := [{ var := question }, { var := answer, intent := .str "out" }]

/-- Makes some definitions, and asks. -/
def askBlk (defs : List Def) : Blk where
  tid := .str "only"
  defs := defs
  jmps := [{ tid := .str "ask", kind := .call, target := .str "oracle" }]

@[inherit_doc askBlk]
def ask (defs : List Def) : Sub where
  name := .str "ask"
  blks := [askBlk defs]

/-- The environment of the question, with some flags and names. -/
def askEnv (calls : List (String × Term)) (introduced : List Label) : Environment where
  arch := { name := "small", addressWidth := 8 }
  subs := [oracle]
  summaries := Summary.standard [] true
  vars := [(.text "q", questionTerm), (.text "a", answerTerm)]
  calls := calls
  introduced := introduced

/-- The environment before the question. -/
def askBefore : Environment :=
  askEnv [] [.text "a", .text "q"]

/-- The environment after it. -/
def askAfter : Environment :=
  askEnv [("oracle", .const (.text "called_oracle") .bool)]
    [.text "called_oracle", .text "a", .text "q"]

def answerIsOne : Constraint :=
  .goal 0 "answer" (.app .eq [.num 8 1, answerTerm])

/-- The condition before the question. -/
def askPre : Constraint :=
  .subst 2 (.subst 1 answerIsOne [(.const (.text "called_oracle") .bool, .lit true)])
    [(answerTerm, .app (.apply (.text "oracle_a") [.bits 8] 8) [questionTerm])]

set_option maxRecDepth 1000 in
theorem ends_ask : (precondition answerIsOne (ask [])).Ends ⟨{ nodes := 1 }, askBefore⟩ askPre
    ⟨{ nodes := 3 }, askAfter⟩ :=
  rfl

theorem relevantVars_ask : askBefore.relevantVars (ask []) = .ok [askBefore.memVar] :=
  rfl

theorem sound_askBefore : askBefore.Sound := by
  have hmem : ∀ t ∈ askBefore.constants, t = questionTerm ∨ t = answerTerm := by
    simp [Environment.constants, askBefore, askEnv]
  intro t ht
  rcases hmem t ht with rfl | rfl
  · exact ⟨.text "q", .bits 8, rfl, by simp, by decide⟩
  · exact ⟨.text "a", .bits 8, rfl, by simp, by decide⟩

theorem stands_answerIsOne (b : Bool) :
    answerIsOne.Stands ⟨{ nodes := 1 }, askBefore⟩ b (answerIsOne.flatten b) :=
  Constraint.stands_goal b Nat.one_pos

theorem substitutes_askPre : askPre.Substitutes := by
  have hanswer : Replacement.Writes
      [(answerTerm, .app (.apply (.text "oracle_a") [.bits 8] 8) [questionTerm])] := by
    intro p hp
    obtain rfl := List.mem_singleton.mp hp
    have hquestion : questionTerm.WellSorted := .const _ _
    exact ⟨_, _, rfl, by simp [Term.loopCut, answerTerm], .app (by simpa using hquestion) rfl, rfl⟩
  have hflag : Replacement.Writes [(.const (.text "called_oracle") .bool, .lit true)] := by
    intro p hp
    obtain rfl := List.mem_singleton.mp hp
    exact ⟨_, _, rfl, by simp [Term.loopCut], .lit true, rfl⟩
  simpa [Constraint.Substitutes, askPre, Constraint.WritesOwn, answerIsOne] using ⟨hanswer, hflag⟩

/-- The state in which a question is its own answer. -/
def echo (n : Nat) : State :=
  { State.zero with
    word := fun name _ => if name = .text "q" then n else 0
    apply := fun _ _ _ args => (args.map Value.toNat).sum }

theorem holds_askPre_echo (n : Nat) : askPre.Holds true (echo n) ↔ n % 256 = 1 := by
  rw [← Constraint.reading_iff substitutes_askPre, eq_comm (b := 1)]
  simp [askPre, answerIsOne, Constraint.reading, Term.holds, Op.eval, State.const, State.replaced,
    State.cutAs, State.set, cutSymbol, Value.same, Value.isTrue, Value.toNat, echo, questionTerm,
    answerTerm, Replacement.find?]

/-- The question was not made up, nor was anything that has no constant. -/
theorem eq_of_isFresh_askAfter (h : askAfter.IsFresh name) :
    name = .text "called_oracle" ∨ name = .text "a" := by
  obtain ⟨stem, n, l, hl, hmem, hname⟩ := h
  obtain rfl := Except.ok.inj hl
  simp only [askAfter, askEnv, List.mem_cons, Label.text.injEq, List.not_mem_nil, or_false] at hmem
  rcases hmem with heq | heq | heq
  · rw [heq] at hname
    exact .inl (Except.ok.inj hname).symm
  · rw [heq] at hname
    exact .inr (Except.ok.inj hname).symm
  · -- no number ends in this name
    have hmark : '_' ∈ (s!"{stem}_{n}").toList := by
      rw [String.toList_append, String.toList_append]
      exact List.mem_append_left _ (List.mem_append_right _ (by decide))
    rw [heq] at hmark
    simp at hmark

/-- The condition on exit mentions the answer only. -/
theorem eq_of_mentions_answerIsOne {srt : Srt} (h : (answerIsOne.flatten true).Mentions name srt) :
    name = .text "a" := by
  have hformula : answerIsOne.flatten true = .app .eq [.num 8 1, answerTerm] := by
    rw [answerIsOne, Constraint.flatten_goal, Constraint.resolveCuts, Term.subst,
      Term.foldShared_eq]
    simp [answerTerm, Term.fold, Term.foldList, Replacement.step, Replacement.find?, Term.loopCut]
  rw [hformula] at h
  cases h with
  | app hu h =>
    rcases List.mem_cons.mp hu with rfl | hu
    · cases h
    · obtain rfl := List.mem_singleton.mp hu
      cases h
      rfl

/-- What is asked does not matter to a subroutine that only asks. -/
theorem sameFor_echo :
    askAfter.SameFor [askBefore.memVar] (answerIsOne.flatten true) (echo 1) (echo 0) where
  vars v hv := by
    obtain rfl := List.mem_singleton.mp hv
    rfl
  exit name srt h := by
    obtain rfl := eq_of_mentions_answerIsOne h
    cases srt <;> rfl
  fresh name srt h := by
    rcases eq_of_isFresh_askAfter h with rfl | rfl <;> cases srt <;> rfl
  hooks := by simp [askAfter, askEnv]
  apply := rfl

def copyQuestion : Def :=
  { tid := .str "copy", lhs := answer, rhs := .var question }

/-- The condition before it. -/
def copyPre : Constraint :=
  .subst 3 askPre [(answerTerm, questionTerm)]

set_option maxRecDepth 1000 in
theorem ends_copy : (precondition answerIsOne (ask [copyQuestion])).Ends
    ⟨{ nodes := 1 }, askBefore⟩ copyPre ⟨{ nodes := 4 }, askAfter⟩ :=
  rfl

theorem relevantVars_copy : askBefore.relevantVars (ask [copyQuestion]) =
    .ok [answer, question, askBefore.memVar] :=
  rfl

theorem eq_oracle_of_invokes {g g' : Sub} (h : askBefore.Invokes g g') : g' = oracle := by
  obtain ⟨b, -, j, -, name, hcalls⟩ := h
  simpa [askBefore, askEnv] using List.mem_of_find?_eq_some hcalls.found

theorem covers_copy :
    askBefore.Covers (ask [copyQuestion]) [answer, question, askBefore.memVar] := by
  refine ⟨fun g g' _ hcall a ha hinput => ?_, fun g hg b hb j hj _ htruthy => ?_⟩
  · obtain rfl := eq_oracle_of_invokes hcall
    refine ⟨question, by simp, ?_⟩
    rcases List.mem_cons.mp ha with rfl | ha
    · rfl
    · obtain rfl := List.mem_singleton.mp ha
      cases hinput
  · rcases Relation.ReflTransGen.cases_tail hg with rfl | ⟨g', -, hcall⟩
    · obtain rfl := List.mem_singleton.mp hb
      obtain rfl := List.mem_singleton.mp hj
      cases htruthy
    · obtain rfl := eq_oracle_of_invokes hcall
      cases hb

/-- A variable that nothing mentions does not matter. -/
theorem sameFor_set (s : State) (x : Value) :
    askAfter.SameFor [answer, question, askBefore.memVar] (answerIsOne.flatten true) s
      (s.set (.text "z") (.bits 8) x) where
  vars v hv := by
    have hother : ∀ name : Symbol, name ≠ .text "z" →
        s.const name (.bits 8) = (s.set (.text "z") (.bits 8) x).const name (.bits 8) :=
      fun name hne => (s.const_set_ne (.inl hne)).symm
    simp only [List.mem_cons, List.not_mem_nil, or_false] at hv
    rcases hv with rfl | rfl | rfl
    · exact hother (.text "a") (by decide)
    · exact hother (.text "q") (by decide)
    · rfl
  exit name srt h := by
    obtain rfl := eq_of_mentions_answerIsOne h
    exact (s.const_set_ne (.inl (by decide))).symm
  fresh name srt h := by
    rcases eq_of_isFresh_askAfter h with rfl | rfl <;>
      exact (s.const_set_ne (.inl (by decide))).symm
  hooks := by simp [askAfter, askEnv]
  apply := rfl

/-! ## §5 Dependence -/

/-- **Preconditions depend on the variables that matter**: if call results depend on the input
registers, and the calls of a subroutine read variables that matter only, then the formula of its
precondition has the same truth in two states in which these variables, the constants of the
condition on exit, the constants that the walk makes up and the functions are the same. -/
theorem precondition_eq_of_sameFor {σ σ' : Session} {sub : Sub} {post pre : Constraint} {b : Bool}
    {ψ φ : Term} {vs : List Var} (hσ : σ.env.Sound) (hflagged : σ.env.Flagged)
    (huse : σ.env.useInputs = true) (hfit : ∀ hook ∈ σ.env.hooks, hook.Fit)
    (hvs : σ.env.relevantVars sub = .ok vs) (hcovers : σ.env.Covers sub vs)
    (hpost : post.Stands σ b ψ) (hrun : (precondition post sub).Ends σ pre σ')
    (hφ : pre.flatten? b = .ok φ) {s s' : State} (hs : σ'.env.SameFor vs ψ s s') :
    φ.holds s = φ.holds s' := by
  let S := Environment.scope (fun name srt => ψ.Mentions name srt) hvs huse hcovers hfit
  obtain ⟨ν, hν⟩ := hpost.exists_lists
  have hreacts : post.Reacts (S.reads σ.env) b :=
    hpost.reacts fun name srt hψ => .inr (.inr (.inr (.inr hψ)))
  obtain ⟨ν', -, hl, hpre⟩ := (S.carries_reacts b).precondition (.inl .refl) (.refl _) ⟨hν, hreacts⟩
    hflagged hσ pre σ' hrun
  obtain ⟨hsorted, rfl⟩ := hl.flatten?_eq_ok.mp hφ
  rw [Bool.eq_iff_iff, hl.holds_flatten, hl.holds_flatten, ← Constraint.holds_cutAs_self,
    ← Constraint.holds_cutAs_self (s := s')]
  exact hpre hsorted _ _ (hs.agreeOn b)

/-- A subroutine that reads the question itself does not depend on a variable that nothing
mentions. -/
theorem precondition_eq_of_sameFor_copy :
    ∃ φ, copyPre.flatten? true = .ok φ ∧
      ∀ (s : State) (x : Value), φ.holds s = φ.holds (s.set (.text "z") (.bits 8) x) := by
  have hcoherent : copyPre.Coherent := by
    simp [Constraint.Coherent, copyPre, askPre, answerIsOne, Constraint.subtrees, Constraint.id]
  have hsorted : copyPre.Sorted := by
    simp [copyPre, substitutes_askPre.sorted, Replacement.keepsSorts, questionTerm, answerTerm,
      Term.sort]
  obtain ⟨ν, n, hν⟩ := hcoherent.exists_listed
  have hφ : copyPre.flatten? true = .ok (copyPre.flatten true) :=
    hν.flatten?_eq_ok.mpr ⟨hsorted, rfl⟩
  refine ⟨_, hφ, fun s x => ?_⟩
  exact precondition_eq_of_sameFor (σ := ⟨{ nodes := 1 }, askBefore⟩) sound_askBefore
    (Environment.flagged_of_nil rfl) rfl (by simp [askBefore, askEnv]) relevantVars_copy covers_copy
    (stands_answerIsOne true) ends_copy hφ (sameFor_set s x)

/-- Inputs that a callee declares are read too, and need not matter to the caller. -/
theorem not_eq_of_sameFor :
    ¬∀ (σ σ' : Session) (inlined : List Label) (trip : Bool) (sub : Sub) (post pre : Constraint)
      (b : Bool) (ψ φ : Term) (vs : List Var), σ.env.Sound → σ.env.Flagged →
      σ.env.summaries = Summary.standard inlined trip → σ.env.useInputs = true →
      (∀ hook ∈ σ.env.hooks, hook.Fit) → σ.env.relevantVars sub = .ok vs →
      post.Stands σ b ψ → (precondition post sub).Ends σ pre σ' → pre.flatten? b = .ok φ →
      ∀ s s', σ'.env.SameFor vs ψ s s' → s.flag = s'.flag → φ.holds s = φ.holds s' := by
  intro h
  have hcoherent : askPre.Coherent := by
    simp [Constraint.Coherent, askPre, answerIsOne, Constraint.subtrees, Constraint.id]
  obtain ⟨ν, n, hν⟩ := hcoherent.exists_listed
  have hsame := h ⟨{ nodes := 1 }, askBefore⟩ _ [] true (ask []) answerIsOne askPre true _ _ _
    sound_askBefore (Environment.flagged_of_nil rfl) rfl rfl (by simp [askBefore, askEnv])
    relevantVars_ask (stands_answerIsOne true) ends_ask
    (hν.flatten?_eq_ok.mpr ⟨substitutes_askPre.sorted, rfl⟩) _ _ sameFor_echo rfl
  rw [Bool.eq_iff_iff, hν.holds_flatten, hν.holds_flatten, holds_askPre_echo,
    holds_askPre_echo] at hsame
  exact absurd (hsame.mp rfl) (by decide)

end Antecedent
