import Antecedent.Proofs.Framing

/-!
# Invariants that builders keep

A builder may change the environment and then end in a fault; what it did stays.  Everything that is
built comes down to a few operations on constants, and an invariant that these keep is kept by the
walk of a subroutine, calls and inlined bodies included.

* `ExceptT.Preserves` says that a computation keeps an invariant, also where it ends in a fault, and
  `ExceptT.Agrees` the same of two computations that do not differ.
* `Steady` says that the operations on constants keep an invariant, and `Stable` that open
  activations do not matter to it.
* `Stable.precondition` is about walks.
-/

/-! ## §1 Invariants that survive faults -/

namespace ExceptT

variable {ε S α β : Type} {I : S → Prop}

/-- A computation keeps an invariant of the state, also when it ends in a fault. -/
def Preserves (I : S → Prop) (act : ExceptT ε (StateM S) α) : Prop :=
  ∀ σ, I σ → I (Id.run (act.run.run σ)).2

theorem Preserves.ends {act : ExceptT ε (StateM S) α} (h : act.Preserves I) {σ σ' : S} {a : α}
    (hends : act.Ends σ a σ') (hσ : I σ) : I σ' := by
  have hrun := h σ hσ
  rwa [hends] at hrun

/-- Two computations do the same where an invariant holds, and keep it. -/
def Agrees (I : S → Prop) (act act' : ExceptT ε (StateM S) α) : Prop :=
  ∀ σ, I σ → Id.run (act.run.run σ) = Id.run (act'.run.run σ) ∧ I (Id.run (act.run.run σ)).2

section Agrees

variable {act act' act'' : ExceptT ε (StateM S) α} {f f' : α → ExceptT ε (StateM S) β}

theorem Preserves.agrees (h : act.Preserves I) : act.Agrees I act :=
  fun σ hσ => ⟨rfl, h σ hσ⟩

theorem Agrees.preserves (h : act.Agrees I act') : act.Preserves I :=
  fun σ hσ => (h σ hσ).2

theorem Agrees.symm (h : act.Agrees I act') : act'.Agrees I act :=
  fun σ hσ => ⟨(h σ hσ).1.symm, (h σ hσ).1 ▸ (h σ hσ).2⟩

theorem Agrees.trans (h : act.Agrees I act') (h' : act'.Agrees I act'') : act.Agrees I act'' :=
  fun σ hσ => ⟨(h σ hσ).1.trans (h' σ hσ).1, (h σ hσ).2⟩

theorem Agrees.bind (h : act.Agrees I act') (hf : ∀ a, (f a).Agrees I (f' a)) :
    (act >>= f).Agrees I (act' >>= f') := by
  intro σ hσ
  obtain ⟨hsame, hkept⟩ := h σ hσ
  simp only [ExceptT.run_bind, StateT.run_bind, Id.run_bind, ← hsame]
  revert hkept
  rcases Id.run (act.run.run σ) with ⟨r | a, τ⟩
  · exact fun hτ => ⟨rfl, hτ⟩
  · exact hf a τ

theorem agrees_lift_bind {x : Except ε α} (h : ∀ a, x = .ok a → (f a).Agrees I (f' a)) :
    (liftM x >>= f).Agrees I (liftM x >>= f') := by
  cases x with
  | error e => exact fun _ hσ => ⟨rfl, hσ⟩
  | ok a => exact fun σ hσ => h a rfl σ hσ

end Agrees

theorem preserves_pure (a : α) : (pure a : ExceptT ε (StateM S) α).Preserves I :=
  fun _ h => h

theorem preserves_throw (f : ε) : (throw f : ExceptT ε (StateM S) α).Preserves I :=
  fun _ h => h

theorem preserves_lift (x : Except ε α) : (liftM x : ExceptT ε (StateM S) α).Preserves I :=
  fun _ h => h

theorem preserves_modify {f : S → S} (h : ∀ σ, I σ → I (f σ)) :
    (modify f : ExceptT ε (StateM S) PUnit).Preserves I :=
  h

theorem Preserves.bind {act : ExceptT ε (StateM S) α} {f : α → ExceptT ε (StateM S) β}
    (h : act.Preserves I) (hf : ∀ a, (f a).Preserves I) : (act >>= f).Preserves I :=
  (h.agrees.bind fun a => (hf a).agrees).preserves

theorem preserves_lift_bind {x : Except ε α} {f : α → ExceptT ε (StateM S) β}
    (h : ∀ a, x = .ok a → (f a).Preserves I) : (liftM x >>= f).Preserves I :=
  (agrees_lift_bind fun a ha => (h a ha).agrees).preserves

theorem preserves_get_bind {f : S → ExceptT ε (StateM S) β}
    (h : ∀ σ, I σ → (f σ).Preserves I) : (get >>= f).Preserves I :=
  fun σ hσ => h σ hσ σ hσ

theorem preserves_set {τ : S} (h : I τ) : (set τ : ExceptT ε (StateM S) PUnit).Preserves I :=
  fun _ _ => h

theorem Preserves.map {act : ExceptT ε (StateM S) α} (h : act.Preserves I) (f : α → β) :
    (f <$> act).Preserves I := by
  rw [map_eq_pure_bind]
  exact h.bind fun a => preserves_pure (f a)

section Lists

variable {as : List α}

theorem preserves_mapM {f : α → ExceptT ε (StateM S) β} (h : ∀ a ∈ as, (f a).Preserves I) :
    (as.mapM f).Preserves I := by
  induction as with
  | nil => exact preserves_pure _
  | cons a as ih =>
    obtain ⟨ha, has⟩ := List.forall_mem_cons.mp h
    rw [List.mapM_cons]
    exact ha.bind fun _ => (ih has).bind fun _ => preserves_pure _

theorem preserves_flatMapM {f : α → ExceptT ε (StateM S) (List β)}
    (h : ∀ a ∈ as, (f a).Preserves I) : (as.flatMapM f).Preserves I := by
  induction as with
  | nil =>
    rw [List.flatMapM_nil]
    exact preserves_pure _
  | cons a as ih =>
    obtain ⟨ha, has⟩ := List.forall_mem_cons.mp h
    rw [List.flatMapM_cons]
    exact ha.bind fun _ => (ih has).bind fun _ => preserves_pure _

theorem preserves_filterMapM {f : α → ExceptT ε (StateM S) (Option β)}
    (h : ∀ a ∈ as, (f a).Preserves I) : (as.filterMapM f).Preserves I := by
  rw [List.filterMapM_eq_flatMapM]
  exact preserves_flatMapM fun a ha => (h a ha).map _

theorem preserves_forIn {f : α → β → ExceptT ε (StateM S) (ForInStep β)} (b : β)
    (h : ∀ a ∈ as, ∀ b, (f a b).Preserves I) : (forIn as b f).Preserves I := by
  induction as generalizing b with
  | nil => exact preserves_pure _
  | cons a as ih =>
    obtain ⟨ha, has⟩ := List.forall_mem_cons.mp h
    rw [List.forIn_cons]
    refine (ha b).bind fun r => ?_
    cases r with
    | done b => exact preserves_pure _
    | yield b => exact ih b has

end Lists

end ExceptT

namespace Antecedent

open ExceptT (Agrees Preserves agrees_lift_bind preserves_pure preserves_throw preserves_lift
  preserves_modify preserves_set preserves_get_bind preserves_lift_bind preserves_mapM
  preserves_filterMapM preserves_flatMapM)

namespace Walking

variable {α β : Type} {I : Session → Prop} {as : List α}

/-- Two builders with a table do the same where an invariant of the session holds, whatever the
table, and keep it. -/
def Agrees (I : Session → Prop) (act act' : Walking α) : Prop :=
  ∀ m, (act.run m).Agrees I (act'.run m)

/-- A builder with a table keeps an invariant of the session, whatever the table. -/
def Preserves (I : Session → Prop) (act : Walking α) : Prop :=
  act.Agrees I act

theorem preserves_pure (a : α) : (pure a : Walking α).Preserves I :=
  fun _ => (ExceptT.preserves_pure _).agrees

theorem preserves_throw (f : Fault) : (throw f : Walking α).Preserves I :=
  fun _ => (ExceptT.preserves_throw f).agrees

theorem preserves_modify (f : Memo → Memo) : (modify f : Walking Unit).Preserves I :=
  fun _ => (ExceptT.preserves_pure _).agrees

theorem agrees_lift {act act' : Build α} (h : act.Agrees I act') :
    (liftM act : Walking α).Agrees I (liftM act') := by
  intro m
  have hrun : ∀ act : Build α, (liftM act : Walking α).run m = act >>= fun a => pure (a, m) :=
    fun _ => rfl
  rw [hrun, hrun]
  exact h.bind fun _ => (ExceptT.preserves_pure _).agrees

theorem preserves_lift {act : Build α} (h : act.Preserves I) :
    (liftM act : Walking α).Preserves I :=
  agrees_lift h.agrees

theorem Agrees.bind {act act' : Walking α} {f f' : α → Walking β} (h : act.Agrees I act')
    (hf : ∀ a, (f a).Agrees I (f' a)) : (act >>= f).Agrees I (act' >>= f') := by
  intro m
  rw [StateT.run_bind, StateT.run_bind]
  exact (h m).bind fun p => hf p.1 p.2

theorem agrees_get_bind {f f' : Memo → Walking β} (h : ∀ m, (f m).Agrees I (f' m)) :
    (get >>= f).Agrees I (get >>= f') :=
  fun m => h m m

theorem agrees_env_bind {f f' : Environment → Walking β}
    (h : ∀ σ, I σ → (f σ.env).Agrees I (f' σ.env)) :
    (liftM Build.env >>= f).Agrees I (liftM Build.env >>= f') :=
  fun m σ hσ => h σ hσ m σ hσ

theorem agrees_lift_bind {x : Except Fault α} {f f' : α → Walking β}
    (h : ∀ a, x = .ok a → (f a).Agrees I (f' a)) : (liftM x >>= f).Agrees I (liftM x >>= f') := by
  intro m
  cases x with
  | error e => exact fun _ hσ => ⟨rfl, hσ⟩
  | ok a => exact fun σ hσ => h a rfl m σ hσ

theorem agrees_foldrM {f f' : α → β → Walking β} (b : β)
    (h : ∀ a ∈ as, ∀ b, (f a b).Agrees I (f' a b)) :
    (as.foldrM f b).Agrees I (as.foldrM f' b) := by
  induction as with
  | nil => exact preserves_pure _
  | cons a as ih =>
    obtain ⟨ha, has⟩ := List.forall_mem_cons.mp h
    rw [List.foldrM_cons, List.foldrM_cons]
    exact (ih has).bind ha

theorem agrees_forM {f f' : α → Walking Unit} (h : ∀ a ∈ as, (f a).Agrees I (f' a)) :
    (as.forM f).Agrees I (as.forM f') := by
  induction as with
  | nil => exact preserves_pure _
  | cons a as ih =>
    obtain ⟨ha, has⟩ := List.forall_mem_cons.mp h
    exact Agrees.bind ha fun _ => ih has

end Walking

/-- What has to hold of a callee that is inlined. -/
theorem Environment.inline_of_resolve {e : Environment} {sub : Sub} {names : List Label}
    (h : e.resolve sub = .ok (.inline names)) : .inline names ∈ e.summaries ∧ ∃ l,
      sub.name.label = .ok l ∧ l.isAmong names = true ∧ sub.blks ≠ [] ∧
        boundAbove e.unroll (e.depth l) = .ok true := by
  -- a summary that is found is in the list, and covers the callee
  have hcovers : ∀ ss, e.firstCovering sub ss = .ok (.inline names) →
      .inline names ∈ ss ∧ Summary.covers e sub (.inline names) = .ok true := by
    intro ss
    induction ss with
    | nil => nofun
    | cons s ss ih =>
      intro h
      simp only [firstCovering, bind_eq_ok] at h
      obtain ⟨b, hb, h⟩ := h
      split at h
      · next htrue =>
        cases h
        exact ⟨List.mem_cons_self, htrue ▸ hb⟩
      · exact (ih h).imp_left (List.mem_cons_of_mem _)
  obtain ⟨hmem, hcovers⟩ := hcovers _ h
  simp only [Summary.covers, bind_eq_ok] at hcovers
  obtain ⟨l, hl, hcovers⟩ := hcovers
  split at hcovers
  · next hboth =>
    simp only [Bool.and_eq_true, Bool.not_eq_true', List.isEmpty_eq_false_iff] at hboth
    exact ⟨hmem, l, hl, hboth.1, hboth.2, hcovers⟩
  · cases hcovers

/-! ## §2 Stable invariants -/

namespace Build

variable {I : Session → Prop} {α : Type}

theorem agrees_env_bind {f f' : Environment → Build α}
    (h : ∀ σ, I σ → (f σ.env).Agrees I (f' σ.env)) : (env >>= f).Agrees I (env >>= f') :=
  fun σ hσ => h σ hσ σ hσ

theorem preserves_env_bind {f : Environment → Build α} (h : ∀ σ, I σ → (f σ.env).Preserves I) :
    (env >>= f).Preserves I :=
  fun σ hσ => h σ hσ σ hσ

theorem preserves_name {base : Label}
    (h : ∀ σ n, I σ → σ.env.localName base = .ok n →
      I { σ with env := { σ.env with introduced := n :: σ.env.introduced } }) :
    (name base).Preserves I := by
  intro σ hσ
  change I (Id.run ((((liftM (σ.env.localName base) : Build Label) >>= fun n => do
    modifyEnv fun e => { e with introduced := n :: e.introduced }
    return n).run).run σ)).2
  cases hlocal : σ.env.localName base with
  | ok n => exact h σ n hσ hlocal
  | error f => exact hσ

theorem preserves_freshBase_bind {stem : String} {f : String → Build α}
    (hsupply : ∀ σ n, I σ → I { σ with supply := { σ.supply with names := n } })
    (h : ∀ n : Nat, (f s!"{stem}_{n}").Preserves I) : (freshBase stem >>= f).Preserves I := by
  unfold freshBase
  simp only [bind_assoc, pure_bind]
  exact preserves_get_bind fun σ hσ => (preserves_set (hsupply σ _ hσ)).bind fun _ => h _

end Build

/-- Whether the name of a variable, if it has one, satisfies a predicate. -/
def Var.Within (allowed : Label → Prop) (v : Var) : Prop :=
  ∀ l, v.name.label = .ok l → allowed l

/-- Whether the variables and the callees in the body of a subroutine are allowed. -/
structure Sub.Within (allowed : Label → Prop) (called : String → Prop) (s : Sub) : Prop where
  vars : ∀ v ∈ s.vars, v.Within allowed
  calls : ∀ b ∈ s.blks, ∀ j ∈ b.jmps, j.kind = .call → ∀ name, j.callee = .ok name → called name

/-- The operations on constants keep an invariant of the session: those on variables and callees
that are allowed, on registers, the memory and new words.  Nodes, warnings and cuts do not matter to
it, and callees that are allowed have bodies and arguments that are. -/
structure Steady (I : Session → Prop) (allowed : Label → Prop) (called : String → Prop) : Prop where
  frame : ∀ {σ : Session} (supply : Supply) (truncated : List Label),
    I σ → I { supply, env := { σ.env with truncated } }
  getVar : ∀ {v : Var}, v.Within allowed → (Build.getVar v).Preserves I
  getRegister : ∀ r, (Build.getRegister r).Preserves I
  getMemory : Build.getMemory.Preserves I
  fresh : ∀ stem width, (Build.fresh stem width).Preserves I
  callFlag : ∀ {callee : String}, called callee → (Build.callFlag callee).Preserves I
  callee : ∀ {σ : Session} {name : String} {sub : Sub}, I σ → called name →
    σ.env.findSub? name = some sub → sub.Within allowed called ∧
      ∀ a ∈ sub.args, a.var.Within allowed

/-- Besides, open activations do not matter. -/
structure Stable (I : Session → Prop) (allowed : Label → Prop) (called : String → Prop) : Prop
    extends Steady I allowed called where
  depths : ∀ {σ : Session} (depths : List (Label × Nat)),
    I σ → I { σ with env := { σ.env with depths } }

namespace Steady

variable {I : Session → Prop} {allowed : Label → Prop} {called : String → Prop} {α : Type}

variable (hI : Steady I allowed called)
include hI

theorem nodeId : Build.nodeId.Preserves I := by
  refine preserves_get_bind fun σ hσ => ?_
  have hkept := hI.frame { σ.supply with nodes := σ.supply.nodes + 1 } σ.env.truncated hσ
  exact (preserves_set hkept).bind fun _ => preserves_pure _

theorem goal (name : String) (formula : Term) : (Build.goal name formula).Preserves I :=
  hI.nodeId.bind fun _ => preserves_pure _

theorem branch (name : Json) (cond : Term) (yes no : Constraint) :
    (Build.branch name cond yes no).Preserves I := by
  unfold Build.branch
  split
  · exact preserves_pure _
  · exact preserves_pure _
  · exact hI.nodeId.bind fun _ => preserves_pure _

theorem clause (hyps concls : List Constraint) : (Build.clause hyps concls).Preserves I :=
  hI.nodeId.bind fun _ => preserves_pure _

theorem substitution (body : Constraint) (olds news : List Term) :
    (Build.substitution body olds news).Preserves I := by
  unfold Build.substitution
  split
  · exact preserves_throw _
  · split
    · exact preserves_pure _
    · exact hI.nodeId.bind fun _ => preserves_pure _

omit hI in
theorem returnRegisters_bind {f : List String → Build α} (h : ∀ rs, (f rs).Preserves I) :
    (Build.returnRegisters >>= f).Preserves I :=
  Preserves.bind (Build.preserves_env_bind fun _ _ => preserves_pure _) h

theorem callResult (symbol : String) (inputs : List Term) (width : Json) :
    (Build.callResult symbol inputs width).Preserves I := by
  unfold Build.callResult
  split
  · exact hI.fresh symbol width
  · exact (preserves_lift _).bind fun _ => preserves_pure _

/-! ## §3 Expressions and calls -/

/-- Translation asks for the variables of the expression only. -/
theorem toTerm {tid : Json} {e : Expr}
    (h : ∀ v ∈ e.vars, v.Within allowed) :
    (e.toTerm tid).Preserves I := by
  -- only variables and unknown words touch the session
  induction e with
    (simp only [Expr.vars, List.forall_mem_append] at h
     rw [Expr.toTerm])
  | var v =>
    exact (hI.getVar (h v (List.mem_singleton_self v))).bind fun _ => preserves_pure _
  | int value width =>
    exact (preserves_lift _).bind fun _ => preserves_pure _
  | load mem addr size endian ihm iha =>
    exact (iha h.2).bind fun _ => (ihm h.1).bind fun _ => (preserves_lift _).bind fun _ =>
      preserves_pure _
  | store mem addr value size endian ihm iha ihv =>
    exact (iha h.1.2).bind fun _ => (ihm h.1.1).bind fun _ => (ihv h.2).bind fun _ =>
      (preserves_lift _).bind fun _ => preserves_pure _
  | binop _ lhs rhs ihl ihr | concat lhs rhs ihl ihr =>
    exact (ihl h.1).bind fun _ => (ihr h.2).bind fun _ => (preserves_lift _).bind fun _ =>
      preserves_pure _
  | unop _ arg ih | cast _ _ arg ih =>
    exact (ih h).bind fun _ => (preserves_lift _).bind fun _ => preserves_pure _
  | ite cond yes no ihc ihy ihn =>
    exact (ihc h.1.1).bind fun _ => (preserves_lift _).bind fun _ => (ihy h.1.2).bind fun _ =>
      (ihn h.2).bind fun _ => (preserves_lift _).bind fun _ => preserves_pure _
  | extract hi lo arg ih =>
    exact (ih h).bind fun _ => (preserves_lift _).bind fun _ => (preserves_lift _).bind fun _ =>
      preserves_pure _
  | unknown width note =>
    exact (hI.fresh "unknown" width).bind fun _ => preserves_pure _

theorem condition {tid : Json} {e : Expr}
    (h : ∀ v ∈ e.vars, v.Within allowed) :
    (e.condition tid).Preserves I :=
  (hI.toTerm h).bind fun _ => (preserves_lift _).bind fun _ =>
    Build.preserves_env_bind fun _ _ => preserves_pure _

theorem hookGoal (a : Access) (hook : Hook) : (Build.hookGoal a hook).Preserves I := by
  cases hook with
  | nonNull kind duty =>
    rw [Build.hookGoal]
    split
    · exact preserves_pure _
    · exact (preserves_lift _).bind fun _ => (preserves_lift _).bind fun _ =>
        (hI.goal _ _).bind fun _ => preserves_pure _
  | sameAs memory map =>
    rw [Build.hookGoal]
    split
    · exact preserves_pure _
    · exact hI.getMemory.bind fun _ => (preserves_lift _).bind fun _ =>
        (preserves_lift _).bind fun _ => (preserves_lift _).bind fun _ =>
        (preserves_lift _).bind fun _ => (hI.goal _ _).bind fun _ => preserves_pure _

theorem guarded (c : Constraint) (accesses : List Access) :
    (Build.guarded c accesses).Preserves I := by
  refine Preserves.bind (preserves_flatMapM fun a _ => Build.preserves_env_bind fun σ hσ =>
    preserves_filterMapM fun hook _ => hI.hookGoal a hook) fun found => ?_
  dsimp only
  split
  · exact preserves_pure _
  · exact hI.clause _ _

theorem definition {d : Def} (post : Constraint)
    (h : ∀ v ∈ d.lhs :: d.rhs.vars, v.Within allowed) :
    (Build.definition post d).Preserves I := by
  obtain ⟨hlhs, hrhs⟩ := List.forall_mem_cons.mp h
  exact (hI.toTerm hrhs).bind fun _ => (hI.getVar hlhs).bind fun _ =>
    (hI.substitution _ _ _).bind fun _ => hI.guarded _ _

theorem inputValues : Build.inputValues.Preserves I := by
  refine Build.preserves_env_bind fun σ hσ => ?_
  split
  · exact preserves_mapM fun r _ => hI.getRegister r
  · exact preserves_pure _

/-- What a call leaves unknown is drawn from the supply. -/
theorem havoc (post : Constraint) (callee : Sub) (registers functional : List String) :
    (Build.havoc post callee registers functional).Preserves I := by
  refine hI.inputValues.bind fun inputs => Preserves.bind
    (preserves_filterMapM fun r _ => Build.preserves_env_bind fun σ hσ => ?_)
    fun _ => hI.substitution _ _ _
  split
  · exact preserves_pure _
  · refine (hI.getRegister r).bind fun _ => ?_
    dsimp only
    split
    · exact (hI.callResult _ _ _).bind fun _ => preserves_pure _
    · exact (hI.fresh _ _).bind fun _ => preserves_pure _

theorem assumeArgument (post : Constraint) (callee : Sub) (tid : Json) :
    (Build.assumeArgument post callee tid).Preserves I := by
  refine Build.preserves_env_bind fun σ hσ => ?_
  split
  · exact preserves_pure _
  · exact (hI.getRegister _).bind fun _ => (preserves_lift _).bind fun _ =>
      (preserves_lift _).bind fun _ => (hI.goal _ _).bind fun _ => hI.clause _ _

theorem argumentTerms (post : Constraint) {callee : Sub}
    (h : ∀ a ∈ callee.args, a.var.Within allowed) :
    (Build.argumentTerms post callee).Preserves I := by
  refine Preserves.bind (preserves_mapM fun a ha => hI.getVar (h a (List.mem_of_mem_filter ha)))
    fun inputs => Build.preserves_env_bind fun σ hσ =>
      Preserves.bind (preserves_mapM fun a ha => ?_) fun _ => hI.substitution _ _ _
  exact (hI.getVar (h a (List.mem_of_mem_filter ha))).bind fun _ =>
    (hI.callResult _ _ _).bind fun _ => preserves_pure _

/-- **Calls**: summaries agree if they do on the walk of an inlined callee. -/
theorem agrees_summarize {walk walk' : Constraint → Sub → Build Constraint} {callee : Sub}
    (post : Constraint) (tid : Json) (s : Summary) (hargs : ∀ a ∈ callee.args, a.var.Within allowed)
    (hinline : ∀ names, s = .inline names →
      (Build.summarize walk post callee tid s).Agrees I (Build.summarize walk' post callee tid s)) :
    (Build.summarize walk post callee tid s).Agrees I
      (Build.summarize walk' post callee tid s) := by
  cases s with
  | error => exact (hI.goal _ _).agrees
  | assume => exact (hI.assumeArgument post callee tid).agrees
  | nondet => exact (returnRegisters_bind fun _ => hI.havoc _ _ _ _).agrees
  | instrumentation => exact (hI.havoc _ _ _ _).agrees
  | inline names => exact hinline names rfl
  | empty => exact (preserves_pure _).agrees
  | arguments => exact (hI.argumentTerms post hargs).agrees
  | clobber =>
    exact (Build.preserves_env_bind fun _ _ =>
      returnRegisters_bind fun _ => hI.havoc _ _ _ _).agrees
  | result => exact (returnRegisters_bind fun _ => hI.havoc _ _ _ _).agrees

/-! ## §4 Walks -/

section Walker

variable {w : Walker} {inline : Constraint → Sub → Build Constraint}

omit hI in
theorem entry (l : Label) (counts : Counts) : (w.entry l counts).Preserves I := by
  refine Walking.agrees_get_bind fun m => ?_
  split
  · exact Walking.preserves_pure _
  · exact Walking.preserves_throw _

theorem cut (header : Label) : (w.cut header).Preserves I := by
  refine Build.preserves_env_bind fun σ hσ => ?_
  dsimp only
  split
  · refine Preserves.bind (preserves_modify fun τ hτ => ?_) fun _ => ?_
    · exact hI.frame _ τ.env.truncated hτ
    · refine Preserves.bind (preserves_modify fun τ hτ => ?_) fun _ => hI.goal _ _
      exact hI.frame τ.supply _ hτ
  · exact hI.goal _ _

variable
  (hinline : ∀ {σ : Session} {name : String} {sub : Sub} {names : List Label}, I σ →
    σ.env.findSub? name = some sub → sub.Within allowed called →
    σ.env.resolve sub = .ok (.inline names) → ∀ post tid,
      (Build.summarize w.inline post sub tid (.inline names)).Agrees I
        (Build.summarize inline post sub tid (.inline names)))
include hinline

/-- Calls do not depend on the inliner, which is only asked about names that are called. -/
theorem agrees_call {j : Jmp} (after : Constraint)
    (h : ∀ name, j.callee = .ok name → called name) :
    (w.call j after).Agrees I ({ w with inline }.call j after) := by
  refine agrees_lift_bind fun name hname => (hI.callFlag (h name hname)).agrees.bind fun flag =>
    (hI.substitution _ _ _).agrees.bind fun after => Build.agrees_env_bind fun σ hσ =>
      agrees_lift_bind fun s hs => ?_
  cases hfind : σ.env.findSub? name with
  | none =>
    -- a callee without a body has no arguments and is not inlined
    rw [hfind] at hs
    refine hI.agrees_summarize after j.tid s (by simp) ?_
    rintro names rfl
    obtain ⟨-, l, -, -, hbody, -⟩ := Environment.inline_of_resolve hs
    exact absurd rfl hbody
  | some sub =>
    rw [hfind] at hs
    obtain ⟨hcallee, hargs⟩ := hI.callee hσ (h name hname) hfind
    refine hI.agrees_summarize after j.tid s hargs ?_
    rintro names rfl
    exact hinline hσ hfind hcallee hs after j.tid

theorem agrees_destination {j : Jmp} (counts : Counts)
    (h : j.kind = .call → ∀ name, j.callee = .ok name → called name) :
    (w.destination j counts).Agrees I ({ w with inline }.destination j counts) := by
  -- calls and interrupts look first where they come back to
  have hafter : ∀ {f f' : Constraint → Walking Constraint}, (∀ c, (f c).Agrees I (f' c)) →
      (do
        let after ← if j.returnTo.truthy then w.entry (← j.returnTo.label) counts else pure w.post
        f after : Walking Constraint).Agrees I (do
        let after ← if j.returnTo.truthy then w.entry (← j.returnTo.label) counts else pure w.post
        f' after) := by
    intro f f' hf
    split
    · exact Walking.agrees_lift_bind fun l _ => (entry l counts).bind hf
    · exact (Walking.preserves_pure w.post).bind hf
  unfold Walker.destination
  split
  · split
    · exact Walking.preserves_throw _
    · exact Walking.agrees_lift_bind fun l _ => entry l counts
  · exact Walking.preserves_pure _
  · next hkind =>
    refine hafter fun after => ?_
    simp only [hkind, reduceCtorEq, if_false]
    exact Walking.agrees_lift (hI.agrees_call hinline after (h hkind))
  · next hkind =>
    refine hafter fun after => ?_
    simp only [hkind, if_true]
    exact Walking.preserves_pure _

theorem agrees_jump {j : Jmp} (counts : Counts) (otherwise : Constraint)
    (hcond : ∀ v ∈ j.cond.vars, v.Within allowed)
    (hcall : j.kind = .call → ∀ name, j.callee = .ok name → called name) :
    (w.jump counts j otherwise).Agrees I ({ w with inline }.jump counts j otherwise) := by
  refine Walking.Agrees.bind (Walking.preserves_lift (hI.condition hcond)) fun p => ?_
  dsimp only
  split
  · exact Walking.preserves_lift (hI.guarded _ _)
  · exact (hI.agrees_destination hinline counts hcall).bind fun _ =>
      (Walking.preserves_lift (hI.branch _ _ _ _)).bind fun _ =>
        Walking.preserves_lift (hI.guarded _ _)

/-- Blocks are built alike with both inliners. -/
theorem agrees_block {n : Node} (counts : Counts)
    (hvars : ∀ v ∈ n.block.vars, v.Within allowed)
    (hcalls : ∀ j ∈ n.block.jmps, j.kind = .call → ∀ name, j.callee = .ok name → called name) :
    (w.block n counts).Agrees I ({ w with inline }.block n counts) := by
  simp only [Blk.vars, List.forall_mem_append, List.forall_mem_flatMap] at hvars
  have hlast : ∀ last : Constraint, (do
      let jumps ← n.block.jmps.foldrM (w.jump counts) last
      n.block.defs.foldrM (fun d post => Build.definition post d) jumps
      : Walking Constraint).Agrees I (do
      let jumps ← n.block.jmps.foldrM ({ w with inline }.jump counts) last
      n.block.defs.foldrM (fun d post => Build.definition post d) jumps) := by
    intro last
    refine Walking.Agrees.bind (Walking.agrees_foldrM _ fun j hj c =>
      hI.agrees_jump hinline counts c (hvars.2 j hj) (hcalls j hj)) fun jumps => ?_
    exact Walking.agrees_foldrM _ fun d hd post =>
      Walking.preserves_lift (hI.definition post (hvars.1 d hd))
  unfold Walker.block
  dsimp only
  split
  · exact (entry (w := w) _ _).bind hlast
  · exact (Walking.preserves_pure _).bind hlast

variable
  (hgraph : ∀ n ∈ w.flow.graph,
    (∀ v ∈ n.block.vars, v.Within allowed) ∧
      ∀ j ∈ n.block.jmps, j.kind = .call → ∀ name, j.callee = .ok name → called name)
include hgraph

theorem agrees_build (k : Key) : (w.build k).Agrees I ({ w with inline }.build k) := by
  refine Walking.agrees_env_bind fun σ _ => Walking.agrees_lift_bind fun isCut _ => ?_
  split
  · exact Walking.preserves_lift (hI.cut _)
  · refine Walking.agrees_lift_bind fun n hn => ?_
    obtain ⟨hvars, hcalls⟩ := hgraph n (Flow.mem_of_node hn)
    exact hI.agrees_block hinline k.counts hvars hcalls

/-- **Keys**: treating a key and all keys that it needs. -/
theorem agrees_visit (bound : Nat) (path : List Key) (k : Key) :
    (w.visit bound path k).Agrees I ({ w with inline }.visit bound path k) := by
  induction bound generalizing path k with
  | zero => exact Walking.preserves_throw _
  | succ bound ih =>
    refine Walking.agrees_get_bind fun m => ?_
    split
    · exact Walking.preserves_pure _
    · split
      · exact Walking.preserves_throw _
      · refine Walking.agrees_env_bind fun σ _ => Walking.agrees_lift_bind fun needs _ => ?_
        refine Walking.Agrees.bind (Walking.agrees_forM fun k' _ => ih (k :: path) k') fun _ => ?_
        exact (hI.agrees_build hinline hgraph k).bind fun _ => Walking.preserves_modify _

/-- **Walks** are the same with both inliners. -/
theorem agrees_run : w.run.Agrees I { w with inline }.run := by
  unfold Walker.run
  dsimp only
  split
  · exact (preserves_pure _).agrees
  · refine Build.agrees_env_bind fun σ _ =>
      Agrees.bind (hI.agrees_visit hinline hgraph _ [] _ {}) fun p => ?_
    split
    · exact (preserves_pure _).agrees
    · exact (preserves_throw _).agrees

end Walker

end Steady

/-- Unrolling copies blocks, so that their names are those of the subroutine. -/
theorem Sub.Within.graph {allowed : Label → Prop} {called : String → Prop} {sub : Sub} {f : Flow}
    (h : sub.Within allowed called) (hf : sub.flow = .ok f) : ∀ n ∈ f.graph,
    (∀ v ∈ n.block.vars, v.Within allowed) ∧
      ∀ j ∈ n.block.jmps, j.kind = .call → ∀ name, j.callee = .ok name → called name := by
  intro n hn
  have hb : n.block ∈ sub.blks := by
    rw [← Sub.map_block_flow hf]
    exact List.mem_map_of_mem hn
  exact ⟨fun v hv => h.vars v (List.mem_flatMap.mpr ⟨n.block, hb, hv⟩), h.calls n.block hb⟩

namespace Stable

variable {I : Session → Prop} {allowed : Label → Prop} {called : String → Prop}
  (hI : Stable I allowed called)
include hI

/-- An inlined body keeps the invariant if its walk does; the activation is closed after it. -/
theorem inline {walk : Constraint → Sub → Build Constraint} {sub : Sub} {post : Constraint}
    (hwalk : (walk post sub).Preserves I) (names : List Label) (tid : Json) :
    (Build.summarize walk post sub tid (.inline names)).Agrees I
      (Build.summarize walk post sub tid (.inline names)) := by
  refine Preserves.agrees (preserves_lift_bind fun l _ => Preserves.bind ?_ fun _ => ?_)
  · exact preserves_modify fun σ hσ => hI.depths _ hσ
  · exact fun σ hσ => hI.depths _ (hwalk σ hσ)

section Walker

variable {w : Walker}
  (hinline : ∀ post sub, sub.Within allowed called → (w.inline post sub).Preserves I)
  (hgraph : ∀ n ∈ w.flow.graph,
    (∀ v ∈ n.block.vars, v.Within allowed) ∧
      ∀ j ∈ n.block.jmps, j.kind = .call → ∀ name, j.callee = .ok name → called name)
include hinline hgraph

theorem build (k : Key) : (w.build k).Preserves I :=
  hI.agrees_build (fun _ _ hsub _ post tid => hI.inline (hinline post _ hsub) _ tid) hgraph k

theorem visit (bound : Nat) (path : List Key) (k : Key) : (w.visit bound path k).Preserves I :=
  hI.agrees_visit (fun _ _ hsub _ post tid => hI.inline (hinline post _ hsub) _ tid) hgraph
    bound path k

theorem run : w.run.Preserves I :=
  (hI.agrees_run (fun _ _ hsub _ post tid => hI.inline (hinline post _ hsub) _ tid)
    hgraph).preserves

end Walker

/-- A precondition of a subroutine within its names keeps the invariant, at any bound. -/
theorem preconditionWithin (bound : Nat) (post : Constraint) {sub : Sub}
    (h : sub.Within allowed called) :
    (Antecedent.preconditionWithin bound post sub).Preserves I := by
  induction bound generalizing post sub with
  | zero => exact preserves_throw _
  | succ bound ih =>
    unfold Antecedent.preconditionWithin
    split
    · exact preserves_pure _
    · exact preserves_lift_bind fun f hf =>
        hI.run (fun post sub hsub => ih post hsub) (h.graph hf)

/-- **The walk of a subroutine keeps a stable invariant**, calls and inlined bodies included. -/
theorem precondition (post : Constraint) {sub : Sub} (h : sub.Within allowed called) :
    (Antecedent.precondition post sub).Preserves I :=
  Build.preserves_env_bind fun _ _ => hI.preconditionWithin _ post h

end Stable

end Antecedent
