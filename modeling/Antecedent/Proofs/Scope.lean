import Antecedent.Proofs.Making
import Antecedent.Proofs.Reading

/-!
# What walks may read

A walk reads constants: those of variables, and those that it makes up itself.  It writes more of
them than it reads.

* `Term.RestsOn` says that the value of a term depends on some constants only.
* `Scope` fixes what a walk may read.
-/

namespace Antecedent

/-! ## §1 Terms that rest on some constants -/

/-- Two states agree on some constants, and on all functions. -/
structure State.AgreeOn (V : Symbol → Srt → Prop) (s s' : State) : Prop where
  const : ∀ ⦃name srt⦄, V name srt → s.const name srt = s'.const name srt
  apply : s.apply = s'.apply

theorem State.AgreeOn.mono {V W : Symbol → Srt → Prop} {s s' : State} (h : s.AgreeOn W s')
    (hVW : ∀ name srt, V name srt → W name srt) : s.AgreeOn V s' :=
  ⟨fun _ _ hV => h.const (hVW _ _ hV), h.apply⟩

/-- The value of an operator depends on the functions of a state only. -/
theorem Op.eval_congr_apply {s s' : State} (h : s.apply = s'.apply) (op : Op) (vs : List Value) :
    op.eval s vs = op.eval s' vs := by
  by_cases hop : ∃ f ss w, op = .apply f ss w
  · obtain ⟨f, ss, w, rfl⟩ := hop
    rw [Op.eval, Op.eval, h]
  · exact Op.eval_congr (fun f ss w heq => hop ⟨f, ss, w, heq⟩) s s' vs

namespace Term

/-- The value of a term depends on some constants only, and on the functions. -/
def RestsOn (V : Symbol → Srt → Prop) (t : Term) : Prop :=
  ∀ ⦃s s' : State⦄, s.AgreeOn V s' → t.eval s = t.eval s'

variable {V W : Symbol → Srt → Prop} {t : Term}

theorem RestsOn.mono (h : t.RestsOn V) (hVW : ∀ name srt, V name srt → W name srt) :
    t.RestsOn W :=
  fun _ _ hs => h (hs.mono hVW)

theorem RestsOn.app {op : Op} {args : List Term} (h : ∀ u ∈ args, u.RestsOn V) :
    (Term.app op args).RestsOn V := by
  intro s s' hs
  have hargs : args.map (Term.eval s) = args.map (Term.eval s') :=
    List.map_congr_left fun u hu => h u hu hs
  rw [eval_app, eval_app, hargs, Op.eval_congr_apply hs.apply]

theorem restsOn_const {name : Symbol} {srt : Srt} (h : V name srt) :
    (Term.const name srt).RestsOn V := by
  intro s s' hs
  rw [eval_const, eval_const, hs.const h]

theorem Over.restsOn (h : t.Over V) : t.RestsOn V :=
  fun _ _ hs => eval_congr h fun _ _ hV => hs.const hV

inductive Mentions (name : Symbol) (srt : Srt) : Term → Prop where
  | const : Mentions name srt (.const name srt)
  | app {op : Op} {args : List Term} {u : Term} (hu : u ∈ args) (h : Mentions name srt u) :
      Mentions name srt (.app op args)

/-- **A term rests on the constants that occur in it.** -/
theorem restsOn_of_mentions (t : Term) (h : ∀ name srt, t.Mentions name srt → V name srt) :
    t.RestsOn V := by
  induction t using Term.induction with
  | lit b => exact fun _ _ _ => by simp
  | num w n => exact fun _ _ _ => by simp
  | const name srt => exact restsOn_const (h _ _ .const)
  | app op args ih =>
    exact RestsOn.app fun u hu => ih u hu fun name srt hm => h _ _ (.app hu hm)

end Term

/-! ## §2 Scopes -/

/-- The constant of a variable may be read, in all environments from a given one on. -/
def Var.ReadIn (reads : Environment → Symbol → Srt → Prop) (e : Environment) (v : Var) : Prop :=
  ∀ ⦃e' : Environment⦄ ⦃name : Symbol⦄ ⦃srt : Srt⦄, e.Grows e' → e'.Gives v (.const name srt) →
    reads e' name srt

/-- The constants that a walk may read, in all environments from a given one on, the bodies that it
may walk and the subroutines that it may call.  What is read in a body may be read, and callees may
be walked. -/
structure Scope (e : Environment) where
  reads : Environment → Symbol → Srt → Prop
  body : Sub → Prop
  callee : Sub → Prop
  mono : ∀ {e1 e2 : Environment} {name : Symbol} {srt : Srt}, e1.Grows e2 → reads e1 name srt →
    reads e2 name srt
  cut : ∀ e' : Environment, reads e' cutSymbol .bool
  fresh : ∀ {e' : Environment} {name : Symbol} {srt : Srt}, e'.IsFresh name → reads e' name srt
  memory : e.memVar.ReadIn reads e
  inputs : ∀ {r : String} {v : Var}, r ∈ e.arch.inputRegisters → e.regVar r = .ok v →
    v.ReadIn reads e
  hooks : ∀ {memory : Term} {map : AddressMap} {e' : Environment}, .sameAs memory map ∈ e.hooks →
    e.Grows e' → memory.Proper (reads e') ∨ ∀ name srt, reads e' name srt
  vars : ∀ {sub : Sub} {v : Var}, body sub → v ∈ sub.vars → v.ReadIn reads e
  args : ∀ {sub : Sub} {a : Arg}, callee sub → a ∈ sub.args → Build.isInput a = true →
    a.var.ReadIn reads e
  calls : ∀ {sub : Sub} {b : Blk} {j : Jmp} {name : String}, body sub → b ∈ sub.blks →
    j ∈ b.jmps → j.kind = .call → j.callee = .ok name →
      callee ((e.findSub? name).getD { name := .str name })
  walks : ∀ {sub : Sub}, callee sub → body sub

namespace Scope

def all (e : Environment) : Scope e where
  reads _ _ _ := True
  body _ := True
  callee _ := True
  mono _ _ := True.intro
  cut _ := True.intro
  fresh _ := True.intro
  memory _ _ _ _ _ := True.intro
  inputs _ _ _ _ _ _ _ := True.intro
  hooks _ _ := .inr fun _ _ => True.intro
  vars _ _ _ _ _ _ _ := True.intro
  args _ _ _ _ _ _ _ _ := True.intro
  calls _ _ _ _ _ := True.intro
  walks _ := True.intro

open Build

variable {e : Environment} (S : Scope e) {σ : Session} {ν : Nat → Constraint}

theorem proper_mono {σ' : Session} {ν' : Nat → Constraint} (hb : Builds σ ν σ' ν') {t : Term}
    (h : t.Proper (S.reads σ.env)) : t.Proper (S.reads σ'.env) :=
  h.mono fun _ _ => S.mono hb.step.env

theorem restsOn_mono {σ' : Session} {ν' : Nat → Constraint} (hb : Builds σ ν σ' ν') {t : Term}
    (h : t.RestsOn (S.reads σ.env)) : t.RestsOn (S.reads σ'.env) :=
  h.mono fun _ _ => S.mono hb.step.env

/-- A term that reads nothing else, and accesses at addresses that read nothing else. -/
structure Sees (σ : Session) (p : Term × List Access) : Prop where
  term : p.1.Proper (S.reads σ.env)
  accesses : ∀ a ∈ p.2, a.addr.Proper (S.reads σ.env)

variable {S} in
theorem Sees.mono {σ' : Session} {ν' : Nat → Constraint} {p : Term × List Access} (h : S.Sees σ p)
    (hb : Builds σ ν σ' ν') : S.Sees σ' p :=
  ⟨S.proper_mono hb h.term, fun a ha => S.proper_mono hb (h.accesses a ha)⟩

variable (hσ : e.Grows σ.env)
include hσ

theorem makes_getVar {v : Var} (hv : v.ReadIn S.reads e) :
    (getVar v).Makes σ ν fun σ' _ t => t.Proper (S.reads σ'.env) := by
  refine Build.makes_getVar.mono fun σ' _ t hb => ?_
  rintro ⟨hgives, name, srt, rfl, -⟩
  exact ⟨.const name srt, .const (hv (hσ.trans hb.step.env) hgives)⟩

theorem makes_getInput {r : String} (hr : r ∈ e.arch.inputRegisters) :
    (getRegister r).Makes σ ν fun σ' _ t => t.Proper (S.reads σ'.env) := by
  refine Build.makes_getRegister.mono fun σ' _ t hb => ?_
  rintro ⟨⟨v, hv, hgives⟩, name, srt, rfl, -⟩
  have hv' : e.regVar r = .ok v := by
    rw [← hv, Environment.regVar, Environment.regVar, hσ.arch]
  exact ⟨.const name srt, .const (S.inputs hr hv' (hσ.trans hb.step.env) hgives)⟩

omit hσ in
theorem makes_fresh {stem : String} {width : Json} :
    (Build.fresh stem width).Makes σ ν fun σ' _ t => t.Proper (S.reads σ'.env) := by
  refine Build.makes_fresh.mono fun σ' _ t _ => ?_
  rintro ⟨name, w, rfl, hfresh⟩
  exact ⟨.const name _, .const (S.fresh hfresh)⟩

omit hσ in
/-- The result of a call is a constant that is made up, or a function of the inputs. -/
theorem makes_callResult {symbol : String} {inputs : List Term} {width : Json}
    (h : ∀ t ∈ inputs, t.Proper (S.reads σ.env)) :
    (callResult symbol inputs width).Makes σ ν fun σ' _ t =>
      t.WellSorted ∧ t.RestsOn (S.reads σ'.env) := by
  unfold callResult
  split
  · exact S.makes_fresh.mono fun _ _ t _ ht => ⟨ht.sorted, ht.uses.restsOn⟩
  · refine makes_lift_bind fun w _ => makes_pure ⟨?_, .app fun t ht => (h t ht).uses.restsOn⟩
    have hsort : (Op.apply (Symbol.ofText symbol) (inputs.map Term.sort) w).sort?
        (inputs.map Term.sort) = some (.bits w) := by
      simp [Op.sort?]
    exact .app (fun t ht => (h t ht).sorted) hsort

/-- **Terms of expressions** read what the variables of the expression stand for, and constants made
up for unknown parts. -/
theorem makes_toTerm {x : Expr} {tid : Json} (hx : ∀ v ∈ x.vars, v.ReadIn S.reads e) :
    (x.toTerm tid).Makes σ ν fun σ' _ p => S.Sees σ' p := by
  -- what has been read stays readable while the other parts are translated
  induction x generalizing σ ν with
    rw [Expr.toTerm]
  | var v =>
    refine (S.makes_getVar hσ (hx v (by simp [Expr.vars]))).bind fun t σ' ν' _ ht => ?_
    exact makes_pure ⟨ht, by simp⟩
  | int value width =>
    refine makes_lift_bind fun t ht => makes_pure ⟨?_, by simp⟩
    obtain rfl := Term.mkNumeral_ok ht
    exact Term.proper_numeral _ _
  | load mem addr size endian ihm iha =>
    obtain ⟨hm, ha⟩ := List.forall_mem_append.mp hx
    refine (iha hσ ha).bind₂ fun a as σ1 ν1 hb1 ha => ?_
    refine (ihm (hσ.trans hb1.step.env) hm).bind₂ fun m ms σ2 ν2 hb2 hm => ?_
    have ha := ha.mono hb2
    refine makes_lift_bind fun t ht =>
      makes_pure ⟨(Term.loadBytes_ok hm.term ha.term ht).proper, ?_⟩
    exact List.forall_mem_append.mpr
      ⟨ha.accesses, List.forall_mem_cons.mpr ⟨ha.term, hm.accesses⟩⟩
  | store mem addr value size endian ihm iha ihv =>
    obtain ⟨hx, hv⟩ := List.forall_mem_append.mp hx
    obtain ⟨hm, ha⟩ := List.forall_mem_append.mp hx
    refine (iha hσ ha).bind₂ fun a as σ1 ν1 hb1 ha => ?_
    refine (ihm (hσ.trans hb1.step.env) hm).bind₂ fun m ms σ2 ν2 hb2 hm => ?_
    refine (ihv (hσ.trans (hb1.trans hb2).step.env) hv).bind₂ fun v vs σ3 ν3 hb3 hv => ?_
    have ha := ha.mono (hb2.trans hb3)
    have hm := hm.mono hb3
    refine makes_lift_bind fun t ht =>
      makes_pure ⟨(Term.storeBytes_ok hm.term ha.term hv.term ht).proper, ?_⟩
    exact List.forall_mem_append.mpr ⟨ha.accesses, List.forall_mem_cons.mpr
      ⟨ha.term, List.forall_mem_append.mpr ⟨hm.accesses, hv.accesses⟩⟩⟩
  | binop op lhs rhs ihl ihr =>
    obtain ⟨hl, hr⟩ := List.forall_mem_append.mp hx
    refine (ihl hσ hl).bind₂ fun l ls σ1 ν1 hb1 hl => ?_
    refine (ihr (hσ.trans hb1.step.env) hr).bind₂ fun r rs σ2 ν2 hb2 hr => ?_
    have hl := hl.mono hb2
    exact makes_lift_bind fun t ht => makes_pure ⟨(Term.applyBinary_ok hl.term hr.term ht).proper,
      List.forall_mem_append.mpr ⟨hl.accesses, hr.accesses⟩⟩
  | unop op arg ih =>
    refine (ih hσ hx).bind₂ fun u us _ _ _ hu => ?_
    exact makes_lift_bind fun t ht =>
      makes_pure ⟨(Term.applyUnary_ok hu.term ht).proper, hu.accesses⟩
  | cast kind width arg ih =>
    refine (ih hσ hx).bind₂ fun u us _ _ _ hu => ?_
    exact makes_lift_bind fun t ht =>
      makes_pure ⟨(Term.applyCast_ok hu.term ht).proper, hu.accesses⟩
  | ite cond yes no ihc ihy ihn =>
    obtain ⟨hx, hn⟩ := List.forall_mem_append.mp hx
    obtain ⟨hc, hy⟩ := List.forall_mem_append.mp hx
    refine (ihc hσ hc).bind₂ fun c cs σ1 ν1 hb1 hc => makes_lift_bind fun b hb => ?_
    refine (ihy (hσ.trans hb1.step.env) hy).bind₂ fun y ys σ2 ν2 hb2 hy => ?_
    refine (ihn (hσ.trans (hb1.trans hb2).step.env) hn).bind₂ fun n ns σ3 ν3 hb3 hn => ?_
    have hc := hc.mono (hb2.trans hb3)
    have hy := hy.mono hb3
    have hd := (Term.bitToBool_ok hc.term hb).proper
    exact makes_lift_bind fun t ht =>
      makes_pure ⟨.app ht (by simp) (by simp [hd, hy.term, hn.term]),
        List.forall_mem_append.mpr
          ⟨List.forall_mem_append.mpr ⟨hc.accesses, hy.accesses⟩, hn.accesses⟩⟩
  | extract hi lo arg ih =>
    refine (ih hσ hx).bind₂ fun u us _ _ _ hu => makes_lift_bind fun bounds _ => ?_
    obtain ⟨i, j⟩ := bounds
    exact makes_lift_bind fun t ht =>
      makes_pure ⟨(Term.mkExtract_ok hu.term ht).proper, hu.accesses⟩
  | concat lhs rhs ihl ihr =>
    obtain ⟨hl, hr⟩ := List.forall_mem_append.mp hx
    refine (ihl hσ hl).bind₂ fun l ls σ1 ν1 hb1 hl => ?_
    refine (ihr (hσ.trans hb1.step.env) hr).bind₂ fun r rs σ2 ν2 hb2 hr => ?_
    have hl := hl.mono hb2
    exact makes_lift_bind fun t ht => makes_pure ⟨(Term.mk_concat_ok hl.term hr.term ht).proper,
      List.forall_mem_append.mpr ⟨hl.accesses, hr.accesses⟩⟩
  | unknown width reason =>
    exact S.makes_fresh.bind fun t _ _ _ ht => makes_pure ⟨ht, by simp⟩

theorem makes_condition {x : Expr} {tid : Json} (hx : ∀ v ∈ x.vars, v.ReadIn S.reads e) :
    (x.condition tid).Makes σ ν fun σ' _ p => S.Sees σ' p :=
  (S.makes_toTerm hσ hx).bind₂ fun _ _ _ _ _ h => makes_lift_bind fun _ ht =>
    makes_env_bind <| makes_pure
      ⟨(Simplifier.denotes _ (Term.bitToBool_ok h.term ht)).proper, h.accesses⟩

end Scope

end Antecedent
