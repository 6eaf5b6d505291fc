import Antecedent.Proofs.Conditions

/-!
# Rules for builders

What a builder gives can be shown from what its parts give, in sessions whose constants are what
they should be, and with the table that lists the nodes made.

* `Build.Makes` is the predicate, with one rule for every way to put builders together.
* `Walker.makes_run` is about whole walks.
-/

namespace Antecedent

/-- The flag of a called function is not the constant for cut paths. -/
theorem Environment.flagSymbol_ne_cut (e : Environment) (callee : String) :
    e.flagSymbol callee ≠ cutSymbol := by
  have htake : (calledMark ++ callee ++ e.suffix).toList.takeWhile (· != '\x00') =
      'c' :: ("alled_".toList ++ (callee ++ e.suffix).toList.takeWhile (· != '\x00')) := by
    simp [calledMark]
  intro h
  rw [flagSymbol, Symbol.ofText, htake, cutSymbol] at h
  simp only [List.isEmpty_cons, Bool.false_eq_true, if_false, Symbol.text.injEq] at h
  have hlist := congrArg String.toList h
  simp at hlist

theorem Environment.grows_setDepth (e : Environment) (l : Label) (n : Nat) :
    e.Grows (e.setDepth l n) :=
  ⟨rfl, rfl, rfl, rfl, rfl, rfl, rfl, rfl, List.prefix_rfl, List.prefix_rfl, List.suffix_rfl⟩

/-- A symbol that was made up: that of an introduced name that ends in a number. -/
def Environment.IsFresh (e : Environment) (name : Symbol) : Prop :=
  ∃ (stem : String) (n : Nat) (l : Label), e.localName (.text s!"{stem}_{n}") = .ok l ∧
    l ∈ e.introduced ∧ Term.symbolOf l = .ok name

theorem Build.isFresh_of_ends {stem : String} {width : Json} {name : Symbol} {srt : Srt}
    {σ σ' : Session} (h : (fresh stem width).Ends σ (.const name srt) σ') :
    σ'.env.IsFresh name := by
  simp only [fresh, freshBase, ends_bind, ends_get, ends_set, ends_name, ends_lift, ends_pure,
    Term.const.injEq] at h
  obtain ⟨_, _, ⟨_, _, ⟨rfl, rfl⟩, _, _, rfl, rfl, rfl⟩, l, _, ⟨hl, rfl⟩, w, _, ⟨-, rfl⟩, _, _,
    ⟨hname, rfl⟩, ⟨rfl, -⟩, rfl⟩ := h
  exact ⟨stem, σ.supply.names + 1, l, hl, List.mem_cons_self .., hname⟩

/-! ## §1 Rules -/

namespace Build

variable {α β : Type} {σ : Session} {ν : Nat → Constraint}

/-- What a builder gives, if it ends, where constants are what they should be: the session and the
table are extended, and the result satisfies a predicate. -/
def Makes (act : Build α) (σ : Session) (ν : Nat → Constraint)
    (Q : Session → (Nat → Constraint) → α → Prop) : Prop :=
  σ.env.Sound → ∀ a σ', act.Ends σ a σ' → ∃ ν', Builds σ ν σ' ν' ∧ Q σ' ν' a

variable {Q : Session → (Nat → Constraint) → α → Prop}
  {R : Session → (Nat → Constraint) → β → Prop}

theorem makes_pure {a : α} (h : Q σ ν a) : Makes (pure a) σ ν Q := by
  intro _ a' σ' hends
  obtain ⟨rfl, rfl⟩ := ends_pure.mp hends
  exact ⟨ν, .refl σ ν, h⟩

theorem makes_throw {f : Fault} : Makes (throw f) σ ν Q :=
  fun _ _ _ hends => (ends_throw.mp hends).elim

theorem Makes.bind {act : Build α} {f : α → Build β} (h : act.Makes σ ν Q)
    (hf : ∀ a σ' ν', Builds σ ν σ' ν' → Q σ' ν' a → (f a).Makes σ' ν' R) :
    (act >>= f).Makes σ ν R := by
  intro hsound b σ' hends
  obtain ⟨a, τ, hact, hrest⟩ := ends_bind.mp hends
  obtain ⟨ν1, hb1, hq⟩ := h hsound a τ hact
  obtain ⟨ν2, hb2, hr⟩ :=
    hf a τ ν1 hb1 hq (hb1.step.sound hsound) b σ' hrest
  exact ⟨ν2, hb1.trans hb2, hr⟩

theorem Makes.bind₂ {γ : Type} {P : Session → (Nat → Constraint) → α × γ → Prop}
    {act : Build (α × γ)} {f : α × γ → Build β} (h : act.Makes σ ν P)
    (hf : ∀ a c σ' ν', Builds σ ν σ' ν' → P σ' ν' (a, c) → (f (a, c)).Makes σ' ν' R) :
    (act >>= f).Makes σ ν R :=
  h.bind fun p => hf p.1 p.2

theorem Makes.mono {act : Build α} {Q' : Session → (Nat → Constraint) → α → Prop}
    (h : act.Makes σ ν Q) (hq : ∀ σ' ν' a, Builds σ ν σ' ν' → Q σ' ν' a → Q' σ' ν' a) :
    act.Makes σ ν Q' := by
  intro hsound a σ' hends
  obtain ⟨ν', hb, ha⟩ := h hsound a σ' hends
  exact ⟨ν', hb, hq _ _ _ hb ha⟩

theorem makes_lift_bind {x : Except Fault α} {f : α → Build β}
    (h : ∀ a, x = .ok a → (f a).Makes σ ν R) : (liftM x >>= f).Makes σ ν R := by
  intro hsound b σ' hends
  obtain ⟨a, _, hlift, hrest⟩ := ends_bind.mp hends
  obtain ⟨hx, rfl⟩ := ends_lift.mp hlift
  exact h a hx hsound b σ' hrest

theorem makes_env_bind {f : Environment → Build β} (h : (f σ.env).Makes σ ν R) :
    (env >>= f).Makes σ ν R := by
  intro hsound b σ' hends
  obtain ⟨e, _, henv, hrest⟩ := ends_bind.mp hends
  obtain ⟨rfl, rfl⟩ := ends_env.mp henv
  exact h hsound b σ' hrest

/-- A builder that makes no nodes. -/
theorem makes_of_step {act : Build α} {P : Session → α → Prop}
    (h : ∀ a σ', act.Ends σ a σ' → σ.env.Sound → σ.Step σ' ∧ P σ' a) :
    act.Makes σ ν fun σ' _ a => P σ' a := by
  intro hsound a σ' hends
  obtain ⟨hstep, ha⟩ := h a σ' hends hsound
  exact ⟨ν, .of_step hstep, ha⟩

section Lists

variable {as : List α}

theorem makes_mapM {f : α → Build β}
    (hmono : ∀ {σ ν σ' ν' b}, Builds σ ν σ' ν' → R σ ν b → R σ' ν' b)
    (h : ∀ a ∈ as, ∀ σ' ν', Builds σ ν σ' ν' → (f a).Makes σ' ν' R) :
    (as.mapM f).Makes σ ν fun σ' ν' bs => ∀ b ∈ bs, R σ' ν' b := by
  induction as generalizing σ ν with
  | nil => exact makes_pure (by simp)
  | cons a as ih =>
    obtain ⟨ha, has⟩ := List.forall_mem_cons.mp h
    rw [List.mapM_cons]
    refine (ha σ ν (.refl σ ν)).bind fun b σ1 ν1 hb1 hb => ?_
    refine (ih fun a' ha' σ2 ν2 hb2 => has a' ha' σ2 ν2 (hb1.trans hb2)).bind
      fun bs σ2 ν2 hb2 hbs => ?_
    exact makes_pure (List.forall_mem_cons.mpr ⟨hmono hb2 hb, hbs⟩)

theorem makes_flatMapM {f : α → Build (List β)}
    (hmono : ∀ {σ ν σ' ν' b}, Builds σ ν σ' ν' → R σ ν b → R σ' ν' b)
    (h : ∀ a ∈ as, ∀ σ' ν', Builds σ ν σ' ν' →
      (f a).Makes σ' ν' fun σ' ν' bs => ∀ b ∈ bs, R σ' ν' b) :
    (as.flatMapM f).Makes σ ν fun σ' ν' bs => ∀ b ∈ bs, R σ' ν' b := by
  induction as generalizing σ ν with
  | nil =>
    rw [List.flatMapM_nil]
    exact makes_pure (by simp)
  | cons a as ih =>
    obtain ⟨ha, has⟩ := List.forall_mem_cons.mp h
    rw [List.flatMapM_cons]
    refine (ha σ ν (.refl σ ν)).bind fun bs σ1 ν1 hb1 hbs => ?_
    refine (ih fun a' ha' σ2 ν2 hb2 => has a' ha' σ2 ν2 (hb1.trans hb2)).bind
      fun rest σ2 ν2 hb hrest => ?_
    exact makes_pure
      (List.forall_mem_append.mpr ⟨fun b hmem => hmono hb (hbs b hmem), hrest⟩)

theorem makes_filterMapM {f : α → Build (Option β)}
    (hmono : ∀ {σ ν σ' ν' b}, Builds σ ν σ' ν' → R σ ν b → R σ' ν' b)
    (h : ∀ a ∈ as, ∀ σ' ν', Builds σ ν σ' ν' →
      (f a).Makes σ' ν' fun σ' ν' r => ∀ b ∈ r, R σ' ν' b) :
    (as.filterMapM f).Makes σ ν fun σ' ν' bs => ∀ b ∈ bs, R σ' ν' b := by
  rw [List.filterMapM_eq_flatMapM]
  refine makes_flatMapM hmono fun a ha σ' ν' hb => ?_
  rw [map_eq_pure_bind]
  exact (h a ha σ' ν' hb).bind fun r _ _ _ hr => makes_pure (by simpa using hr)

end Lists

/-! ## §2 Constants -/

/-- Variables are constants, and none of them is Boolean. -/
theorem makes_getVar {v : Var} :
    (getVar v).Makes σ ν fun σ' _ t =>
      σ'.env.Gives v t ∧ ∃ name srt, t = .const name srt ∧ srt ≠ .bool := by
  refine makes_of_step fun t σ' hends hsound => ?_
  obtain ⟨hstep, -, hgives⟩ := ends_getVar hends
  obtain ⟨name, srt, rfl, howns⟩ := hgives.const (hstep.sound hsound)
  exact ⟨hstep, hgives, name, srt, rfl, (hstep.sound hsound).owns_ne_bool howns⟩

theorem makes_getRegister {r : String} :
    (getRegister r).Makes σ ν fun σ' _ t => (∃ v, σ.env.regVar r = .ok v ∧ σ'.env.Gives v t) ∧
      ∃ name srt, t = .const name srt ∧ srt ≠ .bool :=
  makes_env_bind (makes_lift_bind fun v hv =>
    makes_getVar.mono fun _ _ _ _ h => ⟨⟨v, hv, h.1⟩, h.2⟩)

/-- A constant that is drawn was not there before. -/
theorem makes_fresh {stem : String} {width : Json} :
    (fresh stem width).Makes σ ν fun σ' _ t =>
      ∃ name w, t = .const name (.bits w) ∧ σ'.env.IsFresh name := by
  refine makes_of_step fun t σ' hends _ => ?_
  obtain ⟨hstep, name, w, rfl⟩ := ends_fresh hends
  exact ⟨hstep, name, w, rfl, isFresh_of_ends hends⟩

/-- The flag of a callee is Boolean, and not the flag of cuts. -/
theorem makes_callFlag {callee : String} (hflag : σ.env.Flagged) :
    (callFlag callee).Makes σ ν fun _ _ t => ∃ name, t = .const name .bool ∧ name ≠ cutSymbol := by
  refine makes_of_step fun t σ' hends _ => ?_
  obtain ⟨hstep, -, rfl⟩ := ends_callFlag hends hflag
  exact ⟨hstep, _, rfl, σ.env.flagSymbol_ne_cut callee⟩

/-- An inlined call walks the callee, one level deeper. -/
theorem ends_inline {walk : Constraint → Sub → Build Constraint} {callee : Sub}
    {post c : Constraint} {tid : Json} {names : List Label} {σ' : Session} :
    (summarize walk post callee tid (.inline names)).Ends σ c σ' ↔
      ∃ l τ, callee.name.label = .ok l ∧
        (walk post callee).Ends { σ with env := σ.env.setDepth l (σ.env.depth l + 1) } c τ ∧
        σ' = { τ with env := τ.env.setDepth l (τ.env.depth l - 1) } := by
  -- what is done at the end is done to the session that the walk leaves behind
  have hclose : ∀ {act : Build Constraint} {f : Session → Session} {σ σ' : Session},
      (ExceptT.mk do
        let r ← act.run
        modify f
        return r : Build Constraint).Ends σ c σ' ↔ ∃ τ, act.Ends σ c τ ∧ σ' = f τ := by
    intro act f σ σ'
    constructor
    · intro h
      have hpair : ((Id.run (act.run.run σ)).1, f (Id.run (act.run.run σ)).2) = (.ok c, σ') := h
      obtain ⟨hc, rfl⟩ := Prod.mk.inj hpair
      exact ⟨_, Prod.ext hc rfl, rfl⟩
    · rintro ⟨τ, hact, rfl⟩
      exact congrArg (fun r => (r.1, f r.2)) hact
  simp only [summarize, ends_bind, ends_lift, ends_modifyEnv, hclose]
  constructor
  · rintro ⟨l, _, ⟨hl, rfl⟩, _, _, rfl, τ, hwalk, rfl⟩
    exact ⟨l, τ, hl, hwalk, rfl⟩
  · rintro ⟨l, τ, hl, hwalk, rfl⟩
    exact ⟨l, σ, ⟨hl, rfl⟩, (), _, rfl, τ, hwalk, rfl⟩

end Build

/-! ## §3 Tables of conditions -/

/-- Whether all conditions of a table have the property of their keys. -/
def Memo.All (T : Key → Session → (Nat → Constraint) → Constraint → Prop) (σ : Session)
    (ν : Nat → Constraint) (m : Memo) : Prop :=
  ∀ (k : Key) (c : Constraint), m.lookup k = some c → T k σ ν c

theorem Memo.All.insert {T : Key → Session → (Nat → Constraint) → Constraint → Prop} {σ : Session}
    {ν : Nat → Constraint} {m : Memo} (h : Memo.All T σ ν m) {k : Key} {c : Constraint}
    (hc : T k σ ν c) : Memo.All T σ ν ((k, c) :: m) := by
  intro k' c' hc'
  rw [Memo.lookup_cons] at hc'
  split at hc'
  · next heq => rwa [← Option.some.inj hc', ← heq]
  · exact h k' c' hc'

namespace Walking

variable {α β : Type} {T : Key → Session → (Nat → Constraint) → Constraint → Prop} {σ : Session}
  {ν : Nat → Constraint} {Q : Session → (Nat → Constraint) → α → Prop}
  {R : Session → (Nat → Constraint) → β → Prop}

/-- What a builder with a table of conditions gives, if all conditions of the table have a property;
they have it again at the end. -/
def Makes (T : Key → Session → (Nat → Constraint) → Constraint → Prop) (act : Walking α)
    (σ : Session) (ν : Nat → Constraint) (Q : Session → (Nat → Constraint) → α → Prop) : Prop :=
  ∀ m, Memo.All T σ ν m →
    (act.run m).Makes σ ν fun σ' ν' p => Memo.All T σ' ν' p.2 ∧ Q σ' ν' p.1

theorem makes_pure {a : α} (h : Q σ ν a) : Makes T (pure a) σ ν Q :=
  fun _ hm => Build.makes_pure ⟨hm, h⟩

theorem makes_throw {f : Fault} : Makes T (throw f : Walking α) σ ν Q :=
  fun _ _ => Build.makes_throw

theorem Makes.bind {act : Walking α} {f : α → Walking β} (h : Makes T act σ ν Q)
    (hf : ∀ a σ' ν', Builds σ ν σ' ν' → Q σ' ν' a → Makes T (f a) σ' ν' R) :
    Makes T (act >>= f) σ ν R := by
  intro m hm
  rw [StateT.run_bind]
  exact (h m hm).bind fun p σ' ν' hb hp => hf p.1 σ' ν' hb hp.2 p.2 hp.1

theorem makes_get_bind {f : Memo → Walking β}
    (h : ∀ m, Memo.All T σ ν m → Makes T (f m) σ ν R) : Makes T (get >>= f) σ ν R :=
  fun m hm => h m hm m hm

theorem makes_lift_bind {x : Except Fault α} {f : α → Walking β}
    (h : ∀ a, x = .ok a → Makes T (f a) σ ν R) : Makes T (liftM x >>= f) σ ν R := by
  intro m hm hsound p σ' hends
  obtain ⟨a, m', σ1, hlift, hrest⟩ := ends_bind.mp hends
  obtain ⟨hx, rfl, rfl⟩ := ends_liftExcept.mp hlift
  exact h a hx m hm hsound p σ' hrest

theorem makes_env_bind {f : Environment → Walking β} (h : Makes T (f σ.env) σ ν R) :
    Makes T ((liftM Build.env : Walking Environment) >>= f) σ ν R := by
  intro m hm hsound p σ' hends
  obtain ⟨e, m', σ1, hlift, hrest⟩ := ends_bind.mp hends
  obtain ⟨henv, rfl⟩ := ends_lift.mp hlift
  obtain ⟨rfl, rfl⟩ := Build.ends_env.mp henv
  exact h m hm hsound p σ' hrest

theorem makes_modify {f : Memo → Memo} (h : ∀ m, Memo.All T σ ν m → Memo.All T σ ν (f m)) :
    Makes T (modify f : Walking Unit) σ ν fun _ _ _ => True :=
  fun m hm => Build.makes_pure ⟨h m hm, True.intro⟩

theorem makes_foldrM {as : List α} {f : α → β → Walking β} {b : β} (hb : R σ ν b)
    (h : ∀ a ∈ as, ∀ b σ' ν', Builds σ ν σ' ν' → R σ' ν' b → Makes T (f a b) σ' ν' R) :
    Makes T (as.foldrM f b) σ ν R := by
  induction as with
  | nil => exact makes_pure hb
  | cons a as ih =>
    obtain ⟨ha, has⟩ := List.forall_mem_cons.mp h
    rw [List.foldrM_cons]
    exact (ih has).bind ha

theorem makes_forM {as : List α} {f : α → Walking Unit}
    (h : ∀ a ∈ as, ∀ σ' ν', Builds σ ν σ' ν' → Makes T (f a) σ' ν' fun _ _ _ => True) :
    Makes T (as.forM f) σ ν fun _ _ _ => True := by
  induction as generalizing σ ν with
  | nil => exact makes_pure True.intro
  | cons a as ih =>
    obtain ⟨ha, has⟩ := List.forall_mem_cons.mp h
    refine Makes.bind (ha σ ν (.refl σ ν)) fun _ σ1 ν1 hb _ => ?_
    exact ih fun a' ha' σ2 ν2 hb' => has a' ha' σ2 ν2 (hb.trans hb')

section Lift

variable (hT : ∀ {k σ ν σ' ν' c}, Builds σ ν σ' ν' → T k σ ν c → T k σ' ν' c)
include hT

/-- A builder without a table. -/
theorem makes_lift {act : Build α} (h : act.Makes σ ν Q) : Makes T (liftM act) σ ν Q := by
  intro m hm hsound p σ' hends
  obtain ⟨hact, rfl⟩ := ends_lift.mp hends
  obtain ⟨ν', hb, hq⟩ := h hsound _ σ' hact
  exact ⟨ν', hb, fun k c hc => hT hb (hm k c hc), hq⟩

theorem makes_foldrM_lift {as : List α} {f : α → β → Build β} {b : β}
    (h : (as.foldrM f b).Makes σ ν R) :
    Makes T (as.foldrM (fun a b => liftM (f a b)) b) σ ν R := by
  intro m hm hsound p σ' hends
  obtain ⟨hfold, rfl⟩ := ends_foldrM_lift.mp hends
  obtain ⟨ν', hb, hr⟩ := h hsound _ σ' hfold
  exact ⟨ν', hb, fun k c hc => hT hb (hm k c hc), hr⟩

end Lift

end Walking

/-! ## §4 Walks -/

namespace Walker

open Walking (makes_pure makes_throw makes_get_bind makes_env_bind makes_lift_bind makes_modify
  makes_forM)

variable {T : Key → Session → (Nat → Constraint) → Constraint → Prop}
  {R : Session → (Nat → Constraint) → Constraint → Prop} {σ : Session} {ν : Nat → Constraint}
  {w : Walker} {counts : Counts}

section Targets

variable {P : Target → Constraint → Prop}
  (hentry : ∀ l c, T (w.flow.key (w.flow.graph.resolve l) counts) σ ν c → P (.block l) c)
  (hpost : P .outside w.post)
include hentry hpost

/-- What is true of all entries of the table is true of the condition of a target. -/
theorem at_of_all {m : Memo} (hm : Memo.All T σ ν m) {t : Target} {c : Constraint}
    (h : w.at? m counts t = some c) : P t c := by
  cases t with
  | outside =>
    obtain rfl := Option.some.inj h
    exact hpost
  | block l => exact hentry l c (hm _ c h)

/-- A jump leads to the condition where control goes, a call to what is made of the condition where
it comes back to. -/
theorem makes_destination {j : Jmp} (hgoes : ∀ t c, j.goal? = some t → P t c → R σ ν c)
    (hcall : ∀ t c, j.kind = .call → j.returns? = some t → P t c →
      Walking.Makes T (liftM (w.call j c)) σ ν R) :
    Walking.Makes T (w.destination j counts) σ ν R := by
  intro m hm hsound p σ' hends
  rcases destination_cases hends with ⟨hm', rfl, t, hgoal, hat⟩ |
    ⟨hm', hkind, t, after, hreturn, hat, hends⟩
  · exact ⟨ν, .refl _ _, hm' ▸ hm, hgoes t _ hgoal (at_of_all hentry hpost hm hat)⟩
  · exact hcall t after hkind hreturn (at_of_all hentry hpost hm hat) m hm hsound p σ'
      (Walking.ends_lift.mpr ⟨hends, hm'.symm⟩)

/-- A block ends with its jumps, and past them with the condition of the next block or on exit. -/
theorem makes_block {n : Node}
    (hrest : ∀ t last, (n.block.fallsThrough = true → w.flow.graph.after n none = some t) →
      P t last → Walking.Makes T (do
        let jumps ← n.block.jmps.foldrM (w.jump counts) last
        n.block.defs.foldrM (fun d post => Build.definition post d) jumps) σ ν R) :
    Walking.Makes T (w.block n counts) σ ν R := by
  intro m hm hsound p σ' hends
  obtain ⟨last, t, hat, hafter, hends⟩ := block_cases hends
  exact hrest t last hafter (at_of_all hentry hpost hm hat) m hm hsound p σ' hends

end Targets

section Keys

variable {I : Session → (Nat → Constraint) → Prop}
  (hI : ∀ {σ ν σ' ν'}, Builds σ ν σ' ν' → I σ ν → I σ' ν')
  (hbuild : ∀ {σ ν} k, I σ ν → Walking.Makes T (w.build k) σ ν (T k))
include hI hbuild

/-- **Keys**: treating a key and all keys that it needs keeps the table what it should be. -/
theorem makes_visit (bound : Nat) (path : List Key) (k : Key) (hσ : I σ ν) :
    Walking.Makes T (w.visit bound path k) σ ν fun _ _ _ => True := by
  induction bound generalizing σ ν path k with
  | zero => exact makes_throw
  | succ bound ih =>
    refine makes_get_bind fun m hm => ?_
    split
    · exact makes_pure True.intro
    · split
      · exact makes_throw
      · -- the keys needed come first, and the table keeps what it should be in between
        refine makes_env_bind (makes_lift_bind fun needs _ => ?_)
        refine Walking.Makes.bind (makes_forM fun k' _ σ1 ν1 hb1 =>
          ih (k :: path) k' (hI hb1 hσ)) fun _ σ1 ν1 hb1 _ => ?_
        refine (hbuild k (hI hb1 hσ)).bind fun c σ2 ν2 _ hc => ?_
        exact makes_modify fun m hm => hm.insert hc

/-- **Whole walks** give the condition of their first block. -/
theorem makes_run {n : Node} {rest : List Node} (hcons : w.flow.graph = n :: rest) (hσ : I σ ν) :
    w.run.Makes σ ν (T (w.flow.key n.label [])) := by
  unfold run
  rw [hcons]
  refine Build.makes_env_bind ?_
  have hempty : Memo.All T σ ν [] := fun k c hc => by simp at hc
  refine (makes_visit hI hbuild _ [] _ hσ {} hempty).bind₂ fun _ memo σ1 ν1 _ hmemo => ?_
  dsimp only
  split
  · next c hc => exact Build.makes_pure (hmemo.1 _ c hc)
  · exact Build.makes_throw

end Keys

end Walker

end Antecedent
