import Antecedent.Proofs.Framing

/-!
# Results and faults

A computation gives a result or ends in a fault, and what can be said of both is said at once.

* `ExceptT.Meets` is the judgement for builders: where an invariant holds, it is kept, results have
  one property and faults another one.
* `Walking.Meets` is the same with a table of conditions.

There is one rule for every way to put computations together.
-/

/-! ## §1 Computations -/

namespace ExceptT

variable {ε S α β : Type} {I : S → Prop} {E : ε → Prop} {Q : α → Prop} {R : β → Prop}

/-- Where an invariant holds, a computation gives a result with a property and keeps the invariant,
or ends in a fault with a property. -/
def Meets (I : S → Prop) (E : ε → Prop) (act : ExceptT ε (StateM S) α) (Q : α → Prop) : Prop :=
  ∀ σ, I σ → (∃ a τ, act.Ends σ a τ ∧ I τ ∧ Q a) ∨
    ∃ f, (Id.run (act.run.run σ)).1 = .error f ∧ E f

theorem meets_pure {a : α} (h : Q a) : (pure a : ExceptT ε (StateM S) α).Meets I E Q :=
  fun σ hσ => .inl ⟨a, σ, rfl, hσ, h⟩

theorem meets_throw {f : ε} (h : E f) : (throw f : ExceptT ε (StateM S) α).Meets I E Q :=
  fun _ _ => .inr ⟨f, rfl, h⟩

theorem Meets.bind {act : ExceptT ε (StateM S) α} {f : α → ExceptT ε (StateM S) β}
    (h : act.Meets I E Q) (hf : ∀ a, Q a → (f a).Meets I E R) : (act >>= f).Meets I E R := by
  intro σ hσ
  simp only [Ends, ExceptT.run_bind, StateT.run_bind, Id.run_bind]
  obtain ⟨a, τ, hact, hτ, ha⟩ | ⟨e, hact, he⟩ := h σ hσ
  · rw [show act.run.run σ = (.ok a, τ) from hact]
    exact hf a ha τ hτ
  · right
    refine ⟨e, ?_, he⟩
    revert hact
    rcases Id.run (act.run.run σ) with ⟨r | a, τ⟩
    · exact fun hact => congrArg Except.error (Except.error.inj hact)
    · intro hact
      cases hact

theorem Meets.mono {Q' : α → Prop} {act : ExceptT ε (StateM S) α} (h : act.Meets I E Q)
    (hQ : ∀ a, Q a → Q' a) : act.Meets I E Q' := fun σ hσ =>
  (h σ hσ).imp_left fun hact => hact.imp fun a => Exists.imp fun _ =>
    And.imp_right (And.imp_right (hQ a))

/-- Without faults there is a result. -/
theorem Meets.exists_ends {act : ExceptT ε (StateM S) α} {σ : S}
    (h : act.Meets I (fun _ => False) Q) (hσ : I σ) : ∃ a τ, act.Ends σ a τ ∧ I τ ∧ Q a :=
  (h σ hσ).resolve_right fun ⟨_, _, hno⟩ => hno

theorem meets_lift_bind {x : Except ε α} {a : α} {f : α → ExceptT ε (StateM S) β}
    (hx : x = .ok a) (h : (f a).Meets I E R) : (liftM x >>= f).Meets I E R := by
  subst hx
  exact h

theorem meets_lift {x : Except ε α} {a : α} (hx : x = .ok a) (h : Q a) :
    (liftM x : ExceptT ε (StateM S) α).Meets I E Q := by
  subst hx
  exact meets_pure h

theorem meets_get_bind {f : S → ExceptT ε (StateM S) β} (h : ∀ σ, I σ → (f σ).Meets I E R) :
    (get >>= f).Meets I E R :=
  fun σ hσ => h σ hσ σ hσ

theorem meets_modify {f : S → S} (h : ∀ σ, I σ → I (f σ)) :
    (modify f : ExceptT ε (StateM S) PUnit).Meets I E fun _ => True :=
  fun σ hσ => .inl ⟨(), f σ, rfl, h σ hσ, True.intro⟩

section Lists

variable {as : List α}

theorem meets_mapM {f : α → ExceptT ε (StateM S) β} (h : ∀ a ∈ as, (f a).Meets I E R) :
    (as.mapM f).Meets I E fun bs => ∀ b ∈ bs, R b := by
  induction as with
  | nil => exact meets_pure nofun
  | cons a as ih =>
    obtain ⟨ha, has⟩ := List.forall_mem_cons.mp h
    rw [List.mapM_cons]
    exact ha.bind fun b hb => (ih has).bind fun bs hbs =>
      meets_pure (List.forall_mem_cons.mpr ⟨hb, hbs⟩)

theorem meets_flatMapM {f : α → ExceptT ε (StateM S) (List β)}
    (h : ∀ a ∈ as, (f a).Meets I E fun _ => True) : (as.flatMapM f).Meets I E fun _ => True := by
  induction as with
  | nil => exact meets_pure True.intro
  | cons a as ih =>
    obtain ⟨ha, has⟩ := List.forall_mem_cons.mp h
    rw [List.flatMapM_cons]
    exact ha.bind fun _ _ => (ih has).bind fun _ _ => meets_pure True.intro

theorem meets_filterMapM {f : α → ExceptT ε (StateM S) (Option β)}
    (h : ∀ a ∈ as, (f a).Meets I E fun _ => True) : (as.filterMapM f).Meets I E fun _ => True := by
  rw [List.filterMapM_eq_flatMapM]
  refine meets_flatMapM fun a ha => ?_
  rw [map_eq_pure_bind]
  exact (h a ha).bind fun _ _ => meets_pure True.intro

end Lists

end ExceptT

namespace Antecedent

theorem Build.meets_env_bind {α : Type} {I : Session → Prop} {E : Fault → Prop} {Q : α → Prop}
    {f : Environment → Build α} (h : ∀ σ, I σ → (f σ.env).Meets I E Q) : (env >>= f).Meets I E Q :=
  fun σ hσ => h σ hσ σ hσ

/-! ## §2 Computations with a table -/

namespace Walking

variable {α β : Type} {I : Session → Prop} {E : Fault → Prop} {m : Memo} {Q : α × Memo → Prop}
  {R : β × Memo → Prop}

/-- The judgement for a builder with a given table; results come with the table that is left. -/
def Meets (I : Session → Prop) (E : Fault → Prop) (m : Memo) (act : Walking α)
    (Q : α × Memo → Prop) : Prop :=
  (act.run m).Meets I E Q

/-- The table is left as it is, and something is known. -/
def Unchanged (m : Memo) (known : Prop) (r : α × Memo) : Prop :=
  r.2 = m ∧ known

theorem meets_pure {a : α} (h : Q (a, m)) : Meets I E m (pure a) Q :=
  ExceptT.meets_pure h

theorem meets_throw {f : Fault} (h : E f) : Meets I E m (throw f : Walking α) Q :=
  ExceptT.meets_throw h

theorem Meets.bind {act : Walking α} {f : α → Walking β} (h : Meets I E m act Q)
    (hf : ∀ a m', Q (a, m') → Meets I E m' (f a) R) : Meets I E m (act >>= f) R := by
  unfold Meets
  rw [StateT.run_bind]
  exact ExceptT.Meets.bind h fun r hr => hf r.1 r.2 hr

theorem meets_lift {act : Build α} {Q' : α → Prop} (h : act.Meets I E Q')
    (hQ : ∀ a, Q' a → Q (a, m)) : Meets I E m (liftM act) Q :=
  h.bind fun a ha => ExceptT.meets_pure (hQ a ha)

theorem meets_lift_bind {act : Build α} {Q' : α → Prop} {f : α → Walking β}
    (h : act.Meets I E Q') (hf : ∀ a, Q' a → Meets I E m (f a) R) :
    Meets I E m (liftM act >>= f) R := by
  refine (meets_lift (Q := fun r => r.2 = m ∧ Q' r.1) h fun _ ha => ⟨rfl, ha⟩).bind
    fun a m' hr => ?_
  obtain ⟨rfl, ha⟩ := hr
  exact hf a ha

theorem meets_ok_bind {x : Except Fault α} {a : α} {f : α → Walking β} (hx : x = .ok a)
    (h : Meets I E m (f a) R) : Meets I E m (liftM x >>= f) R := by
  subst hx
  exact h

/-- What fails for sure ends with this fault. -/
theorem meets_error_bind {x : Except Fault α} {fault : Fault} {f : α → Walking β}
    (hx : x = .error fault) (h : E fault) : Meets I E m (liftM x >>= f) R := by
  subst hx
  exact fun _ _ => .inr ⟨fault, rfl, h⟩

theorem meets_get_bind {f : Memo → Walking β} (h : Meets I E m (f m) R) :
    Meets I E m (get >>= f) R :=
  h

theorem meets_env_bind {f : Environment → Walking β} (h : ∀ σ, I σ → Meets I E m (f σ.env) R) :
    Meets I E m ((liftM Build.env : Walking Environment) >>= f) R :=
  fun σ hσ => h σ hσ σ hσ

/-- A fold that does not fill the table leaves it as it is, and what is known of each element is
known of all. -/
theorem meets_foldrM {as : List α} {f : α → β → Walking β} {b : β} {known : α → Prop}
    (h : ∀ a ∈ as, ∀ b, Meets I E m (f a b) (Unchanged m (known a))) :
    Meets I E m (as.foldrM f b) (Unchanged m (∀ a ∈ as, known a)) := by
  induction as with
  | nil => exact meets_pure ⟨rfl, nofun⟩
  | cons a as ih =>
    obtain ⟨ha, has⟩ := List.forall_mem_cons.mp h
    rw [List.foldrM_cons]
    refine (ih has).bind fun b m' hr => ?_
    obtain ⟨rfl, hknown⟩ := hr
    exact ExceptT.Meets.mono (ha b) fun r hr =>
      ⟨hr.1, List.forall_mem_cons.mpr ⟨hr.2, hknown⟩⟩

end Walking

end Antecedent
