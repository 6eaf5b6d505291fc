import Antecedent.Proofs.Draws
import Antecedent.Proofs.Parallel
import Antecedent.Proofs.Typing

/-!
# Conditions that fold

The condition of a jump is translated whenever a walk comes to the jump, each time in another
session and with other names for its unknown words.  Whether it folds to a truth value is the same
each time.

* `Link.drawn` relates two sessions of which the second has drawn more names.
* `Expr.Sorted.folds_alike` is the result.
-/

namespace Antecedent

variable {e : Environment} {Γ : String → Srt} {m k : Nat} {x : Symbol}

/-! ## §1 The names of unknown words -/

namespace Environment

/-- The symbol of the unknown word of a number. -/
def unknownSymbol (e : Environment) (k : Nat) : Symbol :=
  e.freshSymbol "unknown" k

theorem unknownSymbol_injective (e : Environment) : Function.Injective e.unknownSymbol := by
  intro k k' h
  have hnull : '\x00' ∉ "unknown".toList := by decide
  have hnumbered := fun k => IsNumbered.suffix "unknown" k e
  rw [unknownSymbol, unknownSymbol, freshSymbol, freshSymbol, (hnumbered k).ofText hnull,
    (hnumbered k').ofText hnull] at h
  exact (hnumbered k).unique (Symbol.text.inj h ▸ hnumbered k')

open Classical in
/-- Gives every unknown word a later number, and leaves other symbols alone. -/
noncomputable def shift (e : Environment) (m : Nat) (x : Symbol) : Symbol :=
  if h : ∃ k, x = e.unknownSymbol k then e.unknownSymbol (h.choose + m) else x

theorem shift_unknownSymbol : e.shift m (e.unknownSymbol k) = e.unknownSymbol (k + m) := by
  have hex : ∃ k', e.unknownSymbol k = e.unknownSymbol k' := ⟨k, rfl⟩
  rw [shift, dif_pos hex, ← e.unknownSymbol_injective hex.choose_spec]

theorem shift_of_ne (h : ∀ k, x ≠ e.unknownSymbol k) : e.shift m x = x :=
  dif_neg fun ⟨k, hk⟩ => h k hk

theorem shift_injective (e : Environment) (m : Nat) : Function.Injective (e.shift m) := by
  intro x y h
  by_cases hx : ∃ k, x = e.unknownSymbol k <;> by_cases hy : ∃ k, y = e.unknownSymbol k
  · obtain ⟨k, rfl⟩ := hx
    obtain ⟨k', rfl⟩ := hy
    rw [shift_unknownSymbol, shift_unknownSymbol] at h
    rw [Nat.add_right_cancel (e.unknownSymbol_injective h)]
  · obtain ⟨k, rfl⟩ := hx
    rw [shift_unknownSymbol, shift_of_ne fun k hk => hy ⟨k, hk⟩] at h
    exact absurd ⟨_, h.symm⟩ hy
  · obtain ⟨k, rfl⟩ := hy
    rw [shift_unknownSymbol, shift_of_ne fun k hk => hx ⟨k, hk⟩] at h
    exact absurd ⟨_, h⟩ hx
  · rwa [shift_of_ne fun k hk => hx ⟨k, hk⟩, shift_of_ne fun k hk => hy ⟨k, hk⟩] at h

end Environment

/-- A condition has no unknown words, or none of its variables has the symbol of one. -/
def Expr.Apart (e : Environment) (x : Expr) : Prop :=
  x.isKnown = true ∨ ∀ v ∈ x.vars, ∀ s, v.name = .str s →
    ∀ k, Symbol.ofText (s ++ e.suffix) ≠ e.unknownSymbol k

/-! ## §2 Sessions with other numbers -/

/-- Two sessions of a typing, of which the second has drawn a number of names more. -/
def Link.drawn (e : Environment) (Γ : String → Srt) (m : Nat) : Link where
  Linked p := Session.Types e Γ True p.1 ∧ Session.Types e Γ True p.2 ∧
    p.2.supply.names = p.1.supply.names + m
  Later _ _ := True
  refl _ := True.intro
  trans _ _ := True.intro

theorem Session.Types.suffix_eq {σ : Session} {named : Prop} (hσ : Session.Types e Γ named σ) :
    σ.env.suffix = e.suffix := by
  rw [Environment.suffix, Environment.suffix, hσ.freshened]

/-- In every session of a typing a variable has the constant of its name and its sort. -/
theorem Session.Types.getVar_eq {σ σ' : Session} {v : Var} {s : String} {srt : Srt} {t : Term}
    (hσ : Session.Types e Γ True σ) (hv : v.HasSort e Γ srt) (hs : v.name = .str s)
    (h : (Build.getVar v).Ends σ t σ') : t = .const (.ofText (s ++ e.suffix)) srt := by
  obtain ⟨l, hl, hcase⟩ := Build.getVar_cases h
  obtain rfl : l = .text s := by
    rw [hs] at hl
    exact (Except.ok.inj hl).symm
  have hsymbol : ∀ {n name}, σ.env.localName (.text s) = .ok n → Term.symbolOf n = .ok name →
      name = .ofText (s ++ e.suffix) := fun hn hname => by
    rw [Environment.symbolOf_localName hn, hσ.suffix_eq] at hname
    exact (Except.ok.inj hname).symm
  obtain ⟨hfind, -⟩ | ⟨-, n, name, srt', hn, hname, hsrt, rfl, -⟩ := hcase
  · obtain ⟨s', hs', hΓ⟩ := hv.name
    obtain rfl : s = s' := Json.str.inj (hs.symm.trans hs')
    have hsort := (hσ.agrees s t hfind).trans hΓ
    obtain ⟨p, hp, rfl⟩ := Option.map_eq_some_iff.mp hfind
    have hlabel := Label.eq_of_same_text (by simpa using List.find?_some hp)
    obtain ⟨n, name, _, srt', hn, hname, -, hconst⟩ :=
      hσ.labelled True.intro p (List.mem_of_find?_eq_some hp)
    rw [hlabel] at hn
    rw [hconst] at hsort ⊢
    rw [hsymbol hn hname, show srt' = srt from hsort]
  · rw [Environment.sortOf, hσ.arch, ← Environment.sortOf, hv.sort] at hsrt
    rw [hsymbol hn hname, Except.ok.inj hsrt]

namespace Build

variable {r : Symbol → Symbol}

/-- **Variables** have the same constants in both sessions. -/
theorem renames_getVar_drawn {v : Var} {srt : Srt} (hv : v.HasSort e Γ srt)
    (hr : ∀ s, v.name = .str s → r (.ofText (s ++ e.suffix)) = .ofText (s ++ e.suffix)) :
    Renames (.drawn e Γ m) r (getVar v) := by
  rintro q ⟨hσ, hτ, hnames⟩ t' τ' hends'
  obtain ⟨s, hs, -⟩ := hv.name
  obtain ⟨t, σ', hends, hσ', -⟩ := hv.meets_getVar.exists_ends hσ
  obtain ⟨_, _, hagain, hτ', -⟩ := hv.meets_getVar.exists_ends hτ
  cases hends'.symm.trans hagain
  refine ⟨t, σ', hends, True.intro, ⟨hσ', hτ', ?_⟩, ?_⟩
  · rw [(ends_getVar hends).2.1, (ends_getVar hends').2.1, hnames]
  · dsimp only
    rw [hσ.getVar_eq hv hs hends, hτ.getVar_eq hv hs hends', Term.rename_const, hr s hs]

/-- **Unknown words** have later numbers in the second session. -/
theorem renames_fresh_drawn (width : Json) :
    Renames (.drawn e Γ m) (e.shift m) (fresh "unknown" width) := by
  rintro q ⟨hσ, hτ, hnames⟩ t' τ' hends'
  obtain ⟨w, hw⟩ : ∃ w, Term.fieldWidth width = .ok w := by
    simp only [fresh, ends_bind, ends_lift] at hends'
    obtain ⟨_, _, -, _, _, -, w, _, ⟨hw, -⟩, -⟩ := hends'
    exact ⟨w, hw⟩
  cases hends'.symm.trans (fresh_ends "unknown" hw q.2)
  refine ⟨_, _, fresh_ends "unknown" hw q.1, True.intro, ⟨?_, ?_, ?_⟩, ?_⟩
  · exact ⟨hσ.1, hσ.2, hσ.3, hσ.4, hσ.5, hσ.6, hσ.7⟩
  · exact ⟨hτ.1, hτ.2, hτ.3, hτ.4, hτ.5, hτ.6, hτ.7⟩
  · change q.2.supply.names + 1 = q.1.supply.names + 1 + m
    omega
  · have hshift : e.unknownSymbol (q.2.supply.names + 1) =
        e.shift m (e.unknownSymbol (q.1.supply.names + 1)) := by
      rw [Environment.shift_unknownSymbol, hnames, Nat.add_right_comm]
    dsimp only
    rw [hσ.suffix_eq, hτ.suffix_eq, Term.rename_const]
    exact congrArg (Term.const · (.bits w)) hshift

end Build

/-! ## §3 Conditions -/

namespace Expr.Sorted

variable {x : Expr} {srt : Srt}

theorem vars (h : x.Sorted e Γ srt) : ∀ v ∈ x.vars, ∃ srt, v.HasSort e Γ srt := by
  induction h with
  | var hv => simpa [Expr.vars] using ⟨_, hv⟩
  | int _ | unknown _ => exact fun v hv => absurd hv (by simp [Expr.vars])
  | unop _ ih | cast _ _ _ ih | extract _ _ _ _ ih => exact ih
  | load _ _ _ ihl ihr | binop _ _ _ ihl ihr | concat _ _ _ ihl ihr =>
    exact List.forall_mem_append.mpr ⟨ihl, ihr⟩
  | store _ _ _ _ ihm iha ihv =>
    exact List.forall_mem_append.mpr ⟨List.forall_mem_append.mpr ⟨ihm, iha⟩, ihv⟩
  | ite _ _ _ ihc ihy ihn =>
    exact List.forall_mem_append.mpr ⟨List.forall_mem_append.mpr ⟨ihc, ihy⟩, ihn⟩

/-- **A condition folds to the same truth value in all sessions of a typing**, or in none. -/
theorem folds_alike {tid : Json} {c : Term} {as : List Access} {τ τ' : Session}
    (h : x.Sorted e Γ srt) (hx : x.Apart e) (he : Session.Types e Γ True ⟨{}, e⟩)
    (hτ : Session.Types e Γ True τ) (hends : (x.condition tid).Ends τ (c, as) τ') :
    ∃ c0 as0 σ', (x.condition tid).Ends ⟨{}, e⟩ (c0, as0) σ' ∧ ∀ b, c = .lit b ↔ c0 = .lit b := by
  -- without unknown words nothing has to be renamed
  obtain ⟨r, hr, hvars, hfresh⟩ : ∃ r : Symbol → Symbol, Function.Injective r ∧
      (∀ v ∈ x.vars, Build.Renames (.drawn e Γ τ.supply.names) r (Build.getVar v)) ∧
      (x.isKnown = true ∨
        ∀ width, Build.Renames (.drawn e Γ τ.supply.names) r (Build.fresh "unknown" width)) := by
    rcases hx with hknown | hapart
    · refine ⟨id, Function.injective_id, fun v hv => ?_, .inl hknown⟩
      obtain ⟨srt, hsort⟩ := h.vars v hv
      exact Build.renames_getVar_drawn hsort fun _ _ => rfl
    · refine ⟨e.shift τ.supply.names, e.shift_injective _, fun v hv => ?_,
        .inr Build.renames_fresh_drawn⟩
      obtain ⟨srt, hsort⟩ := h.vars v hv
      exact Build.renames_getVar_drawn hsort fun s hs => Environment.shift_of_ne (hapart v hv s hs)
  have hfollows : Build.Follows (.drawn e Γ τ.supply.names) (x.condition tid) (x.condition tid)
      (⟨{}, e⟩, τ) fun _ c0 c => ∃ f : Term, c0.1 = e.logic.simplifier.apply f ∧
        c.1 = e.logic.simplifier.apply (f.rename r) := by
    refine (Build.follows_toTerm tid hvars hfresh).bind_term fun t _ _ q => ?_
    refine Build.follows_lift_bind fun b hb => ?_
    obtain ⟨f, hf, rfl⟩ := map_eq_ok.mp (Term.bitToBool_rename t ▸ hb)
    refine ⟨f, hf, Build.follows_env_bind fun hlinked => Build.follows_pure ⟨f, ?_, ?_⟩⟩
    · rw [hlinked.1.logic]
    · rw [hlinked.2.1.logic]
  obtain ⟨⟨c0, as0⟩, σ', hends0, -, -, f, rfl, rfl⟩ :=
    hfollows ⟨he, hτ, (Nat.zero_add _).symm⟩ (c, as) τ' hends
  exact ⟨_, as0, σ', hends0, e.logic.simplifier.literal_rename (fun _ _ heq => hr heq) f⟩

end Expr.Sorted

/-- A well-typed condition is translated.  If its unknown words are apart from its variables, then
it is false exactly if it folds to false in the environment to start with. -/
theorem Jmp.meets_condition {j : Jmp} {w : Nat} {E : Fault → Prop}
    (h : j.cond.Sorted e Γ (.bits w)) (he : Session.Types e Γ True ⟨{}, e⟩) :
    (j.cond.condition j.tid).Meets (Session.Types e Γ True) E fun p =>
      (j.cond.Apart e → (p.1 = .lit false ↔ j.folded? e = some false)) ∧ ∀ a ∈ p.2, a.Typed e := by
  have htyped : (j.cond.condition j.tid).Meets (Session.Types e Γ True) E fun p =>
      ∀ a ∈ p.2, a.Typed e :=
    (h.meets_toTerm j.tid).bind fun p hp => (Term.sorts_bitToBool hp.1).meets_bind fun _ _ =>
      Build.meets_env_bind fun _ _ => ExceptT.meets_pure hp.2
  intro σ hσ
  refine (htyped σ hσ).imp_left ?_
  rintro ⟨⟨c, as⟩, τ, hends, hτ, haccesses⟩
  refine ⟨_, τ, hends, hτ, fun hapart => ?_, haccesses⟩
  obtain ⟨c0, as0, σ', hends0, hlit⟩ := h.folds_alike hapart he hσ hends
  rw [hlit false, folded?_iff hends0]

end Antecedent
