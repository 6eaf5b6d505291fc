import Antecedent.Proofs.Composition
import Antecedent.Proofs.Freshening

/-!
# Names that are drawn

The supply of numbers is there for names that no one has: a name is drawn for an unknown word, an
unknown memory and the result of a call without inputs.

* `Draw` is one of these requests, and `Twin.draws` what a sequence of them does.
* `Twin.draws_distinct` says that no name is drawn twice, and `Twin.not_symbols_nodup_of_null` that
  two names may share a symbol.
-/

namespace Antecedent

/-! ## §1 IsNumbered names -/

/-- Whether a name is made of a stem and a number, with or without the suffix. -/
def IsNumbered (stem : String) (k : Nat) (name : String) : Prop :=
  ∃ mark ∈ ["", Environment.freshSuffix], name = s!"{stem}_{k}" ++ mark

theorem toList_number (stem : String) (k : Nat) :
    s!"{stem}_{k}".toList = stem.toList ++ '_' :: Nat.toDigits 10 k := by
  change (stem ++ "_" ++ toString k).toList = _
  simp [String.toList_append]

/-- The number is what comes after the last `_`. -/
theorem number_injective {stem other : String} {k n : Nat}
    (h : s!"{stem}_{k}" = s!"{other}_{n}") : k = n := by
  have hlast : ∀ (cs : List Char) (n : Nat),
      (cs ++ '_' :: Nat.toDigits 10 n).reverse.takeWhile Char.isDigit =
        (Nat.toDigits 10 n).reverse := by
    intro cs n
    rw [List.reverse_append, List.reverse_cons, List.append_assoc, List.takeWhile_append_of_pos]
    · simp
    · intro c hc
      exact Nat.isDigit_of_mem_toDigits (by decide) le_rfl (List.mem_reverse.mp hc)
  have hlist := congrArg (fun s : String => s.toList.reverse.takeWhile Char.isDigit) h
  simp only [toList_number, hlast, List.reverse_inj] at hlist
  simpa using congrArg (fun cs => Nat.ofDigitChars 10 cs 0) hlist

/-- **A drawn name has one number**, whatever its stem. -/
theorem IsNumbered.unique {stem stem' name : String} {k k' : Nat} (h : IsNumbered stem k name)
    (h' : IsNumbered stem' k' name) : k = k' := by
  obtain ⟨mark, hmark, rfl⟩ := h
  obtain ⟨mark', hmark', heq⟩ := h'
  simp only [List.mem_cons, List.not_mem_nil, or_false] at hmark hmark'
  rcases hmark with rfl | rfl <;> rcases hmark' with rfl | rfl
  · exact number_injective (by simpa using heq)
  · exact (Label.not_marked_number stem k ⟨_, by simpa using heq⟩).elim
  · exact (Label.not_marked_number stem' k' ⟨_, by simpa using heq.symm⟩).elim
  · exact number_injective (String.append_left_inj _ |>.mp heq)

theorem IsNumbered.suffix (stem : String) (k : Nat) (e : Environment) :
    IsNumbered stem k (s!"{stem}_{k}" ++ e.suffix) := by
  refine ⟨e.suffix, ?_, rfl⟩
  rw [Environment.suffix]
  split <;> simp

theorem IsNumbered.ofText {stem name : String} {k : Nat} (h : IsNumbered stem k name)
    (hnull : '\x00' ∉ stem.toList) : Symbol.ofText name = .text name := by
  obtain ⟨mark, hmark, rfl⟩ := h
  have hdigits : '\x00' ∉ Nat.toDigits 10 k := fun hmem =>
    absurd (Nat.isDigit_of_mem_toDigits (by decide) le_rfl hmem) (by decide)
  have hmark : '\x00' ∉ mark.toList := by
    revert mark
    decide
  refine Symbol.ofText_eq_text (fun hempty => ?_) ?_
  · simpa [toList_number] using congrArg String.toList hempty
  · rw [String.toList_append, toList_number]
    simp [hnull, hdigits, hmark]

/-! ## §2 Draws -/

inductive Draw where
  | word (stem : String) (width : Json)
  | memory (stem : String)
  | result (symbol : String) (width : Json)

namespace Draw

def stem : Draw → String
  | .word stem _ | .memory stem | .result stem _ => stem

def act : Draw → Build Term
  | .word stem width => Build.fresh stem width
  | .memory stem => Build.freshMemory stem
  | .result symbol width => Build.callResult symbol [] width

/-- The name that is drawn in a session. -/
def name (d : Draw) (σ : Session) : String :=
  s!"{d.stem}_{σ.supply.names + 1}" ++ σ.env.suffix

theorem numbered_name (d : Draw) (σ : Session) :
    IsNumbered d.stem (σ.supply.names + 1) (d.name σ) :=
  .suffix ..

/-- The session after a name has been drawn. -/
def after (d : Draw) (σ : Session) : Session where
  supply := { σ.supply with names := σ.supply.names + 1 }
  env := { σ.env with introduced := .text (d.name σ) :: σ.env.introduced }

theorem run_bind {α β : Type} {act : Build α} {f : α → Build β} {σ τ : Session} {a : α}
    (h : act.Ends σ a τ) : Id.run ((act >>= f).run.run σ) = Id.run ((f a).run.run τ) := by
  have hrun : (act.run.run σ).run = (.ok a, τ) := h
  simp only [ExceptT.run_bind, StateT.run_bind, Id.run_bind, hrun]

/-- Whatever becomes of a draw, its name is introduced. -/
theorem run_act (d : Draw) (σ : Session) : ∃ r, Id.run (d.act.run.run σ) = (r, d.after σ) ∧
    ∀ a, r = .ok a → ∃ srt, a = .const (.ofText (d.name σ)) srt := by
  have hname : (Build.freshBase d.stem >>= fun base => Build.name (.text base)).Ends σ
      (.text (d.name σ)) (d.after σ) := by
    refine ExceptT.ends_bind.mpr ⟨_, { σ with supply := { σ.supply with names := _ } }, rfl, ?_⟩
    exact Build.ends_name.mpr ⟨σ.env.localName_text _, rfl⟩
  have hrun : ∀ k : Label → Build Term,
      Id.run ((Build.freshBase d.stem >>= fun base => Build.name (.text base) >>= k).run.run σ) =
        Id.run ((k (.text (d.name σ))).run.run (d.after σ)) := by
    intro k
    rw [← bind_assoc, run_bind hname]
  -- the name is introduced before the sort is looked at
  have hsort : ∀ (x : Except Fault Nat) (f : Nat → Srt), ∃ r, Id.run ((do
      let w ← (liftM x : Build Nat)
      return Term.const (← Term.symbolOf (.text (d.name σ))) (f w) : Build Term).run.run
        (d.after σ)) = (r, d.after σ) ∧
      ∀ a, r = .ok a → ∃ srt, a = .const (.ofText (d.name σ)) srt := by
    rintro (f | w) sort
    · exact ⟨_, rfl, nofun⟩
    · exact ⟨_, rfl, fun a h => ⟨_, (Except.ok.inj h).symm⟩⟩
  cases d with
  | word stem width => exact hrun _ ▸ hsort (Term.fieldWidth width) .bits
  | memory stem => exact hrun _ ▸ hsort (Term.checkWidth σ.env.arch.addressWidth) .memory
  | result symbol width => exact hrun _ ▸ hsort (Term.fieldWidth width) .bits

end Draw

/-! ## §3 Draws in two environments -/

namespace Twin

def draw (t : Twin) : Draw ⊕ Draw → Except Fault Term × Twin
  | .inl d => Id.run ((onFirst d.act).run.run t)
  | .inr d => Id.run ((onSecond d.act).run.run t)

/-- The results of a sequence of draws in the first or in the second environment. -/
def draws (t : Twin) : List (Draw ⊕ Draw) → List (Except Fault Term) × Twin
  | [] => ([], t)
  | d :: ds =>
    let (r, t') := t.draw d
    let (rs, t'') := t'.draws ds
    (r :: rs, t'')

/-- One draw introduces one name with the next number. -/
theorem draw_cases (t : Twin) (d : Draw ⊕ Draw) : ∃ name,
    IsNumbered (d.elim Draw.stem Draw.stem) (t.supply.names + 1) name ∧
    (t.draw d).2.supply.names = t.supply.names + 1 ∧
    ((t.draw d).2.first.introduced ++ (t.draw d).2.second.introduced).Perm
      (.text name :: (t.first.introduced ++ t.second.introduced)) ∧
    ∀ a, (t.draw d).1 = .ok a → ∃ srt, a = .const (.ofText name) srt := by
  cases d with
  | inl d =>
    obtain ⟨r, hrun, hr⟩ := d.run_act ⟨t.supply, t.first⟩
    have hdraw : t.draw (.inl d) = (r, { t with
        supply := (d.after ⟨t.supply, t.first⟩).supply
        first := (d.after ⟨t.supply, t.first⟩).env }) :=
      congrArg (fun p => (p.1, { t with supply := p.2.supply, first := p.2.env })) hrun
    rw [hdraw]
    exact ⟨_, d.numbered_name ⟨t.supply, t.first⟩, rfl, .refl _, hr⟩
  | inr d =>
    obtain ⟨r, hrun, hr⟩ := d.run_act ⟨t.supply, t.second⟩
    have hdraw : t.draw (.inr d) = (r, { t with
        supply := (d.after ⟨t.supply, t.second⟩).supply
        second := (d.after ⟨t.supply, t.second⟩).env }) :=
      congrArg (fun p => (p.1, { t with supply := p.2.supply, second := p.2.env })) hrun
    rw [hdraw]
    exact ⟨_, d.numbered_name ⟨t.supply, t.second⟩, rfl, List.perm_middle, hr⟩

/-- The names of a sequence of draws, with the numbers from the next one on. -/
theorem exists_names (t : Twin) (ds : List (Draw ⊕ Draw)) : ∃ names : List String,
    names.Nodup ∧
    (∀ name ∈ names, ∃ d ∈ ds, ∃ k, t.supply.names < k ∧
      IsNumbered (d.elim Draw.stem Draw.stem) k name) ∧
    ((t.draws ds).2.first.introduced ++ (t.draws ds).2.second.introduced).Perm
      (names.map .text ++ (t.first.introduced ++ t.second.introduced)) ∧
    List.Forall₂ (fun name r => ∀ a, r = .ok a → ∃ srt, a = Term.const (.ofText name) srt) names
      (t.draws ds).1 := by
  induction ds generalizing t with
  | nil => exact ⟨[], .nil, by simp, .refl _, .nil⟩
  | cons d ds ih =>
    obtain ⟨name, hname, hsupply, hperm, hr⟩ := t.draw_cases d
    obtain ⟨names, hnodup, hnames, hperms, hrs⟩ := ih (t.draw d).2
    refine ⟨name :: names, List.nodup_cons.mpr ⟨fun hmem => ?_, hnodup⟩, ?_, ?_, .cons hr hrs⟩
    · -- the names that follow have higher numbers
      obtain ⟨d, -, k, hk, hnumbered⟩ := hnames name hmem
      have := hname.unique hnumbered
      omega
    · refine List.forall_mem_cons.mpr ⟨⟨d, by simp, _, by omega, hname⟩, fun n hn => ?_⟩
      obtain ⟨d', hd', k, hk, hnumbered⟩ := hnames n hn
      exact ⟨d', List.mem_cons_of_mem _ hd', k, by omega, hnumbered⟩
    · exact hperms.trans ((hperm.append_left _).trans List.perm_middle)

/-- **No name is drawn twice**: a sequence of draws, in the one or the other of two environments and
with whatever stems, introduces distinct names, and each constant that is given has the symbol of
its name.  The symbols are distinct too, if no stem has a null character. -/
theorem draws_distinct (t : Twin) (ds : List (Draw ⊕ Draw)) : ∃ names : List String,
    names.Nodup ∧
    ((t.draws ds).2.first.introduced ++ (t.draws ds).2.second.introduced).Perm
      (names.map .text ++ (t.first.introduced ++ t.second.introduced)) ∧
    List.Forall₂ (fun name r => ∀ a, r = .ok a → ∃ srt, a = Term.const (.ofText name) srt) names
      (t.draws ds).1 ∧
    ((∀ d ∈ ds, '\x00' ∉ (d.elim Draw.stem Draw.stem).toList) →
      (names.map Symbol.ofText).Nodup) := by
  obtain ⟨names, hnodup, hnames, hperm, hresults⟩ := t.exists_names ds
  refine ⟨names, hnodup, hperm, hresults, fun hnull => ?_⟩
  refine List.pairwise_map.mpr (hnodup.imp_of_mem fun {x y} hx hy hne heq => hne ?_)
  obtain ⟨d, hd, k, -, hnumbered⟩ := hnames x hx
  obtain ⟨d', hd', k', -, hnumbered'⟩ := hnames y hy
  rw [hnumbered.ofText (hnull d hd), hnumbered'.ofText (hnull d' hd')] at heq
  exact Symbol.text.inj heq

/-- With a null character in the stem two draws can give the same constant, even one in a plain and
one in a freshened environment: the symbol ends before the number. -/
theorem not_symbols_nodup_of_null : ∃ (t : Twin) (stem : String) (c : Term),
    t.first.freshened = false ∧ t.second.freshened = true ∧
      (t.draws [.inl (.word stem (.int 8)), .inr (.word stem (.int 8))]).1 = [.ok c, .ok c] :=
  ⟨⟨{}, smallEnv false [], smallEnv true []⟩, "a\x00", .const (.text "a") (.bits 8), rfl, rfl, rfl⟩

end Twin

end Antecedent
