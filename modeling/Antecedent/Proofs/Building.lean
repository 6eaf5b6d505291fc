import Antecedent.Proofs.Execution
import Antecedent.Proofs.Flattening
import Mathlib.Data.List.Find
import Mathlib.Tactic.Ring

/-!
# What builders do

A builder that ends without a fault has extended its environment and its supply of nodes, and it
has done nothing else to them.

* `ExceptT.Ends` is the inversion principle for builders.
* `Session.Step` is what every builder preserves.
-/

/-! ## §1 Runs that end -/

/-- What is found for each element, if anything, is a list of at most one. -/
theorem List.filterMapM_eq_flatMapM {m : Type → Type} [Monad m] [LawfulMonad m] {α β : Type}
    (f : α → m (Option β)) (as : List α) :
    as.filterMapM f = as.flatMapM fun a => Option.toList <$> f a := by
  induction as with
  | nil => rfl
  | cons a as ih =>
    rw [filterMapM_cons, flatMapM_cons, bind_map_left, ← ih]
    congr 1
    funext r
    cases r <;> simp

namespace ExceptT

variable {ε S α β : Type} {σ σ' : S}

/-- A computation with a state ends with a result, and leaves a state behind. -/
def Ends (act : ExceptT ε (StateM S) α) (σ : S) (a : α) (σ' : S) : Prop :=
  Id.run (act.run.run σ) = (.ok a, σ')

/-- Whether a computation ends with a result that passes a test. -/
def passes (act : ExceptT ε (StateM S) α) (σ : S) (test : α → Bool) : Bool :=
  match (Id.run (act.run.run σ)).1 with
  | .ok a => test a
  | .error _ => false

theorem exists_ends_of_passes {act : ExceptT ε (StateM S) α} {test : α → Bool}
    (h : act.passes σ test = true) : ∃ a σ', act.Ends σ a σ' ∧ test a = true := by
  rw [passes] at h
  split at h
  · next a ha => exact ⟨a, _, Prod.ext ha rfl, h⟩
  · cases h

@[simp] theorem ends_pure {a b : α} :
    (pure a : ExceptT ε (StateM S) α).Ends σ b σ' ↔ a = b ∧ σ = σ' := by
  rw [Ends, Prod.ext_iff]
  simp

@[simp] theorem ends_bind {act : ExceptT ε (StateM S) α} {f : α → ExceptT ε (StateM S) β} {b : β} :
    (act >>= f).Ends σ b σ' ↔ ∃ a τ, act.Ends σ a τ ∧ (f a).Ends τ b σ' := by
  have hbind : Id.run ((act >>= f).run.run σ) =
      match Id.run (act.run.run σ) with
      | (.ok a, τ) => Id.run ((f a).run.run τ)
      | (.error e, τ) => (.error e, τ) := by
    change (match act σ with | (r, τ) => ExceptT.bindCont f r τ) = match act σ with
      | (.ok a, τ) => f a τ
      | (.error e, τ) => (.error e, τ)
    rcases act σ with ⟨r | a, τ⟩ <;> rfl
  rw [Ends, hbind]
  simp only [Ends]
  rcases Id.run (act.run.run σ) with ⟨r | a, τ⟩ <;> simp

@[simp] theorem ends_map {act : ExceptT ε (StateM S) α} {f : α → β} {b : β} :
    (f <$> act).Ends σ b σ' ↔ ∃ a, act.Ends σ a σ' ∧ f a = b := by
  rw [map_eq_pure_bind, ends_bind]
  simp only [ends_pure]
  constructor
  · rintro ⟨a, τ, ha, rfl, rfl⟩
    exact ⟨a, ha, rfl⟩
  · rintro ⟨a, ha, rfl⟩
    exact ⟨a, σ', ha, rfl, rfl⟩

@[simp] theorem ends_throw {f : ε} {a : α} :
    (throw f : ExceptT ε (StateM S) α).Ends σ a σ' ↔ False := by
  simp [Ends]

@[simp] theorem ends_lift {x : Except ε α} {a : α} :
    (liftM x : ExceptT ε (StateM S) α).Ends σ a σ' ↔ x = .ok a ∧ σ = σ' := by
  change (x, σ) = (.ok a, σ') ↔ _
  rw [Prod.mk.injEq]

@[simp] theorem ends_get {a : S} :
    (get : ExceptT ε (StateM S) S).Ends σ a σ' ↔ σ = a ∧ σ = σ' := by
  change ((.ok σ, σ) : Except ε S × S) = (.ok a, σ') ↔ _
  simp

@[simp] theorem ends_set {τ : S} {u : PUnit} :
    (set τ : ExceptT ε (StateM S) PUnit).Ends σ u σ' ↔ τ = σ' := by
  change ((.ok (), τ) : Except ε Unit × S) = (.ok u, σ') ↔ _
  simp

@[simp] theorem ends_modify {f : S → S} {u : PUnit} :
    (modify f : ExceptT ε (StateM S) PUnit).Ends σ u σ' ↔ f σ = σ' := by
  change ((.ok (), f σ) : Except ε Unit × S) = (.ok u, σ') ↔ _
  simp

theorem ends_mapM_nil {f : α → ExceptT ε (StateM S) β} {bs : List β} :
    ([].mapM f).Ends σ bs σ' ↔ [] = bs ∧ σ = σ' := by
  rw [List.mapM_nil, ends_pure]

theorem ends_mapM_cons {f : α → ExceptT ε (StateM S) β} {a : α} {as : List α} {bs : List β} :
    ((a :: as).mapM f).Ends σ bs σ' ↔
      ∃ b τ, (f a).Ends σ b τ ∧ ∃ rest, (as.mapM f).Ends τ rest σ' ∧ b :: rest = bs := by
  simp only [List.mapM_cons, ends_bind, ends_pure]
  constructor
  · rintro ⟨b, τ, hb, rest, _, hrest, rfl, rfl⟩
    exact ⟨b, τ, hb, rest, hrest, rfl⟩
  · rintro ⟨b, τ, hb, rest, hrest, rfl⟩
    exact ⟨b, τ, hb, rest, _, hrest, rfl, rfl⟩

end ExceptT

namespace Antecedent

variable {e : Environment} {n l : Label} {name : Symbol} {srt : Srt} {v : Var} {t : Term}
  {σ : Session} {callee : String}

export ExceptT (ends_pure ends_bind ends_map ends_throw ends_lift ends_get ends_set ends_modify
  ends_mapM_nil ends_mapM_cons)

section Faults

variable {ε α β : Type}

@[simp] theorem pure_eq_ok {a b : α} : (pure a : Except ε α) = .ok b ↔ a = b := by
  simp [pure, Except.pure]

@[simp] theorem bind_eq_ok {x : Except ε α} {f : α → Except ε β} {b : β} :
    (x >>= f) = .ok b ↔ ∃ a, x = .ok a ∧ f a = .ok b := by
  cases x <;> simp [bind, Except.bind]

@[simp] theorem map_eq_ok {x : Except ε α} {f : α → β} {b : β} :
    (f <$> x) = .ok b ↔ ∃ a, x = .ok a ∧ f a = b := by
  cases x <;> simp

/-- A list of results, one for every member. -/
theorem mapM_eq_ok {f : α → Except ε β} {as : List α} {bs : List β} :
    as.mapM f = .ok bs ↔ List.Forall₂ (fun a b => f a = .ok b) as bs := by
  induction as generalizing bs with
  | nil => rw [List.mapM_nil, pure_eq_ok, List.forall₂_nil_left_iff, eq_comm]
  | cons a as ih =>
    simp only [List.mapM_cons, bind_eq_ok, pure_eq_ok, List.forall₂_cons_left_iff, ih]
    constructor
    · rintro ⟨b, hb, bs, hbs, rfl⟩
      exact ⟨b, bs, hb, hbs, rfl⟩
    · rintro ⟨b, bs, hb, hbs, rfl⟩
      exact ⟨b, hb, bs, hbs, rfl⟩

theorem mem_of_forall₂ {R : α → β → Prop} {as : List α} {bs : List β} (h : List.Forall₂ R as bs) :
    (∀ a ∈ as, ∃ b ∈ bs, R a b) ∧ ∀ b ∈ bs, ∃ a ∈ as, R a b := by
  induction h with
  | nil => simp
  | cons hb _ ih =>
    refine ⟨List.forall_mem_cons.mpr ⟨⟨_, List.mem_cons_self .., hb⟩, fun a ha => ?_⟩,
      List.forall_mem_cons.mpr ⟨⟨_, List.mem_cons_self .., hb⟩, fun b hb => ?_⟩⟩
    · obtain ⟨b, hb, hr⟩ := ih.1 a ha
      exact ⟨b, List.mem_cons_of_mem _ hb, hr⟩
    · obtain ⟨a, ha, hr⟩ := ih.2 b hb
      exact ⟨a, List.mem_cons_of_mem _ ha, hr⟩

/-- A list of results has one for every member, and no others. -/
theorem mem_of_mapM_eq_ok {f : α → Except ε β} {as : List α} {bs : List β}
    (h : as.mapM f = .ok bs) :
    (∀ a ∈ as, ∃ b ∈ bs, f a = .ok b) ∧ ∀ b ∈ bs, ∃ a ∈ as, f a = .ok b :=
  mem_of_forall₂ (mapM_eq_ok.mp h)

end Faults

/-! ## §2 Environments -/

namespace Environment

def symbols (e : Environment) : List Symbol :=
  e.introduced.filterMap fun l => (Term.symbolOf l).toOption

def constants (e : Environment) : List Term :=
  e.vars.map (·.2) ++ e.inits.map (·.2)

/-- Every constant is a named bit vector or memory, and its name has been introduced. -/
def Sound (e : Environment) : Prop :=
  ∀ t ∈ e.constants, ∃ name srt, t = .const name srt ∧ srt ≠ .bool ∧ name ∈ e.symbols

/-- An environment without constants is sound. -/
theorem sound_of_nil (hvars : e.vars = []) (hinits : e.inits = []) : e.Sound := by
  simp [Sound, constants, hvars, hinits]

def suffix (e : Environment) : String :=
  if e.freshened then freshSuffix else ""

/-- The name that is made of a stem and a number. -/
abbrev numbered (stem : String) (n : Nat) : String :=
  s!"{stem}_{n}"

def freshSymbol (e : Environment) (stem : String) (n : Nat) : Symbol :=
  .ofText (numbered stem n ++ e.suffix)

/-- The symbol of the flag that a function has been called. -/
def flagSymbol (e : Environment) (callee : String) : Symbol :=
  .ofText (calledMark ++ callee ++ e.suffix)

theorem localName_text (e : Environment) (base : String) :
    e.localName (.text base) = .ok (.text (base ++ e.suffix)) := by
  rw [localName, suffix]
  split <;> simp

theorem symbolOf_localName {base : String} (h : e.localName (.text base) = .ok n) :
    Term.symbolOf n = .ok (.ofText (base ++ e.suffix)) := by
  cases h.symm.trans (e.localName_text base)
  rfl

/-- Every variable's constant has the symbol of the name made for the variable, and the sort of some
variable. -/
def Labelled (e : Environment) : Prop :=
  ∀ p ∈ e.vars, ∃ n name w srt, e.localName p.1 = .ok n ∧ Term.symbolOf n = .ok name ∧
    e.sortOf w = .ok srt ∧ p.2 = .const name srt

/-- Every flag of a called function is the Boolean constant of its symbol. -/
def Flagged (e : Environment) : Prop :=
  ∀ p ∈ e.calls, p.2 = .const (e.flagSymbol p.1) .bool

/-- An environment without flags has none that is wrong. -/
theorem flagged_of_nil (h : e.calls = []) : e.Flagged := by
  simp [Flagged, h]

/-- What builders may do to an environment: introduce names and constants. -/
structure Grows (e e' : Environment) : Prop where
  arch : e'.arch = e.arch
  logic : e'.logic = e.logic
  subs : e'.subs = e.subs
  useInputs : e'.useInputs = e.useInputs
  hooks : e'.hooks = e.hooks
  stack : e'.stack = e.stack
  unroll : e'.unroll = e.unroll
  freshened : e'.freshened = e.freshened
  vars : e.vars <+: e'.vars
  inits : e.inits <+: e'.inits
  introduced : e.introduced <:+ e'.introduced

variable {e' e'' : Environment}

theorem Grows.refl (e : Environment) : e.Grows e :=
  ⟨rfl, rfl, rfl, rfl, rfl, rfl, rfl, rfl, List.prefix_rfl, List.prefix_rfl, List.suffix_rfl⟩

theorem Grows.trans (h : e.Grows e') (h' : e'.Grows e'') : e.Grows e'' where
  arch := h'.arch.trans h.arch
  logic := h'.logic.trans h.logic
  subs := h'.subs.trans h.subs
  useInputs := h'.useInputs.trans h.useInputs
  hooks := h'.hooks.trans h.hooks
  stack := h'.stack.trans h.stack
  unroll := h'.unroll.trans h.unroll
  freshened := h'.freshened.trans h.freshened
  vars := h.vars.trans h'.vars
  inits := h.inits.trans h'.inits
  introduced := h.introduced.trans h'.introduced

def Gives (e : Environment) (v : Var) (t : Term) : Prop :=
  ∃ l, v.name.label = .ok l ∧ e.findVar? l = some t

theorem Grows.findVar?_eq_some (h : e.Grows e') (ht : e.findVar? l = some t) :
    e'.findVar? l = some t := by
  obtain ⟨more, hmore⟩ := h.vars
  obtain ⟨p, hp, rfl⟩ := Option.map_eq_some_iff.mp ht
  rw [findVar?, ← hmore, List.find?_append, hp]
  rfl

theorem Gives.grows (h : e.Gives v t) (hg : e.Grows e') : e'.Gives v t :=
  h.imp fun _ hl => ⟨hl.1, hg.findVar?_eq_some hl.2⟩

theorem findVar?_append (e : Environment) (introduced : List Label) (l l' : Label) (t : Term) :
    findVar? { e with introduced := introduced, vars := e.vars ++ [(l, t)] } l' =
      (e.findVar? l').or (if l.same l' then some t else none) := by
  rw [findVar?, findVar?, List.find?_append, Option.map_or, List.find?_singleton]
  split <;> rfl

theorem Gives.termOf_eq (h : e.Gives v t) : e.termOf v = .ok t := by
  obtain ⟨l, hl, hf⟩ := h
  simp [termOf, hl, hf, bind, Except.bind, pure, Except.pure]

theorem Grows.memVar (h : e.Grows e') : e'.memVar = e.memVar := by
  rw [Environment.memVar, Environment.memVar, h.arch]

theorem Grows.flagSymbol_eq (h : e.Grows e') (name : String) :
    e'.flagSymbol name = e.flagSymbol name := by
  rw [flagSymbol, flagSymbol, suffix, suffix, h.freshened]

theorem Grows.regVar (h : e.Grows e') (r : String) : e'.regVar r = e.regVar r := by
  rw [Environment.regVar, Environment.regVar, h.arch]

theorem Gives.look_eq (h : e.Gives v t) (s : State) : e.look s v = t.eval s := by
  rw [look, h.termOf_eq]

theorem Gives.assign_eq (h : e.Gives v (.const name srt)) (s : State) (x : Value) :
    e.assign s v x = s.set name srt x := by
  rw [assign, h.termOf_eq]

def Owns (e : Environment) (name : Symbol) (srt : Srt) : Prop :=
  .const name srt ∈ e.vars.map (·.2)

/-- Constants of variables are never Boolean. -/
theorem Sound.owns_ne_bool (h : e.Sound) (ho : e.Owns name srt) : srt ≠ .bool := by
  obtain ⟨name', srt', heq, hne, -⟩ := h _ (List.mem_append_left _ ho)
  obtain ⟨-, rfl⟩ := Term.const.inj heq
  exact hne

theorem Sound.owns_symbol (h : e.Sound) (ho : e.Owns name srt) : name ∈ e.symbols := by
  obtain ⟨name', srt', heq, -, hmem⟩ := h _ (List.mem_append_left _ ho)
  obtain ⟨rfl, -⟩ := Term.const.inj heq
  exact hmem

theorem Gives.const (h : e.Gives v t) (hs : e.Sound) :
    ∃ name srt, t = .const name srt ∧ e.Owns name srt := by
  obtain ⟨l, -, hf⟩ := h
  obtain ⟨p, hp, rfl⟩ := Option.map_eq_some_iff.mp hf
  have hmem : p.2 ∈ e.vars.map (·.2) := List.mem_map_of_mem (List.mem_of_find?_eq_some hp)
  obtain ⟨name, srt, heq, -, -⟩ := hs _ (List.mem_append_left _ hmem)
  exact ⟨name, srt, heq, by rw [Owns, ← heq]; exact hmem⟩

theorem Grows.symbols (h : e.Grows e') {x : Symbol} (hx : x ∈ e.symbols) : x ∈ e'.symbols := by
  obtain ⟨l, hl, hx⟩ := List.mem_filterMap.mp hx
  exact List.mem_filterMap.mpr ⟨l, h.introduced.subset hl, hx⟩

/-- New names do no harm to the constants that are there. -/
theorem Sound.of_grows (h : e.Sound) (hg : e.Grows e') (hc : e'.constants = e.constants) :
    e'.Sound := by
  intro t ht
  obtain ⟨name, srt, rfl, hne, hmem⟩ := h t (hc ▸ ht)
  exact ⟨name, srt, rfl, hne, hg.symbols hmem⟩

/-- The sort of a variable is never Boolean. -/
theorem sortOf_ne_bool (h : e.sortOf v = .ok srt) : srt ≠ .bool := by
  rw [sortOf] at h
  split at h
  · obtain ⟨a, -, rfl⟩ := map_eq_ok.mp h
    simp
  · obtain ⟨w, -, rfl⟩ := map_eq_ok.mp h
    simp

end Environment

namespace Label

variable {a b : Label}

theorem ratio?_pos {m : Int} {d : Nat} (h : l.ratio? = some (m, d)) : 0 < d := by
  cases l with
  | bool b =>
    obtain ⟨-, rfl⟩ := Prod.mk.inj (Option.some.inj h)
    exact Nat.one_pos
  | int n =>
    obtain ⟨-, rfl⟩ := Prod.mk.inj (Option.some.inj h)
    exact Nat.one_pos
  | float x =>
    cases x with
    | finite sign mantissa exponent =>
      simp only [ratio?, Binary64.magnitude?, Option.map_some, Option.some.injEq,
        Prod.mk.injEq] at h
      obtain ⟨-, rfl⟩ := h
      split
      · exact Nat.one_pos
      · exact Nat.two_pow_pos _
    | nan => simp [ratio?, Binary64.magnitude?] at h
    | infinity sign => simp [ratio?, Binary64.magnitude?] at h
  | null => simp [ratio?] at h
  | text s => simp [ratio?] at h

/-- Labels are the same if they are equal and no numbers, or numbers of one value. -/
theorem same_cases (h : a.same b = true) : a = b ∧ a.ratio? = none ∨
      ∃ m d n e, a.ratio? = some (m, d) ∧ b.ratio? = some (n, e) ∧
        m * (e : Int) = n * (d : Int) := by
  unfold same at h
  split at h
  · exact .inl ⟨rfl, rfl⟩
  · exact .inl ⟨by simpa using h, rfl⟩
  · exact .inl ⟨by simpa using h, rfl⟩
  · split at h
    · next m d n e ha hb => exact .inr ⟨m, d, n, e, ha, hb, by simpa using h⟩
    · cases h

/-- Numbers are the same if they have one value. -/
theorem same_of_ratio {m n : Int} {d e : Nat} (ha : a.ratio? = some (m, d))
    (hb : b.ratio? = some (n, e)) (h : m * (e : Int) = n * (d : Int)) : a.same b = true := by
  unfold same
  split
  · rfl
  · simp [ratio?] at ha
  · simp [ratio?, Binary64.magnitude?] at ha
  · simp [ha, hb, h]

theorem same_symm (h : a.same b = true) : b.same a = true := by
  rcases same_cases h with ⟨rfl, -⟩ | ⟨m, d, n, e, ha, hb, hmn⟩
  · exact h
  · exact same_of_ratio hb ha hmn.symm

theorem same_trans {c : Label} (hab : a.same b = true) (hbc : b.same c = true) :
    a.same c = true := by
  rcases same_cases hab with ⟨rfl, -⟩ | ⟨m, d, n, e, ha, hb, hmn⟩
  · exact hbc
  rcases same_cases hbc with ⟨rfl, -⟩ | ⟨n', e', k, f, hb', hc, hnk⟩
  · exact hab
  · obtain ⟨rfl, rfl⟩ := Prod.mk.inj (Option.some.inj (hb.symm.trans hb'))
    have hpos : (e : Int) ≠ 0 := by
      have := ratio?_pos hb
      omega
    refine same_of_ratio ha hc (mul_right_cancel₀ hpos ?_)
    calc m * (f : Int) * e = m * e * f := by ring
      _ = n * f * d := by rw [hmn]; ring
      _ = k * (d : Int) * e := by rw [hnk]; ring

theorem same_congr_right (h : a.same b = true) (c : Label) : c.same a = c.same b :=
  Bool.eq_iff_iff.mpr ⟨fun hc => same_trans hc h, fun hc => same_trans hc (same_symm h)⟩

/-- A text is the same as itself only. -/
theorem eq_of_text_same {s : String} (h : Label.same (.text s) l = true) : l = .text s :=
  eq_of_same_text (same_symm h)

end Label

namespace Environment

theorem depth_setDepth_eq {l' : Label} (n : Nat) :
    (e.setDepth l n).depth l' = if l.same l' then n else e.depth l' := by
  rw [depth, setDepth, List.find?_cons]
  cases hl : l.same l' with
  | true => simp
  | false =>
    -- what counts the other label is kept
    have hkept : ∀ p ∈ e.depths,
        decide ((!p.1.same l) = true ∧ p.1.same l' = true) = p.1.same l' := by
      intro p _
      cases hp : p.1.same l' with
      | false => simp
      | true =>
        have hother : p.1.same l = false := by
          rw [Bool.eq_false_iff] at hl ⊢
          exact fun h => hl (Label.same_trans (Label.same_symm h) hp)
        simp [hother]
    simp only [Bool.false_eq_true, if_false, depth]
    rw [List.find?_filter, List.find?_congr hkept]

theorem depth_setDepth (e : Environment) (l : Label) (n : Nat) (name : String) :
    (e.setDepth l n).depth name = if l = .text name then n else e.depth name := by
  rw [depth_setDepth_eq]
  by_cases hl : l = .text name
  · simp [hl]
  · rw [if_neg hl, if_neg fun hsame => hl (Label.eq_of_same_text hsame)]

end Environment

/-- What builders may do to a session.  The activations that they open they also close. -/
structure Session.Step (σ σ' : Session) : Prop where
  env : σ.env.Grows σ'.env
  sound : σ.env.Sound → σ'.env.Sound
  flagged : σ.env.Flagged → σ'.env.Flagged
  summaries : σ'.env.summaries = σ.env.summaries
  depth : ∀ name : String, σ'.env.depth name = σ.env.depth name
  nodes : σ.supply.nodes ≤ σ'.supply.nodes
  names : σ.supply.names ≤ σ'.supply.names

namespace Session.Step

variable {σ' σ'' : Session}

theorem refl (σ : Session) : σ.Step σ :=
  ⟨.refl _, id, id, rfl, fun _ => rfl, le_rfl, le_rfl⟩

theorem trans (h : σ.Step σ') (h' : σ'.Step σ'') : σ.Step σ'' :=
  ⟨h.env.trans h'.env, h'.sound ∘ h.sound, h'.flagged ∘ h.flagged, h'.summaries.trans h.summaries,
    fun name => (h'.depth name).trans (h.depth name), h.nodes.trans h'.nodes,
    h.names.trans h'.names⟩

/-- An activation that is opened first and closed at last. -/
theorem activation (h : Step { σ with env := σ.env.setDepth l (σ.env.depth l + 1) } σ') :
    σ.Step { σ' with env := σ'.env.setDepth l (σ'.env.depth l - 1) } where
  env := ⟨h.env.arch, h.env.logic, h.env.subs, h.env.useInputs, h.env.hooks, h.env.stack,
    h.env.unroll, h.env.freshened, h.env.vars, h.env.inits, h.env.introduced⟩
  sound := h.sound
  flagged := h.flagged
  summaries := h.summaries
  depth name := by
    have hkept := h.depth name
    rw [Environment.depth_setDepth] at hkept ⊢
    split
    · next hl =>
      subst hl
      rw [hkept, if_pos rfl, Nat.add_sub_cancel]
    · next hl => rw [hkept, if_neg hl]
  nodes := h.nodes
  names := h.names

end Session.Step

/-! ## §3 Constants -/

namespace Build

variable {σ' : Session}

theorem ends_env : env.Ends σ e σ' ↔ σ.env = e ∧ σ = σ' := by
  simp [env, and_comm]

theorem ends_modifyEnv {f : Environment → Environment} {u : Unit} :
    (modifyEnv f).Ends σ u σ' ↔ { σ with env := f σ.env } = σ' := by
  simp [modifyEnv]

theorem ends_name {base : Label} : (Build.name base).Ends σ n σ' ↔ σ.env.localName base = .ok n ∧
      σ' = { σ with env := { σ.env with introduced := n :: σ.env.introduced } } := by
  simp only [Build.name, ends_bind, ends_env, ends_lift, ends_modifyEnv, ends_pure]
  constructor
  · rintro ⟨_, _, ⟨rfl, rfl⟩, _, _, ⟨hn, rfl⟩, _, _, rfl, rfl, rfl⟩
    exact ⟨hn, rfl⟩
  · rintro ⟨hn, rfl⟩
    exact ⟨_, _, ⟨rfl, rfl⟩, n, _, ⟨hn, rfl⟩, (), _, rfl, rfl, rfl⟩

theorem ends_constant {base : Label} : (constant base v).Ends σ t σ' ↔
      ∃ n name srt, σ.env.localName base = .ok n ∧ Term.symbolOf n = .ok name ∧
        σ.env.sortOf v = .ok srt ∧ t = .const name srt ∧
        σ' = { σ with env := { σ.env with introduced := n :: σ.env.introduced } } := by
  simp only [constant, ends_name, ends_bind, ends_env, ends_lift, ends_pure]
  constructor
  · rintro ⟨n, _, ⟨hn, rfl⟩, _, _, ⟨rfl, rfl⟩, srt, _, ⟨hsrt, rfl⟩, name, _, ⟨hname, rfl⟩, rfl, rfl⟩
    exact ⟨_, name, srt, hn, hname, hsrt, rfl, rfl⟩
  · rintro ⟨n, name, srt, hn, hname, hsrt, rfl, rfl⟩
    exact ⟨n, _, ⟨hn, rfl⟩, _, _, ⟨rfl, rfl⟩, srt, _, ⟨hsrt, rfl⟩, name, _, ⟨hname, rfl⟩, rfl, rfl⟩

private theorem same_self (h : Term.symbolOf l = .ok name) : l.same l = true := by
  cases l with
  | null => rfl
  | text s => simp [Label.same]
  | bool b => simp [Label.same, Label.ratio?]
  | int n => simp [Label.same, Label.ratio?]
  | float x => simp [Term.symbolOf] at h

private theorem same_of_localName (hn : e.localName l = .ok n) (h : Term.symbolOf n = .ok name) :
    l.same l = true := by
  unfold Environment.localName at hn
  split at hn
  · split at hn
    · simp [Label.same]
    · cases hn
  · cases hn
    exact same_self h

theorem sound_introduce (h : e.Sound) (hname : Term.symbolOf n = .ok name) (hsrt : srt ≠ .bool)
    {vars : List (Label × Term)} {inits : List (String × Term)}
    (hmem : ∀ t ∈ vars.map (·.2) ++ inits.map (·.2), t ∈ e.constants ∨ t = .const name srt) :
    Environment.Sound
      { e with introduced := n :: e.introduced, vars := vars, inits := inits } := by
  have hgrow : ∀ x, x ∈ e.symbols → x ∈ Environment.symbols
      { e with introduced := n :: e.introduced, vars := vars, inits := inits } := by
    intro x hx
    obtain ⟨l, hl, hx⟩ := List.mem_filterMap.mp hx
    exact List.mem_filterMap.mpr ⟨l, List.mem_cons_of_mem _ hl, hx⟩
  intro t ht
  rcases hmem t ht with ht | rfl
  · obtain ⟨name', srt', rfl, hne, hin⟩ := h t ht
    exact ⟨name', srt', rfl, hne, hgrow _ hin⟩
  · exact ⟨name, srt, rfl, hsrt,
      List.mem_filterMap.mpr ⟨n, List.mem_cons_self .., by rw [hname]; rfl⟩⟩

/-- A variable that is looked up has a constant already, or is given a new one. -/
theorem getVar_cases (h : (getVar v).Ends σ t σ') :
    ∃ l, v.name.label = .ok l ∧ (σ.env.findVar? l = some t ∧ σ' = σ ∨
      σ.env.findVar? l = none ∧ ∃ n name srt, σ.env.localName l = .ok n ∧
        Term.symbolOf n = .ok name ∧ σ.env.sortOf v = .ok srt ∧ t = .const name srt ∧
        σ' = { σ with env := { σ.env with
          introduced := n :: σ.env.introduced
          vars := σ.env.vars ++ [(l, t)] } }) := by
  simp only [getVar, ends_bind, ends_lift, ends_env] at h
  obtain ⟨l, _, ⟨hl, rfl⟩, _, _, ⟨rfl, rfl⟩, h⟩ := h
  refine ⟨l, hl, ?_⟩
  split at h
  · next u hu =>
    obtain ⟨rfl, rfl⟩ := ends_pure.mp h
    exact .inl ⟨hu, rfl⟩
  · next hnone =>
    simp only [ends_bind, ends_modifyEnv, ends_pure] at h
    obtain ⟨_, _, hc, _, _, rfl, rfl, rfl⟩ := h
    obtain ⟨n, name, srt, hn, hname, hsrt, rfl, rfl⟩ := ends_constant.mp hc
    exact .inr ⟨hnone, n, name, srt, hn, hname, hsrt, rfl, rfl⟩

/-- **The constant of a variable**: looking a variable up gives it a constant for good. -/
theorem ends_getVar (h : (getVar v).Ends σ t σ') :
    σ.Step σ' ∧ σ'.supply = σ.supply ∧ σ'.env.Gives v t := by
  obtain ⟨l, hl, ⟨ht, rfl⟩ | ⟨hnone, n, name, srt, hn, hname, hsrt, rfl, rfl⟩⟩ := getVar_cases h
  · exact ⟨.refl _, rfl, l, hl, ht⟩
  · refine ⟨⟨?_, fun hs => ?_, fun hf => hf, rfl, fun _ => rfl, le_rfl, le_rfl⟩, rfl, l, hl, ?_⟩
    · exact ⟨rfl, rfl, rfl, rfl, rfl, rfl, rfl, rfl, List.prefix_append .., List.prefix_rfl,
        List.suffix_cons ..⟩
    · refine sound_introduce hs hname (Environment.sortOf_ne_bool hsrt) fun t ht => ?_
      simp only [Environment.constants, List.map_append, List.mem_append, List.map_cons,
        List.map_nil, List.mem_singleton] at ht ⊢
      tauto
    · rw [Environment.findVar?, Option.map_eq_none_iff] at hnone
      simp [Environment.findVar?, List.find?_append, hnone, same_of_localName hn hname]

theorem labelled_getVar (h : (getVar v).Ends σ t σ') (hσ : σ.env.Labelled) :
    σ'.env.Labelled := by
  obtain ⟨l, -, ⟨-, rfl⟩ | ⟨-, n, name, srt, hn, hname, hsrt, rfl, rfl⟩⟩ := getVar_cases h
  · exact hσ
  · intro p hp
    rcases List.mem_append.mp hp with hp | hp
    · exact hσ p hp
    · obtain rfl := List.mem_singleton.mp hp
      exact ⟨n, name, v, srt, hn, hname, hsrt, rfl⟩

theorem getVar_old (hl : v.name.label = .ok l) (ht : σ.env.findVar? l = some t) :
    (getVar v).Ends σ t σ := by
  simp only [getVar, ends_bind, ends_lift, ends_env]
  refine ⟨l, _, ⟨hl, rfl⟩, _, _, ⟨rfl, rfl⟩, ?_⟩
  rw [ht]
  exact ends_pure.mpr ⟨rfl, rfl⟩

/-- A variable without a constant is given a new one. -/
theorem getVar_new (hl : v.name.label = .ok l) (hnone : σ.env.findVar? l = none)
    (hn : σ.env.localName l = .ok n) (hname : Term.symbolOf n = .ok name)
    (hsrt : σ.env.sortOf v = .ok srt) : (getVar v).Ends σ (.const name srt)
      { σ with env := { σ.env with
          introduced := n :: σ.env.introduced
          vars := σ.env.vars ++ [(l, .const name srt)] } } := by
  simp only [getVar, ends_bind, ends_lift, ends_env]
  refine ⟨l, _, ⟨hl, rfl⟩, _, _, ⟨rfl, rfl⟩, ?_⟩
  rw [hnone]
  simp only [ends_bind, ends_modifyEnv, ends_pure]
  exact ⟨_, _, ends_constant.mpr ⟨n, name, srt, hn, hname, hsrt, rfl, rfl⟩, (), _, rfl, rfl, rfl⟩

theorem ends_getRegister {σ' : Session} {r : String} (h : (getRegister r).Ends σ t σ') :
    σ.Step σ' ∧ σ'.supply = σ.supply ∧ ∃ v, σ.env.regVar r = .ok v ∧ σ'.env.Gives v t := by
  simp only [getRegister, ends_bind, ends_env, ends_lift] at h
  obtain ⟨_, _, ⟨rfl, rfl⟩, v, _, ⟨hv, rfl⟩, h⟩ := h
  obtain ⟨hstep, hsup, hgives⟩ := ends_getVar h
  exact ⟨hstep, hsup, v, hv, hgives⟩

theorem ends_getMemory {σ' : Session} (h : getMemory.Ends σ t σ') :
    σ.Step σ' ∧ σ'.supply = σ.supply ∧ σ'.env.Gives σ'.env.memVar t := by
  simp only [getMemory, ends_bind, ends_env] at h
  obtain ⟨_, _, ⟨rfl, rfl⟩, h⟩ := h
  obtain ⟨hstep, hsup, hgives⟩ := ends_getVar h
  exact ⟨hstep, hsup, hstep.env.memVar ▸ hgives⟩

theorem callFlag_old (h : σ.env.calls.lookup callee = some t) : (callFlag callee).Ends σ t σ := by
  refine ends_bind.mpr ⟨σ.env, σ, ends_env.mpr ⟨rfl, rfl⟩, ?_⟩
  rw [h]
  exact ends_pure.mpr ⟨rfl, rfl⟩

/-- A function without a flag is given a new one. -/
theorem callFlag_new (h : σ.env.calls.lookup callee = none)
    (hn : σ.env.localName (Environment.calledMark ++ callee) = .ok n)
    (hname : Term.symbolOf n = .ok name) : (callFlag callee).Ends σ (.const name .bool)
      { σ with env := { σ.env with
          introduced := n :: σ.env.introduced
          calls := σ.env.calls ++ [(callee, .const name .bool)] } } := by
  refine ends_bind.mpr ⟨σ.env, σ, ends_env.mpr ⟨rfl, rfl⟩, ?_⟩
  rw [h]
  exact ends_bind.mpr ⟨n, _, ends_name.mpr ⟨hn, rfl⟩, ends_bind.mpr ⟨name, _,
    ends_lift.mpr ⟨hname, rfl⟩, ends_bind.mpr ⟨(), _, ends_modifyEnv.mpr rfl,
      ends_pure.mpr ⟨rfl, rfl⟩⟩⟩⟩

/-- The flag of a called function is at hand, or it is introduced. -/
theorem callFlag_cases (h : (callFlag callee).Ends σ t σ') : ((callee, t) ∈ σ.env.calls ∧ σ' = σ) ∨
      (t = .const (σ.env.flagSymbol callee) .bool ∧
        ∃ n, Term.symbolOf n = .ok (σ.env.flagSymbol callee) ∧ σ' = { σ with env := { σ.env with
          introduced := n :: σ.env.introduced
          calls := σ.env.calls ++ [(callee, t)] } }) := by
  simp only [callFlag, ends_bind, ends_env] at h
  obtain ⟨_, _, ⟨rfl, rfl⟩, h⟩ := h
  split at h
  · next u hu =>
    obtain ⟨rfl, rfl⟩ := ends_pure.mp h
    obtain ⟨l1, l2, heq, -⟩ := List.lookup_eq_some_iff.mp hu
    exact .inl ⟨by simp [heq], rfl⟩
  · simp only [ends_bind, ends_name, ends_lift, ends_modifyEnv, ends_pure] at h
    obtain ⟨n, _, ⟨hn, rfl⟩, name, _, ⟨hname, rfl⟩, _, _, rfl, rfl, rfl⟩ := h
    have hsymbol := Environment.symbolOf_localName hn
    obtain rfl : name = σ.env.flagSymbol callee := Except.ok.inj (hname.symm.trans hsymbol)
    exact .inr ⟨rfl, n, hsymbol, rfl⟩

/-- **The flag of a called function** is the constant of its symbol. -/
theorem ends_callFlag (h : (callFlag callee).Ends σ t σ') (hf : σ.env.Flagged) :
    σ.Step σ' ∧ σ'.supply = σ.supply ∧ t = .const (σ.env.flagSymbol callee) .bool := by
  obtain ⟨hmem, rfl⟩ | ⟨rfl, n, -, rfl⟩ := callFlag_cases h
  · exact ⟨.refl _, rfl, hf _ hmem⟩
  · have hgrows : σ.env.Grows { σ.env with
        introduced := n :: σ.env.introduced
        calls := σ.env.calls ++ [(callee, .const (σ.env.flagSymbol callee) .bool)] } :=
      ⟨rfl, rfl, rfl, rfl, rfl, rfl, rfl, rfl, List.prefix_rfl, List.prefix_rfl,
        List.suffix_cons ..⟩
    refine ⟨⟨hgrows, fun hs => hs.of_grows hgrows rfl, fun hf p hp => ?_, rfl, fun _ => rfl,
      le_rfl, le_rfl⟩, rfl, rfl⟩
    rcases List.mem_append.mp hp with hp | hp
    · exact hf p hp
    · obtain rfl := List.mem_singleton.mp hp
      rfl

theorem ends_fresh {stem : String} {width : Json} (h : (fresh stem width).Ends σ t σ') :
    σ.Step σ' ∧ ∃ name w, t = .const name (.bits w) := by
  simp only [fresh, freshBase, ends_bind, ends_get, ends_set, ends_name, ends_lift, ends_pure] at h
  obtain ⟨_, _, ⟨_, _, ⟨rfl, rfl⟩, _, _, rfl, rfl, rfl⟩, n, _, ⟨hn, rfl⟩, w, _, ⟨-, rfl⟩, name, _,
    ⟨-, rfl⟩, rfl, rfl⟩ := h
  have hgrows : σ.env.Grows { σ.env with introduced := n :: σ.env.introduced } :=
    ⟨rfl, rfl, rfl, rfl, rfl, rfl, rfl, rfl, List.prefix_rfl, List.prefix_rfl, List.suffix_cons ..⟩
  exact ⟨⟨hgrows, fun hs => hs.of_grows hgrows rfl, fun hf => hf, rfl, fun _ => rfl, le_rfl,
    Nat.le_succ _⟩, name, w, rfl⟩

end Build

/-! ## §4 Nodes -/

/-- The session after one more node. -/
def Session.bump (σ : Session) : Session :=
  { σ with supply := { σ.supply with nodes := σ.supply.nodes + 1 } }

/-- A table lists a constraint among the nodes made so far. -/
def Session.Lists (σ : Session) (ν : Nat → Constraint) (c : Constraint) : Prop :=
  c.Listed ν σ.supply.nodes

/-- What builders may do to a session and to the table of its nodes. -/
structure Builds (σ : Session) (ν : Nat → Constraint) (σ' : Session) (ν' : Nat → Constraint) :
    Prop where
  step : σ.Step σ'
  table : ∀ i < σ.supply.nodes, ν' i = ν i

namespace Builds

variable {σ' σ'' : Session} {ν ν' ν'' : Nat → Constraint} {c : Constraint}

theorem refl (σ : Session) (ν : Nat → Constraint) : Builds σ ν σ ν :=
  ⟨.refl σ, fun _ _ => rfl⟩

theorem trans (h : Builds σ ν σ' ν') (h' : Builds σ' ν' σ'' ν'') : Builds σ ν σ'' ν'' where
  step := h.step.trans h'.step
  table i hi := (h'.table i (hi.trans_le h.step.nodes)).trans (h.table i hi)

/-- Constants may be introduced without making nodes. -/
theorem of_step (h : σ.Step σ') : Builds σ ν σ' ν :=
  ⟨h, fun _ _ => rfl⟩

theorem lists (h : Builds σ ν σ' ν') (hc : σ.Lists ν c) : σ'.Lists ν' c :=
  hc.mono h.step.nodes h.table

/-- One more node, whatever it is. -/
theorem bump (c : Constraint) : Builds σ ν σ.bump (Function.update ν σ.supply.nodes c) :=
  ⟨⟨.refl _, fun h => h, fun h => h, rfl, fun _ => rfl, Nat.le_succ _, le_rfl⟩,
    fun _ hi => Function.update_of_ne (Nat.ne_of_lt hi) ..⟩

theorem new (hid : c.id = σ.supply.nodes) (hbelow : ∀ d ∈ c.children, σ.Lists ν d) :
    Builds σ ν σ.bump (Function.update ν σ.supply.nodes c) ∧
      σ.bump.Lists (Function.update ν σ.supply.nodes c) c := by
  have hb : Builds σ ν σ.bump (Function.update ν σ.supply.nodes c) := .bump c
  refine ⟨hb, Constraint.everywhere_iff.mpr ⟨⟨?_, ?_⟩, fun d hd => hb.lists (hbelow d hd)⟩⟩
  · rw [hid]
    exact Nat.lt_succ_self _
  · rw [hid, Function.update_self]

end Builds

namespace Build

variable {σ' : Session} {ν : Nat → Constraint} {c : Constraint}

theorem ends_nodeId {i : Nat} : nodeId.Ends σ i σ' ↔ σ.supply.nodes = i ∧ σ.bump = σ' := by
  simp only [nodeId, ends_bind, ends_get, ends_set, ends_pure]
  constructor
  · rintro ⟨_, _, ⟨rfl, rfl⟩, _, _, rfl, rfl, rfl⟩
    exact ⟨rfl, rfl⟩
  · rintro ⟨rfl, rfl⟩
    exact ⟨_, _, ⟨rfl, rfl⟩, (), _, rfl, rfl, rfl⟩

theorem ends_goal {name : String} {f : Term} (h : (goal name f).Ends σ c σ') :
    ∃ i ν', c = .goal i name f ∧ Builds σ ν σ' ν' ∧ σ'.Lists ν' c := by
  simp only [goal, ends_bind, ends_nodeId, ends_pure] at h
  obtain ⟨i, _, ⟨rfl, rfl⟩, rfl, rfl⟩ := h
  exact ⟨_, _, rfl, Builds.new rfl (by simp [Constraint.children])⟩

theorem ends_clause {hyps concls : List Constraint} (h : (clause hyps concls).Ends σ c σ')
    (hh : ∀ d ∈ hyps, σ.Lists ν d) (hc : ∀ d ∈ concls, σ.Lists ν d) :
    ∃ i ν', c = .clause i hyps concls ∧ Builds σ ν σ' ν' ∧ σ'.Lists ν' c := by
  simp only [clause, ends_bind, ends_nodeId, ends_pure] at h
  obtain ⟨_, _, ⟨rfl, rfl⟩, rfl, rfl⟩ := h
  exact ⟨_, _, rfl, Builds.new rfl (List.forall_mem_append.mpr ⟨hh, hc⟩)⟩

theorem ends_substitution {body : Constraint} {old new : Term}
    (h : (substitution body [old] [new]).Ends σ c σ') (hb : σ.Lists ν body) :
    ∃ i ν', c = .subst i body [(old, new)] ∧ Builds σ ν σ' ν' ∧ σ'.Lists ν' c := by
  simp only [substitution, List.length_singleton, ne_eq, not_true_eq_false, if_false,
    List.isEmpty_cons, Bool.false_eq_true, ends_bind, ends_nodeId, ends_pure] at h
  obtain ⟨_, _, ⟨rfl, rfl⟩, rfl, rfl⟩ := h
  exact ⟨_, _, rfl, Builds.new rfl (by simpa [Constraint.children] using hb)⟩

/-- A branch on a condition is one of its sides, or keeps both. -/
def IsBranch (name : Json) (cond : Term) (yes no c : Constraint) : Prop :=
  (cond = .lit true ∧ c = yes) ∨ (cond = .lit false ∧ c = no) ∨ ∃ i, c = .ite i name cond yes no

/-- A branch is the side taken if the condition is a literal, and a new node otherwise. -/
theorem ends_branch {name : Json} {cond : Term} {yes no : Constraint}
    (h : (branch name cond yes no).Ends σ c σ') (hy : σ.Lists ν yes) (hn : σ.Lists ν no) :
    ∃ ν', Builds σ ν σ' ν' ∧ σ'.Lists ν' c ∧ IsBranch name cond yes no c := by
  unfold branch at h
  split at h
  · obtain ⟨rfl, rfl⟩ := ends_pure.mp h
    exact ⟨ν, .refl _ _, hy, .inl ⟨rfl, rfl⟩⟩
  · obtain ⟨rfl, rfl⟩ := ends_pure.mp h
    exact ⟨ν, .refl _ _, hn, .inr (.inl ⟨rfl, rfl⟩)⟩
  · simp only [ends_bind, ends_nodeId, ends_pure] at h
    obtain ⟨_, _, ⟨rfl, rfl⟩, rfl, rfl⟩ := h
    obtain ⟨hb, hl⟩ := Builds.new (σ := σ) (ν := ν)
      (c := .ite σ.supply.nodes name cond yes no) rfl (by simp [Constraint.children, hy, hn])
    exact ⟨_, hb, hl, .inr (.inr ⟨_, rfl⟩)⟩

end Build

/-! ## §5 Conditions to start with -/

/-- A condition that a walk may start with: its nodes fit together and have been made before, and it
has a formula. -/
structure Constraint.Stands (σ : Session) (b : Bool) (P : Constraint) (ψ : Term) : Prop where
  coherent : P.Coherent
  made : ∀ d ∈ P.subtrees, d.id < σ.supply.nodes
  formula : P.flatten? b = .ok ψ

namespace Constraint.Stands

variable {b : Bool} {P : Constraint} {ψ : Term} (h : P.Stands σ b ψ)
include h

theorem exists_lists : ∃ ν, σ.Lists ν P :=
  h.coherent.listed h.made

theorem sorted : P.Sorted := by
  obtain ⟨ν, hν⟩ := h.exists_lists
  exact (hν.flatten?_eq_ok.mp h.formula).1

theorem holds_iff (s : State) : ψ.holds s = true ↔ P.Holds b s := by
  obtain ⟨ν, hν⟩ := h.exists_lists
  obtain ⟨-, rfl⟩ := hν.flatten?_eq_ok.mp h.formula
  exact hν.holds_flatten b s

end Constraint.Stands

theorem Constraint.stands_goal {i : Nat} {name : String} {f : Term} (b : Bool)
    (h : i < σ.supply.nodes) : (goal i name f).Stands σ b ((goal i name f).flatten b) := by
  have hcoherent : (goal i name f).Coherent := by simp [Coherent, subtrees]
  have hmade : ∀ d ∈ (goal i name f).subtrees, d.id < σ.supply.nodes := by
    simpa [subtrees, id] using h
  obtain ⟨ν, hν⟩ := hcoherent.listed hmade
  exact ⟨hcoherent, hmade, hν.flatten?_eq_ok.mpr ⟨sorted_goal, rfl⟩⟩

end Antecedent
