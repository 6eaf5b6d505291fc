import Antecedent.Proofs.Carrying
import Antecedent.Proofs.Preserving
import Antecedent.Proofs.Summarising

/-!
# What summarised calls build

The condition before a summarised call is a substitution around the condition after it: constants
and functions that belong to the call take the places of the variables that it writes.

* `Session.Writes` says which pairs the substitution of a call has.
* `Walker.ends_call` says that the condition before a call leads to the condition after it.
-/

namespace Antecedent

variable {e : Environment} {ts inputs : List Term} {a s : State} {r stem : String} {callee : Sub}
  {registers functional : List String} {width : Json} {t : Term} {vars : List Var}
  {pairs : List (Term × Term)} {j : Jmp}

/-! ## §1 Answers that are still there -/

/-- A state still holds the answers of another one: it gives the same values to all words of an
environment that belong to no variable, and to all functions. -/
structure Environment.Fair (e : Environment) (a s : State) : Prop where
  apply : a.apply = s.apply
  const : ∀ x ∈ e.symbols, ∀ w, ¬e.Owns x (.bits w) → a.const x (.bits w) = s.const x (.bits w)

namespace Environment

theorem Fair.refl (e : Environment) (s : State) : e.Fair s s :=
  ⟨rfl, fun _ _ _ _ => rfl⟩

/-- Writes to variables and to flags take no answers away. -/
theorem Fair.set (h : e.Fair a s) {name : Symbol} {srt : Srt} (hne : srt = .bool ∨ e.Owns name srt)
    (v : Value) : e.Fair a (s.set name srt v) := by
  refine ⟨h.apply, fun x hx w hfree => ?_⟩
  rw [State.const_set_ne, h.const x hx w hfree]
  by_contra hsame
  obtain ⟨rfl, rfl⟩ : x = name ∧ .bits w = srt := by simpa [not_or] using hsame
  exact hne.elim nofun hfree

/-- Deciding how cut paths count changes no variable. -/
theorem Sound.frame_cutAs (hs : e.Sound) (b : Bool) : e.Frame fun s => s.cutAs b where
  agree s _ _ ho := (s.const_set_ne (.inr (hs.owns_ne_bool ho))).symm
  set s _ _ _ ho := s.set_comm (.inr (hs.owns_ne_bool ho).symm)

end Environment

/-! ## §2 Numbers -/

namespace Clobber

/-- How many constants some clobbered variables need. -/
def count (cs : List Clobber) : Nat :=
  cs.countP (·.inputs.isEmpty)

theorem numbered_append (n : Nat) (cs ds : List Clobber) :
    numbered n (cs ++ ds) = numbered n cs ++ numbered (n + count cs) ds := by
  induction cs generalizing n with
  | nil => rfl
  | cons c cs ih =>
    cases hc : c.inputs.isEmpty <;>
      simp [numbered, count, hc, ih, Nat.add_assoc, Nat.add_comm 1]

/-- The numbers of a call come after those that were there, one after the other. -/
theorem numbered_within (n : Nat) (cs : List Clobber) :
    Site.Within n (n + count cs) (numbered n cs) := by
  intro p hp hfree
  induction cs generalizing n with
  | nil => cases hp
  | cons c cs ih =>
    have hcount : count (c :: cs) = count cs + if c.inputs.isEmpty then 1 else 0 :=
      List.countP_cons
    rw [numbered, List.mem_cons] at hp
    rcases hp with rfl | hp
    · have hfree : c.inputs = [] := hfree
      simp only [hfree, List.isEmpty_nil, if_true] at hcount ⊢
      omega
    · obtain ⟨hlt, hle⟩ := ih _ hp
      cases hc : c.inputs.isEmpty <;> simp only [hc, if_true, if_false, Bool.false_eq_true] at * <;>
        omega

end Clobber

/-! ## §3 Pairs -/

/-- The pair of terms by which a clobbered variable is replaced: its constant, and a constant or a
function of the call. -/
inductive Clobber.Pair (e : Environment) : Clobber × Nat → Term × Term → Prop where
  /-- Any value. -/
  | value {c : Clobber} {n w : Nat} {old : Term} (hold : e.Gives c.var old)
      (hw : Term.fieldWidth c.width = .ok w) (hfree : c.inputs = [])
      (hmem : e.freshSymbol c.stem n ∈ e.symbols) :
      Pair e (c, n) (old, .const (e.freshSymbol c.stem n) (.bits w))
  /-- A function of the inputs. -/
  | function {c : Clobber} {n w : Nat} {old : Term} {args : List Term} (hold : e.Gives c.var old)
      (hw : Term.fieldWidth c.width = .ok w) (hne : c.inputs ≠ [])
      (hargs : List.Forall₂ e.Gives c.inputs args) :
      Pair e (c, n) (old, .app (.apply (.ofText c.stem) (args.map Term.sort) w) args)

/-- The constants of some variables have their values, and the sorts of these. -/
theorem Environment.looks_eq (hs : e.Sound) {vs : List Var} (h : List.Forall₂ e.Gives vs ts)
    (s : State) : ts.map (Term.eval s) = vs.map (e.look s) ∧
      ts.map Term.sort = (vs.map (e.look s)).map Value.sort := by
  induction h with
  | nil => exact ⟨rfl, rfl⟩
  | @cons v t vs ts hv _ ih =>
    obtain ⟨name, srt, rfl, howns⟩ := hv.const hs
    have hsort := Term.Proper.sort_eval (P := e.Owns) ⟨.const name srt, .const howns⟩ s
    simp only [List.map_cons, hv.look_eq s, hsort, ih.1, ih.2, and_self]

namespace Clobber.Pair

variable {e' : Environment} {p : Clobber × Nat} {q : Term × Term} {site : Site}
  {pairs : Replacement}

theorem grows (h : Pair e p q) (hg : e.Grows e') : Pair e' p q := by
  have hsymbol : ∀ stem n, e'.freshSymbol stem n = e.freshSymbol stem n := fun stem n => by
    rw [Environment.freshSymbol, Environment.freshSymbol, Environment.suffix, Environment.suffix,
      hg.freshened]
  cases h with
  | @value c n w old hold hw hfree hmem =>
    have hmem' : e'.freshSymbol c.stem n ∈ e'.symbols := by
      rw [hsymbol]
      exact hg.symbols hmem
    have hpair := Pair.value (hold.grows hg) hw hfree hmem'
    rwa [hsymbol] at hpair
  | function hold hw hne hargs =>
    exact .function (hold.grows hg) hw hne (hargs.imp fun _ _ ht => ht.grows hg)

theorem gives (h : Pair e p q) : e.Gives p.1.var q.1 := by
  cases h with
  | value hold | function hold => exact hold

theorem isLocal (h : Pair e p q) : p.1.Local e := by
  refine ⟨⟨_, h.gives⟩, fun v hv => ?_⟩
  cases h with
  | value _ _ hfree => simp [hfree] at hv
  | function _ _ _ hargs =>
    obtain ⟨t, -, ht⟩ := (mem_of_forall₂ hargs).1 v hv
    exact ⟨t, ht⟩

theorem wellSorted (hs : e.Sound) (h : Pair e p q) : q.2.WellSorted := by
  cases h with
  | value => exact .const _ _
  | @function c n w _ args _ _ _ hargs =>
    have hsort : (Op.apply (Symbol.ofText c.stem) (args.map Term.sort) w).sort?
        (args.map Term.sort) = some (.bits w) := by
      simp [Op.sort?]
    refine .app (fun t ht => ?_) hsort
    obtain ⟨v, -, hv⟩ := (mem_of_forall₂ hargs).2 t ht
    obtain ⟨name, srt, rfl, -⟩ := hv.const hs
    exact .const name srt

/-- The new term has the value that the call writes, as long as the answers are still there and its
constant belongs to no variable. -/
theorem eval_eq (hs : e.Sound) (hfair : e.Fair a s) (h : Pair e p q)
    (hnew : ∀ w, ¬e.Owns (e.freshSymbol p.1.stem p.2) (.bits w)) :
    q.2.eval s = p.1.value e a s p.2 := by
  cases h with
  | @value c n w _ _ hw hfree hmem =>
    simp only [Clobber.value, hw, hfree]
    exact (hfair.const _ hmem w (hnew w)).symm
  | @function c n w _ args _ hw hne hargs =>
    have hempty : c.inputs.isEmpty = false := by simpa using hne
    obtain ⟨hvalues, hsorts⟩ := Environment.looks_eq hs hargs s
    rw [Term.eval_app, hvalues, hsorts, Op.eval, Clobber.value]
    simp only [hw, hempty, hfair.apply]
    rfl

end Clobber.Pair

theorem State.replaced_cons (s : State) (name : Symbol) (srt : Srt) (t : Term) (σ : Replacement) :
    s.replaced ((.const name srt, t) :: σ) = (s.replaced σ).set name srt (t.eval s) := by
  have hfind : ∀ n r, Replacement.find? ((.const name srt, t) :: σ) (.const n r) =
      if n = name ∧ srt = r then some t else σ.find? (.const n r) := fun n r => by
    simp only [Replacement.find?_cons, Term.const.injEq, eq_comm (a := name)]
  simp only [replaced, hfind, set, mk.injEq, and_true]
  refine ⟨?_, ?_, ?_⟩ <;> funext n <;> try funext w
  all_goals split <;> rfl

section Site

variable {site : Site} {pairs : Replacement} (hs : e.Sound)
  (hpairs : List.Forall₂ (Clobber.Pair e) site pairs)
include hpairs

theorem Site.isLocal_of_pairs : Site.Local e site := fun p hp => by
  obtain ⟨q, -, hq⟩ := (mem_of_forall₂ hpairs).1 p hp
  exact hq.isLocal

include hs

theorem Replacement.replaces_of_pairs : Replacement.Replaces pairs := by
  intro q hq
  obtain ⟨p, -, hp⟩ := (mem_of_forall₂ hpairs).2 q hq
  obtain ⟨name, srt, hold, howns⟩ := hp.gives.const hs
  refine ⟨⟨name, srt, hold⟩, fun hcut => ?_, hp.wellSorted hs⟩
  rw [hold, Term.loopCut] at hcut
  exact hs.owns_ne_bool howns (Term.const.inj hcut).2

variable (hnew : site.IsNew e)
include hnew

/-- **Substitution is the call**: replacing the pairs of a site is answering the call. -/
theorem State.replaced_eq_answered (hfair : e.Fair a s) :
    s.replaced pairs = e.answered a s site := by
  unfold Environment.answered
  induction hpairs with
  | nil => rfl
  | @cons p q site pairs hp _ ih =>
    obtain ⟨old, new⟩ := q
    obtain ⟨hnew1, hnew⟩ := List.forall_mem_cons.mp hnew
    obtain ⟨name, srt, hold, howns⟩ := hp.gives.const hs
    have hgives : e.Gives p.1.var (.const name srt) := hold ▸ hp.gives
    obtain rfl : old = .const name srt := hold
    rw [State.replaced_cons, ih hnew, hp.eval_eq hs hfair hnew1, List.map_cons,
      Environment.assignAll, Environment.assignAll, List.foldr_cons, hgives.assign_eq]

/-- A substitution of the pairs of a site leads to its body, in the state after the call. -/
theorem Constraint.leads_subst (hfair : e.Fair a s) (i : Nat) (body : Constraint) :
    (Constraint.subst i body pairs).Leads s body (e.answered a s site) := by
  refine ⟨mem_subtrees_of_child (mem_subtrees_self _) (by simp [children]), fun hsort b => ?_⟩
  have hwrites := (Replacement.replaces_of_pairs hs hpairs).writes (sorted_subst.mp hsort).1
  -- the call does not see how cut paths count
  have hfair' : e.Fair a (s.cutAs b) := hfair.set (.inl rfl) _
  have hcut : (s.cutAs b).replaced pairs = (e.answered a s site).cutAs b := by
    rw [State.replaced_eq_answered hs hpairs hnew hfair']
    exact (Site.isLocal_of_pairs hpairs).answered_frame hs (hs.frame_cutAs b)
  rw [holds_subst_of_writes hwrites, hcut, Holds, Holds,
    State.cutAs_of_flag (State.flag_cutAs _ b)]

end Site

/-! ## §4 Builders -/

/-- A builder makes the pairs of some clobbered variables, with the numbers that come next. -/
structure Session.Writes (σ : Session) (cs : List Clobber) (pairs : Replacement) (σ' : Session) :
    Prop where
  step : σ.Step σ'
  names : σ'.supply.names = σ.supply.names + Clobber.count cs
  pairs : List.Forall₂ (Clobber.Pair σ'.env) (Clobber.numbered σ.supply.names cs) pairs

namespace Session.Writes

variable {σ σ1 σ2 : Session} {cs ds : List Clobber} {ps qs : Replacement}

theorem nil (h : σ.Step σ1) (hnames : σ1.supply = σ.supply) : σ.Writes [] [] σ1 :=
  ⟨h, by rw [hnames]; rfl, .nil⟩

theorem append (h : σ.Writes cs ps σ1) (h' : σ1.Writes ds qs σ2) :
    σ.Writes (cs ++ ds) (ps ++ qs) σ2 where
  step := h.step.trans h'.step
  names := by rw [h'.names, h.names, Clobber.count, Clobber.count, Clobber.count,
    List.countP_append, Nat.add_assoc]
  pairs := by
    rw [Clobber.numbered_append, ← h.names]
    exact List.rel_append (h.pairs.imp fun _ _ hp => hp.grows h'.step.env) h'.pairs

end Session.Writes

namespace Environment

variable {e' : Environment}

theorem Grows.inputVars_eq (h : e.Grows e') : e'.inputVars = e.inputVars := by
  simp only [inputVars, h.regVar, h.arch, h.useInputs]

theorem regVar_of_width? {w : Int} (h : e.arch.width? r = some w) :
    e.regVar r = .ok { name := .str r, width := .int w } := by
  rw [regVar, Arch.width, h]
  rfl

theorem havocked_cons_some {w : Int} (h : e.arch.width? r = some w) :
    e.havocked callee (r :: registers) functional =
      ⟨{ name := .str r, width := .int w }, callee.name.inText ++ "_" ++ r, .int w,
        if functional.contains r then e.inputVars else []⟩ ::
          e.havocked callee registers functional := by
  rw [havocked, List.filterMap_cons, regVar_of_width? h]
  rfl

theorem havocked_cons_none (h : e.arch.width? r = none) :
    e.havocked callee (r :: registers) functional = e.havocked callee registers functional := by
  rw [havocked, List.filterMap_cons, regVar, Arch.width, h]
  rfl

theorem Grows.havocked_eq (h : e.Grows e') : e'.havocked = e.havocked := by
  funext callee registers functional
  simp only [havocked, h.regVar, h.inputVars_eq]

/-- What calls write does not change. -/
theorem Grows.clobbers_eq (h : e.Grows e') : e'.clobbers = e.clobbers := by
  funext callee s
  cases s <;> simp only [clobbers, returnNames, h.havocked_eq, h.arch, h.useInputs]

end Environment

namespace Build

variable {σ σ' : Session}

theorem ends_fresh_next (h : (fresh stem width).Ends σ t σ') :
    σ'.supply.names = σ.supply.names + 1 ∧
      σ'.env.freshSymbol stem (σ.supply.names + 1) ∈ σ'.env.symbols ∧
      ∃ w, Term.fieldWidth width = .ok w ∧
        t = .const (σ'.env.freshSymbol stem (σ.supply.names + 1)) (.bits w) := by
  simp only [fresh, freshBase, ends_bind, ends_get, ends_set, ends_name, ends_lift, ends_pure] at h
  obtain ⟨_, _, ⟨_, _, ⟨rfl, rfl⟩, _, _, rfl, rfl, rfl⟩, n, _, ⟨hn, rfl⟩, w, _, ⟨hw, rfl⟩, name, _,
    ⟨hname, rfl⟩, rfl, rfl⟩ := h
  have hsymbol := Environment.symbolOf_localName hn
  obtain rfl := Except.ok.inj (hname.symm.trans hsymbol)
  refine ⟨rfl, ?_, w, hw, rfl⟩
  exact List.mem_filterMap.mpr ⟨n, List.mem_cons_self .., by rw [hsymbol]; rfl⟩

/-- **Results of calls** are new constants, or functions of the inputs. -/
theorem ends_callResult {v : Var} {old : Term} (hold : σ.env.Gives v old)
    (hvars : List.Forall₂ σ.env.Gives vars inputs) (h : (callResult stem inputs width).Ends σ t σ')
    :
    σ.Writes [⟨v, stem, width, vars⟩] [(old, t)] σ' := by
  unfold callResult at h
  split at h
  · next hempty =>
    obtain rfl := List.isEmpty_iff.mp hempty
    obtain rfl := List.forall₂_nil_right_iff.mp hvars
    have hstep := (ends_fresh h).1
    obtain ⟨hnames, hmem, w, hw, rfl⟩ := ends_fresh_next h
    exact ⟨hstep, hnames, .cons (.value (hold.grows hstep.env) hw rfl hmem) .nil⟩
  · next hinputs =>
    simp only [ends_bind, ends_lift, ends_pure] at h
    obtain ⟨w, _, ⟨hw, rfl⟩, rfl, rfl⟩ := h
    have hne : vars ≠ [] := by
      rintro rfl
      rw [List.forall₂_nil_left_iff.mp hvars] at hinputs
      exact hinputs rfl
    have hempty : vars.isEmpty = false := by simpa using hne
    refine ⟨.refl σ, by simp [Clobber.count, hempty], ?_⟩
    exact .cons (.function hold hw hne hvars) .nil

/-- The constants of some variables, one after the other. -/
theorem ends_mapM_gives {α : Type} {f : α → Build Term} {g : α → Option Var} {as : List α}
    (hf : ∀ {a σ t σ'}, e.Grows σ.env → (f a).Ends σ t σ' →
      σ.Step σ' ∧ σ'.supply = σ.supply ∧ ∃ v, g a = some v ∧ σ'.env.Gives v t) (hσ : e.Grows σ.env)
    (h : (as.mapM f).Ends σ ts σ') :
    σ.Step σ' ∧ σ'.supply = σ.supply ∧ List.Forall₂ σ'.env.Gives (as.filterMap g) ts := by
  induction as generalizing σ ts with
  | nil =>
    obtain ⟨rfl, rfl⟩ := ends_mapM_nil.mp h
    exact ⟨.refl σ, rfl, .nil⟩
  | cons a as ih =>
    obtain ⟨t, σ1, ht, ts, hts, rfl⟩ := ends_mapM_cons.mp h
    obtain ⟨hstep1, hsup1, v, hv, hgives⟩ := hf hσ ht
    obtain ⟨hstep2, hsup2, hall⟩ := ih (hσ.trans hstep1.env) hts
    refine ⟨hstep1.trans hstep2, hsup2.trans hsup1, ?_⟩
    rw [List.filterMap_cons_some hv]
    exact .cons (hgives.grows hstep2.env) hall

/-- The constant of a register, as a variable of an earlier environment. -/
theorem ends_getRegister_of_grows (hσ : e.Grows σ.env) (h : (getRegister r).Ends σ t σ') :
    σ.Step σ' ∧ σ'.supply = σ.supply ∧ ∃ v, (e.regVar r).toOption = some v ∧ σ'.env.Gives v t := by
  obtain ⟨hstep, hsup, v, hv, hgives⟩ := ends_getRegister h
  rw [hσ.regVar] at hv
  exact ⟨hstep, hsup, v, by rw [hv]; rfl, hgives⟩

theorem ends_inputValues (h : inputValues.Ends σ ts σ') :
    σ.Step σ' ∧ σ'.supply = σ.supply ∧ List.Forall₂ σ'.env.Gives σ.env.inputVars ts := by
  simp only [inputValues, ends_bind, ends_env] at h
  obtain ⟨_, _, ⟨rfl, rfl⟩, h⟩ := h
  unfold Environment.inputVars
  split at h
  · next huse =>
    rw [if_pos huse]
    exact ends_mapM_gives ends_getRegister_of_grows (.refl _) h
  · next huse =>
    obtain ⟨rfl, rfl⟩ := ends_pure.mp h
    rw [if_neg huse]
    exact ⟨.refl σ, rfl, .nil⟩

/-- A substitution of pairs is a new node, unless there are none. -/
theorem ends_substitution_pairs {ν : Nat → Constraint} {body c : Constraint}
    (h : (substitution body (pairs.map (·.1)) (pairs.map (·.2))).Ends σ c σ')
    (hbody : σ.Lists ν body) :
    ∃ ν', Builds σ ν σ' ν' ∧ σ'.Lists ν' c ∧ σ'.supply.names = σ.supply.names ∧ σ'.env = σ.env ∧
      (pairs = [] ∧ c = body ∨ ∃ i, c = .subst i body pairs) := by
  have hzip : (pairs.map (·.1)).zip (pairs.map (·.2)) = pairs := by
    rw [List.zip_map', List.map_id']
  simp only [substitution, List.length_map, ne_eq, not_true_eq_false, if_false, hzip] at h
  split at h
  · next hempty =>
    obtain ⟨rfl, rfl⟩ := ends_pure.mp h
    exact ⟨ν, .refl _ _, hbody, rfl, rfl, .inl ⟨by simpa using hempty, rfl⟩⟩
  · simp only [ends_bind, ends_nodeId, ends_pure] at h
    obtain ⟨_, _, ⟨rfl, rfl⟩, rfl, rfl⟩ := h
    obtain ⟨hb, hl⟩ := Builds.new (σ := σ) (ν := ν) (c := .subst σ.supply.nodes body pairs) rfl
      (by simpa [Constraint.children] using hbody)
    exact ⟨_, hb, hl, rfl, rfl, .inr ⟨_, rfl⟩⟩

/-- What a summary makes of the condition after a call: it puts the pairs of the clobbered variables
around it. -/
def Clobbers (σ : Session) (ν : Nat → Constraint) (cs : List Clobber) (after c : Constraint)
    (σ' : Session) : Prop :=
  ∃ ν' pairs, Builds σ ν σ' ν' ∧ σ'.Lists ν' c ∧ σ.Writes cs pairs σ' ∧
    (pairs = [] ∧ c = after ∨ ∃ i, c = .subst i after pairs)

variable {ν : Nat → Constraint} {after c : Constraint}

/-- The pairs are made first, the substitution at last. -/
theorem Clobbers.of_writes {σ1 : Session} {cs : List Clobber} (hwrites : σ.Writes cs pairs σ1)
    (hafter : σ.Lists ν after)
    (h : (substitution after (pairs.map (·.1)) (pairs.map (·.2))).Ends σ1 c σ') :
    Clobbers σ ν cs after c σ' := by
  have hb1 : Builds σ ν σ1 ν := .of_step hwrites.step
  obtain ⟨ν', hb2, hl, hnames, henv, hcases⟩ := ends_substitution_pairs h (hb1.lists hafter)
  refine ⟨ν', pairs, hb1.trans hb2, hl, ⟨(hb1.trans hb2).step, hnames.trans hwrites.names, ?_⟩,
    hcases⟩
  rw [henv]
  exact hwrites.pairs

/-- The condition before the call leads to the one after it, once the call has been answered. -/
theorem Clobbers.leads {cs : List Clobber} (h : Clobbers σ ν cs after c σ') :
    ∃ ν', Builds σ ν σ' ν' ∧ σ'.Lists ν' c ∧
      σ'.supply.names = σ.supply.names + Clobber.count cs ∧
      ∀ e, σ'.env.Grows e → e.Sound →
        Site.Local e (Clobber.numbered σ.supply.names cs) ∧
        (Site.IsNew e (Clobber.numbered σ.supply.names cs) → ∀ a s, e.Fair a s →
          c.Leads s after (e.answered a s (Clobber.numbered σ.supply.names cs))) := by
  obtain ⟨ν', pairs, hb, hl, hwrites, hcases⟩ := h
  refine ⟨ν', hb, hl, hwrites.names, fun e hg hs => ?_⟩
  have hpairs := hwrites.pairs.imp fun _ _ hp => hp.grows hg
  refine ⟨Site.isLocal_of_pairs hpairs, fun hnew a s hfair => ?_⟩
  rcases hcases with ⟨rfl, rfl⟩ | ⟨i, rfl⟩
  · rw [List.forall₂_nil_right_iff.mp hpairs]
    exact .refl _ _
  · exact Constraint.leads_subst hs hpairs hnew hfair _ _

/-- The new value of a register: a function of the inputs if it is one of the functional ones. -/
theorem ends_registerResult {v : Var} {old : Term} {found : Option (Term × Term)}
    (hold : σ.env.Gives v old) (hvars : List.Forall₂ σ.env.Gives vars inputs)
    (h : (if functional.contains r then do
        let new ← callResult stem inputs width
        pure (some (old, new))
      else do
        let new ← fresh stem width
        pure (some (old, new)) : Build (Option (Term × Term))).Ends σ found σ') :
    ∃ t, found = some (old, t) ∧ σ.Writes
      [⟨v, stem, width, if functional.contains r then vars else []⟩] [(old, t)] σ' := by
  split at h
  · next hfun =>
    simp only [ends_bind, ends_pure] at h
    obtain ⟨t, _, ht, rfl, rfl⟩ := h
    rw [if_pos hfun]
    exact ⟨t, rfl, ends_callResult hold hvars ht⟩
  · next hfun =>
    simp only [ends_bind, ends_pure] at h
    obtain ⟨t, _, ht, rfl, rfl⟩ := h
    rw [if_neg hfun]
    exact ⟨t, rfl, ends_callResult hold .nil ht⟩

theorem ends_havoc (hafter : σ.Lists ν after)
    (h : (havoc after callee registers functional).Ends σ c σ') :
    Clobbers σ ν (σ.env.havocked callee registers functional) after c σ' := by
  simp only [havoc, ends_bind] at h
  obtain ⟨inputs, σ1, hinputs, pairs, σ2, hpairs, h⟩ := h
  obtain ⟨hstep1, hsup1, hgives⟩ := ends_inputValues hinputs
  -- the registers are treated in order, each with the numbers that the ones before it left
  have hwrites : σ1.Writes (σ.env.havocked callee registers functional) pairs σ2 := by
    have hgrows := hstep1.env
    clear h hsup1 hstep1 hinputs
    induction registers generalizing σ1 pairs with
    | nil =>
      rw [List.filterMapM_nil, ends_pure] at hpairs
      obtain ⟨rfl, rfl⟩ := hpairs
      exact .nil (.refl _) rfl
    | cons r registers ih =>
      rw [List.filterMapM_cons] at hpairs
      simp only [ends_bind, ends_env] at hpairs
      obtain ⟨found, τ, ⟨_, _, ⟨rfl, rfl⟩, hfound⟩, hrest⟩ := hpairs
      cases hw : σ1.env.arch.width? r with
      | none =>
        rw [hgrows.arch] at hw
        simp only [hgrows.arch, hw, ends_pure] at hfound
        obtain ⟨rfl, rfl⟩ := hfound
        rw [Environment.havocked_cons_none hw]
        exact ih _ _ hrest hgives hgrows
      | some w =>
        rw [hgrows.arch] at hw
        simp only [hgrows.arch, hw, ends_bind] at hfound
        obtain ⟨old, σ3, hold, hfound⟩ := hfound
        obtain ⟨hstep, hsup, v, hv, hvold⟩ := ends_getRegister hold
        rw [hgrows.regVar, Environment.regVar_of_width? hw] at hv
        obtain rfl := Except.ok.inj hv
        have hnil : σ1.Writes [] [] σ3 := .nil hstep hsup
        have hgives3 := hgives.imp fun _ _ ht => ht.grows hstep.env
        obtain ⟨t, rfl, hone⟩ := ends_registerResult hvold hgives3 hfound
        simp only [ends_bind, ends_pure] at hrest
        obtain ⟨rest, _, hrest, rfl, rfl⟩ := hrest
        have hgrows' := hgrows.trans (hstep.trans hone.step).env
        have hrest := ih _ _ hrest (hgives3.imp fun _ _ ht => ht.grows hone.step.env) hgrows'
        rw [Environment.havocked_cons_some hw]
        exact (hnil.append hone).append hrest
  exact .of_writes ((Session.Writes.nil hstep1 hsup1).append hwrites) hafter h

/-- Output arguments, one after the other. -/
theorem ends_outputs {args : List Arg} (hvars : List.Forall₂ σ.env.Gives vars inputs)
    (h : (args.mapM fun a => do
      let old ← getVar a.var
      let new ← callResult (callee.name.inText ++ "_" ++ a.var.name.inText) inputs a.var.width
      return (old, new) : Build (List (Term × Term))).Ends σ pairs σ') : σ.Writes (args.map fun a =>
      ⟨a.var, callee.name.inText ++ "_" ++ a.var.name.inText, a.var.width, vars⟩) pairs σ' := by
  induction args generalizing σ pairs with
  | nil =>
    obtain ⟨rfl, rfl⟩ := ends_mapM_nil.mp h
    exact .nil (.refl _) rfl
  | cons a args ih =>
    obtain ⟨p, τ, hp, ps, hps, rfl⟩ := ends_mapM_cons.mp h
    simp only [ends_bind, ends_pure] at hp
    obtain ⟨old, σ1, hold, t, _, ht, rfl, rfl⟩ := hp
    obtain ⟨hstep, hsup, hgives⟩ := ends_getVar hold
    have hone := ends_callResult hgives (hvars.imp fun _ _ hv => hv.grows hstep.env) ht
    have hrest := ih (hvars.imp fun _ _ hv => hv.grows (hstep.trans hone.step).env) hps
    exact ((Session.Writes.nil hstep hsup).append hone).append hrest

theorem ends_argumentTerms (hafter : σ.Lists ν after) (h : (argumentTerms after callee).Ends σ c σ')
    :
    Clobbers σ ν (σ.env.clobbers callee .arguments) after c σ' := by
  simp only [argumentTerms, ends_bind, ends_env] at h
  obtain ⟨ts, σ1, hts, _, _, ⟨rfl, rfl⟩, pairs, σ2, hpairs, h⟩ := h
  obtain ⟨hstep1, hsup1, hall⟩ := ends_mapM_gives (e := σ.env) (g := some ∘ Arg.var)
    (fun _ ha => ⟨(ends_getVar ha).1, (ends_getVar ha).2.1, _, rfl, (ends_getVar ha).2.2⟩)
    (.refl _) hts
  rw [List.filterMap_eq_map] at hall
  -- without the use of inputs all results are unknown
  have hgives : List.Forall₂ σ1.env.Gives
      (if σ.env.useInputs then (callee.args.filter isInput).map Arg.var else [])
      (if σ1.env.useInputs then ts else []) := by
    rw [hstep1.env.useInputs]
    split
    · exact hall
    · exact .nil
  exact .of_writes ((Session.Writes.nil hstep1 hsup1).append (ends_outputs hgives hpairs)) hafter h

/-- **What summaries make**: a plain summary puts the pairs of the variables that the call writes
around the condition after it. -/
theorem ends_summarize {walk : Constraint → Sub → Build Constraint} {tid : Json} {s : Summary}
    (hs : s.isPlain = true) (hafter : σ.Lists ν after)
    (h : (summarize walk after callee tid s).Ends σ c σ') :
    Clobbers σ ν (σ.env.clobbers callee s) after c σ' := by
  cases s with
  | error | assume | inline => cases hs
  | instrumentation => exact ends_havoc hafter h
  | arguments => exact ends_argumentTerms hafter h
  | empty =>
    obtain ⟨rfl, rfl⟩ := ends_pure.mp h
    exact ⟨ν, [], .refl _ _, hafter, .nil (.refl _) rfl, .inl ⟨rfl, rfl⟩⟩
  | nondet | clobber | result =>
    simp only [summarize, returnRegisters, bind_assoc, pure_bind, ends_bind, ends_env] at h
    obtain ⟨_, _, ⟨rfl, rfl⟩, h⟩ := h
    first
    | exact ends_havoc hafter h
    | obtain ⟨_, _, ⟨rfl, rfl⟩, h⟩ := h
      exact ends_havoc hafter h

end Build

/-! ## §5 Calls -/

namespace Environment

variable {e' : Environment}

theorem subNamed_name (e : Environment) (name : String) : (e.subNamed name).name = .str name := by
  unfold subNamed
  cases h : e.findSub? name with
  | none => rfl
  | some callee => exact name_eq_of_findSub? h

/-- Two environments have the same functions, with the same summaries. -/
structure Resembles (e e' : Environment) : Prop where
  arch : e'.arch = e.arch
  logic : e'.logic = e.logic
  subs : e'.subs = e.subs
  unroll : e'.unroll = e.unroll
  summaries : e'.summaries = e.summaries
  depth : ∀ name : String, e'.depth name = e.depth name

namespace Resembles

variable (h : e.Resembles e')
include h

theorem subNamed_eq : e'.subNamed = e.subNamed := by
  funext name
  rw [subNamed, subNamed, findSub?, findSub?, h.subs]

/-- Whether a summary covers a function does not change. -/
theorem covers_eq {name : String} (hname : callee.name = .str name) (s : Summary) :
    s.covers e' callee = s.covers e callee := by
  cases s with
  | inline names =>
    have hlabel : callee.name.label = .ok (.text name) := by rw [hname]; rfl
    simp only [Summary.covers, hlabel, h.unroll, bind, Except.bind, h.depth name]
  | error | assume | nondet | instrumentation | empty | arguments | clobber | result =>
    simp only [Summary.covers, h.arch]

/-- **Functions keep their summaries.** -/
theorem resolve_eq (name : String) :
    e'.resolve (e'.subNamed name) = e.resolve (e.subNamed name) := by
  rw [h.subNamed_eq, resolve, resolve, h.summaries]
  induction e.summaries with
  | nil => simp only [firstCovering, h.summaries]
  | cons s ss ih => simp only [firstCovering, h.covers_eq (e.subNamed_name name), ih]

theorem answers (hj : e.Answers j) : e'.Answers j := by
  obtain ⟨name, htarget, hname, hplain⟩ := hj
  exact ⟨name, htarget, hname, fun s hs => hplain s (h.resolve_eq name ▸ hs)⟩

theorem answersAll {sub : Sub} (hsub : e.AnswersAll sub) : e'.AnswersAll sub :=
  fun b hb j hj hkind => h.answers (hsub b hb j hj hkind)

theorem symm : e'.Resembles e :=
  ⟨h.arch.symm, h.logic.symm, h.subs.symm, h.unroll.symm, h.summaries.symm,
    fun name => (h.depth name).symm⟩

theorem trans {e'' : Environment} (h' : e'.Resembles e'') : e.Resembles e'' :=
  ⟨h'.arch.trans h.arch, h'.logic.trans h.logic, h'.subs.trans h.subs, h'.unroll.trans h.unroll,
    h'.summaries.trans h.summaries, fun name => (h'.depth name).trans (h.depth name)⟩

theorem setDepth (l : Label) (n : Nat) : (e.setDepth l n).Resembles (e'.setDepth l n) :=
  ⟨h.arch, h.logic, h.subs, h.unroll, h.summaries,
    fun name => by rw [depth_setDepth, depth_setDepth, h.depth]⟩

end Resembles

end Environment

namespace Session.Step

variable {σ σ' : Session}

theorem resembles (h : σ.Step σ') : σ.env.Resembles σ'.env :=
  ⟨h.env.arch, h.env.logic, h.env.subs, h.env.unroll, h.summaries, h.depth⟩

theorem resembles_both (h : σ.Step σ') {τ τ' : Session} (h' : τ.Step τ')
    (hres : σ.env.Resembles τ.env) : σ'.env.Resembles τ'.env :=
  h.resembles.symm.trans (hres.trans h'.resembles)

theorem hasSite (h : σ.Step σ') {own : Site} (hj : j.HasSite σ.env own) : j.HasSite σ'.env own := by
  obtain ⟨hkind, name, s, n, hname, hs, rfl⟩ := hj
  exact ⟨hkind, name, s, n, hname, (h.resembles.resolve_eq name).trans hs,
    by rw [h.env.clobbers_eq, h.resembles.subNamed_eq]⟩

end Session.Step

theorem Environment.Answers.callee_eq (h : e.Answers j) :
    ∃ name, j.target = .str name ∧ j.callee = .ok name ∧
      ∀ s, e.resolve (e.subNamed name) = .ok s → s.isPlain = true := by
  obtain ⟨name, htarget, hname, hplain⟩ := h
  exact ⟨name, htarget, by simp [Jmp.callee, htarget, Json.truthy, hname], hplain⟩

/-- A mark leads to its body, in the marked state. -/
theorem Constraint.leads_mark (e : Environment) (name : String) (i : Nat) (body : Constraint)
    (s : State) : (Constraint.subst i body [(.const (e.flagSymbol name) .bool, .lit true)]).Leads s
      body (s.mark (e.flagSymbol name)) := by
  refine ⟨mem_subtrees_of_child (mem_subtrees_self _) (by simp [children]), fun _ b => ?_⟩
  rw [holds_subst (.inl (e.flagSymbol_ne_cut name)) (.lit true) (by simp [Value.Fits]),
    Term.eval_lit, State.mark]

/-- **Calls**: the condition before a call leads to the condition after it, in the state in which
the call comes back. -/
theorem Walker.ends_call {w : Walker} {σ σ' : Session} {ν : Nat → Constraint} {after c : Constraint}
    (hkind : j.kind = .call) (hf : σ.env.Flagged) (hj : σ.env.Answers j) (hafter : σ.Lists ν after)
    (h : (w.call j after).Ends σ c σ') :
    ∃ ν' name own, Builds σ ν σ' ν' ∧ σ'.Lists ν' c ∧ j.callee = .ok name ∧
      j.HasSite σ'.env own ∧ own.Within σ.supply.names σ'.supply.names ∧
      ∀ e, σ'.env.Grows e → e.Sound → own.Local e ∧ (own.IsNew e → ∀ a s, e.Fair a s →
        c.Leads s after ((e.answered a s own).mark (e.flagSymbol name))) := by
  obtain ⟨name, -, hname, hplain⟩ := hj.callee_eq
  simp only [call, hname, ends_bind, ends_lift, Build.ends_env] at h
  obtain ⟨_, _, ⟨hok, rfl⟩, flag, σ1, hflag, marked, σ2, hmarked, _, _, ⟨rfl, rfl⟩, s, _,
    ⟨hs, rfl⟩, h⟩ := h
  obtain rfl := Except.ok.inj hok
  have hs : σ2.env.resolve (σ2.env.subNamed name) = .ok s := hs
  -- the mark is the inner substitution, the summary puts its own around it
  have hmarked : (Build.substitution after ([(flag, Term.lit true)].map (·.1))
      ([(flag, Term.lit true)].map (·.2))).Ends σ1 marked σ2 := hmarked
  obtain ⟨hstep1, hsup1, rfl⟩ := Build.ends_callFlag hflag hf
  have hb1 : Builds σ ν σ1 ν := .of_step hstep1
  obtain ⟨ν2, hb2, hl2, hnames2, -, ⟨hnil, -⟩ | ⟨i, rfl⟩⟩ :=
    Build.ends_substitution_pairs hmarked (hb1.lists hafter)
  · cases hnil
  have hb := hb1.trans hb2
  have hplain := hplain s ((hb.step.resembles.resolve_eq name).symm.trans hs)
  obtain ⟨ν', hb', hl', hnames', hleads⟩ := (Build.ends_summarize hplain hl2 h).leads
  have hnames : σ2.supply.names = σ.supply.names := by rw [hnames2, hsup1]
  refine ⟨ν', name, _, hb.trans hb', hl', hname,
    hb'.step.hasSite ⟨hkind, name, s, σ2.supply.names, hname, hs, rfl⟩, ?_, fun e hg hse => ?_⟩
  · rw [← hnames, hnames']
    exact Clobber.numbered_within _ _
  · obtain ⟨hlocal, hleads⟩ := hleads e hg hse
    refine ⟨hlocal, fun hnew a s hfair => (hleads hnew a s hfair).trans ?_⟩
    rw [((hb.trans hb').step.env.trans hg).flagSymbol_eq]
    exact Constraint.leads_mark ..

end Antecedent
