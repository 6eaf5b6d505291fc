import Antecedent.Proofs.Exactness
import Antecedent.Proofs.Unknowns

/-!
# What walks foretell about runs with summarised calls

A walk treats every key once, and makes new constants for the calls of its block then.  So there is
a table that says for every call of every key which constants belong to it, and no two calls share
one.  With calls answered from this table, the condition of a key foretells how runs from it end.

* `Walker.Tabulates` is the invariant of the walk: there is a table for the keys treated so far, and
  their conditions predict the endings of all runs.
* `Build.ends_precondition_of_answers` is the result.
-/

namespace Antecedent

variable {σ σ' : Session} {js : List Jmp} {j : Jmp} {e : Environment} {c : Constraint} {first : Nat}
  {sub : Sub}

/-! ## §1 Numbered tables -/

namespace Site

variable {own own' : Site} {n n' m m' l : Nat}

/-- Two sites share no number. -/
def Apart (own own' : Site) : Prop :=
  ∀ p ∈ own, ∀ q ∈ own', p.1.inputs = [] → q.1.inputs = [] → p.2 ≠ q.2

theorem Within.mono (h : own.Within n m) (hn : n' ≤ n) (hm : m ≤ m') : own.Within n' m' :=
  fun p hp hfree => ⟨hn.trans_lt (h p hp hfree).1, (h p hp hfree).2.trans hm⟩

theorem Within.apart (h : own.Within n m) (h' : own'.Within m l) : own.Apart own' := by
  intro p hp q hq hfree hfree'
  have hle := (h p hp hfree).2
  have hlt := (h' q hq hfree').1
  omega

theorem Apart.symm (h : own.Apart own') : own'.Apart own :=
  fun p hp q hq hfree hfree' heq => h q hq p hp hfree' hfree heq.symm

end Site

/-- The sites of a table have numbers between two others, and no two of them share one. -/
structure Numbered {ι : Type} (n m : Nat) (t : ι → Option Site) : Prop where
  within : ∀ i own, t i = some own → own.Within n m
  apart : ∀ i i' own own', t i = some own → t i' = some own' → i ≠ i' → own.Apart own'

namespace Numbered

variable {ι ι1 ι2 : Type} {n m l : Nat} {t : ι → Option Site} {t1 : ι1 → Option Site}
  {t2 : ι2 → Option Site}

/-- A table without sites. -/
theorem none (n m : Nat) : Numbered n m fun _ : ι => Option.none :=
  ⟨nofun, nofun⟩

theorem single {own : Option Site} (h : ∀ o ∈ own, o.Within n m) :
    Numbered n m fun _ : Unit => own :=
  ⟨fun _ o ho => h o ho, fun _ _ _ _ _ _ hne => absurd rfl hne⟩

theorem mono (h : Numbered n m t) (hm : m ≤ l) : Numbered n l t :=
  ⟨fun i own hown => (h.within i own hown).mono le_rfl hm, h.apart⟩

/-- A table whose sites are those of two tables, one numbered after the other. -/
theorem glue (h1 : Numbered n m t1) (h2 : Numbered m l t2) (hn : n ≤ m) (hl : m ≤ l)
    {g : ι → ι1 ⊕ ι2} (hg : Function.Injective g) (ht : ∀ i, t i = Sum.elim t1 t2 (g i)) :
    Numbered n l t := by
  -- each part is apart by itself, and the second has higher numbers than the first
  have hfirst : ∀ i own, t1 i = some own → own.Within n m := h1.within
  have hlater : ∀ i own, t2 i = some own → own.Within m l := h2.within
  refine ⟨fun i own hown => ?_, fun i i' own own' hown hown' hne => ?_⟩
  · rw [ht] at hown
    cases hi : g i with
    | inl k =>
      rw [hi] at hown
      exact (hfirst k own hown).mono le_rfl hl
    | inr k =>
      rw [hi] at hown
      exact (hlater k own hown).mono hn le_rfl
  · rw [ht] at hown hown'
    have hne : g i ≠ g i' := fun h => hne (hg h)
    cases hi : g i with
    | inl k =>
      cases hi' : g i' with
      | inl k' =>
        rw [hi] at hown hne
        rw [hi'] at hown' hne
        exact h1.apart k k' own own' hown hown' fun h => hne (h ▸ rfl)
      | inr k' =>
        rw [hi] at hown
        rw [hi'] at hown'
        exact (hfirst k own hown).apart (hlater k' own' hown')
    | inr k =>
      cases hi' : g i' with
      | inl k' =>
        rw [hi] at hown
        rw [hi'] at hown'
        exact ((hfirst k' own' hown').apart (hlater k own hown)).symm
      | inr k' =>
        rw [hi] at hown hne
        rw [hi'] at hown' hne
        exact h2.apart k k' own own' hown hown' fun h => hne (h ▸ rfl)

end Numbered

/-- The sites of the jumps of a block, by their places. -/
abbrev Row := Nat → Option Site

namespace Row

/-- The row of a jump and those after it. -/
def cons (own : Option Site) (row : Row) : Row
  | 0 => own
  | i + 1 => row i

/-- The sites of a row belong to the jumps at their places. -/
def Fits (e : Environment) (js : List Jmp) (row : Row) : Prop :=
  ∀ i own, row i = some own → ∃ j, js[i]? = some j ∧ j.HasSite e own

def IsNew (e : Environment) (row : Row) : Prop :=
  ∀ i own, row i = some own → own.IsNew e

variable {own : Option Site} {row : Row} {n m l : Nat}

/-- The jump that is treated last has the highest numbers. -/
theorem numbered_cons (h : Numbered n m row) (hown : ∀ o ∈ own, o.Within m l) (hn : n ≤ m)
    (hl : m ≤ l) : Numbered n l (row.cons own) := by
  refine h.glue (.single hown) hn hl (g := fun i => if i = 0 then .inr () else .inl (i - 1)) ?_ ?_
  · intro i i' heq
    dsimp only at heq
    split at heq <;> split at heq
    · omega
    · cases heq
    · cases heq
    · have heq := Sum.inl.inj heq
      omega
  · intro i
    cases i with
    | zero => rfl
    | succ i => rfl

theorem Fits.step (h : row.Fits σ.env js) (hstep : σ.Step σ') : row.Fits σ'.env js := by
  intro i o ho
  obtain ⟨j, hj, hsite⟩ := h i o ho
  exact ⟨j, hj, hstep.hasSite hsite⟩

theorem Fits.cons (h : row.Fits σ.env js) (hstep : σ.Step σ') (hown : ∀ o ∈ own, j.HasSite σ'.env o)
    :
    Fits σ'.env (j :: js) (row.cons own) := by
  intro i o ho
  cases i with
  | zero => exact ⟨j, rfl, hown o ho⟩
  | succ i => exact h.step hstep i o ho

end Row

/-! ## §2 Jumps -/

/-- Without conditions on accesses, a jump is taken if its condition holds. -/
theorem Jmp.choose_cons (he : e.hooks = []) (s : State) (j : Jmp) (js : List Jmp) :
    choose e s (j :: js) =
      if (j.cond.value (e.look s)).toNat ≠ 0 then .ok (some j) else choose e s js := by
  rw [choose, Environment.objection?_eq_none he]

theorem Jmp.place_cons (e : Environment) (s : State) (j : Jmp) (js : List Jmp) :
    place e s (j :: js) =
      if (j.cond.value (e.look s)).toNat ≠ 0 then 0 else place e s js + 1 := by
  simp [place, List.findIdx_cons, cond_eq_ite]

/-- Without conditions on accesses, a guarded condition leads to the condition itself. -/
theorem Build.leads_guarded {ν : Nat → Constraint} {g : Constraint} {accesses : List Access}
    (h : (guarded c accesses).Ends σ g σ') (hhooks : σ.env.hooks = []) (hc : σ.Lists ν c) :
    ∃ ν', Builds σ ν σ' ν' ∧ σ'.Lists ν' g ∧ ∀ e, σ'.env.Grows e → e.Sound →
      (∀ a ∈ accesses, a.addr.Proper e.Owns) → ∀ s, g.Leads s c s := by
  obtain ⟨ν', hb, hl, -, hguard⟩ := ends_guarded h (by simp [hhooks]) hc
  refine ⟨ν', hb, hl, fun e hg hs haddr s => ?_⟩
  have hguard := hguard e hg hs haddr s
  rwa [Environment.objection?_eq_none ((hb.step.env.trans hg).hooks.trans hhooks)] at hguard

namespace Walker

variable {w : Walker} {m m' : Memo} {ν : Nat → Constraint} {counts : Counts}

/-- A condition leads to the condition where a jump goes, with its call answered. -/
def Hops (w : Walker) (m : Memo) (counts : Counts) (e : Environment) (j : Jmp) (own : Option Site)
    (c : Constraint) (a s : State) : Prop :=
  ∃ s' names t d, j.hop? e a s own = some (s', names, t) ∧ w.at? m counts t = some d ∧
    (e.Fair a s → c.Leads s d s')

theorem Hops.trans {own : Option Site} {d : Constraint} {a s : State}
    (h : w.Hops m counts e j own d a s) (hc : c.Leads s d s) : w.Hops m counts e j own c a s := by
  obtain ⟨s', names, t, k, hhop, hat, hleads⟩ := h
  exact ⟨s', names, t, k, hhop, hat, fun hfair => hc.trans (hleads hfair)⟩

/-- **Destinations** lead to the condition where control goes, after the call has been answered. -/
theorem ends_destination (h : (w.destination j counts).Ends m σ c m' σ') (hf : σ.env.Flagged)
    (hj : j.kind = .call → σ.env.Answers j) (hat : ∀ t d, w.at? m counts t = some d → σ.Lists ν d) :
    m' = m ∧ ∃ ν' own, Builds σ ν σ' ν' ∧ σ'.Lists ν' c ∧
      (∀ o ∈ own, j.HasSite σ'.env o ∧ o.Within σ.supply.names σ'.supply.names) ∧
      ∀ e, σ'.env.Grows e → e.Sound → (∀ o ∈ own, o.IsNew e) →
        (∀ o ∈ own, o.Local e) ∧ ∀ a s, w.Hops m counts e j own c a s := by
  rcases destination_cases h with ⟨rfl, rfl, t, hgoal, hd⟩ |
    ⟨rfl, hkind, t, after, hreturn, hd, hcall⟩
  · have hkind : j.kind ≠ .call := fun hkind => by simp [Jmp.goal?, hkind] at hgoal
    refine ⟨rfl, ν, none, .refl _ _, hat t c hd, by simp, fun e _ _ _ => ⟨by simp, fun a s => ?_⟩⟩
    exact ⟨s, [], t, c, Jmp.hop?_goes hkind hgoal, hd, fun _ => .refl c s⟩
  · obtain ⟨ν', name, own, hb, hl, hname, hsite, hwithin, hleads⟩ :=
      ends_call hkind hf (hj hkind) (hat t after hd) hcall
    refine ⟨rfl, ν', some own, hb, hl, ?_, fun e hg hs hnew => ?_⟩
    · rintro _ ⟨⟩
      exact ⟨hsite, hwithin⟩
    · obtain ⟨hlocal, hleads⟩ := hleads e hg hs
      refine ⟨by rintro _ ⟨⟩; exact hlocal, fun a s => ?_⟩
      exact ⟨_, _, t, after, Jmp.hop?_call hkind hname hreturn, hd, hleads (hnew own rfl) a s⟩

/-- **Jumps** lead to where control goes if they are taken, and to the condition after them if
not. -/
theorem ends_jump_of_answers {otherwise : Constraint}
    (h : (w.jump counts j otherwise).Ends m σ c m' σ') (hhooks : σ.env.hooks = [])
    (hf : σ.env.Flagged) (hj : j.kind = .call → σ.env.Answers j) (hknown : j.cond.isKnown = true)
    (hother : σ.Lists ν otherwise) (hat : ∀ t d, w.at? m counts t = some d → σ.Lists ν d) :
    m' = m ∧ (j.cond.isAlways = true → ∀ look, (j.cond.value look).toNat ≠ 0) ∧
      ∃ ν' own, Builds σ ν σ' ν' ∧ σ'.Lists ν' c ∧
        (∀ o ∈ own, j.HasSite σ'.env o ∧ o.Within σ.supply.names σ'.supply.names) ∧
        ∀ e, σ'.env.Grows e → e.Sound → (∀ o ∈ own, o.IsNew e) →
          j.cond.Local e ∧ (∀ o ∈ own, o.Local e) ∧ ∀ s,
            ((j.cond.value (e.look s)).toNat ≠ 0 → ∀ a, w.Hops m counts e j own c a s) ∧
            ((j.cond.value (e.look s)).toNat = 0 → c.Leads s otherwise s) := by
  simp only [jump, Walking.ends_bind, Walking.ends_lift] at h
  obtain ⟨⟨cond, accesses⟩, _, τ, ⟨hcond, rfl⟩, h⟩ := h
  obtain ⟨hstep, hsup, hdec⟩ := Expr.ends_condition hcond hknown
  have hb1 : Builds σ ν τ ν := .of_step hstep
  have hhooks1 : τ.env.hooks = [] := hstep.env.hooks.trans hhooks
  simp only at h
  split at h
  · next hfalse =>
    -- the jump is never taken, so its call is not even made
    obtain ⟨hguard, rfl⟩ := Walking.ends_lift.mp h
    obtain ⟨ν2, hb2, hl2, hleads⟩ := Build.leads_guarded hguard hhooks1 (hb1.lists hother)
    refine ⟨rfl, Expr.value_of_isAlways hcond, ν2, none, hb1.trans hb2, hl2, by simp,
      fun e hg hs _ => ?_⟩
    have hdec := hdec e (hb2.step.env.trans hg) hs
    have hzero := hdec.value_eq_zero (Term.isFalse_iff.mp hfalse)
    exact ⟨hdec.isLocal, by simp, fun s => ⟨fun hne => absurd (hzero s) hne,
      fun _ => hleads e hg hs hdec.addresses s⟩⟩
  · simp only [Walking.ends_bind, Walking.ends_lift] at h
    obtain ⟨taken, _, σ2, hdest, br, _, σ3, ⟨hbr, rfl⟩, hguard, rfl⟩ := h
    obtain ⟨rfl, ν2, own, hb2, hl2, hown, hhops⟩ := ends_destination hdest (hstep.flagged hf)
      (fun hkind => hstep.resembles.answers (hj hkind)) fun t d hd => hb1.lists (hat t d hd)
    obtain ⟨ν3, hb3, hl3, hbranch⟩ :=
      Build.ends_branch hbr hl2 (hb2.lists (hb1.lists hother))
    have hhooks3 : σ3.env.hooks = [] := (hb2.trans hb3).step.env.hooks.trans hhooks1
    obtain ⟨ν4, hb4, hl4, hleads⟩ := Build.leads_guarded hguard hhooks3 hl3
    have hb := hb3.trans hb4
    refine ⟨rfl, Expr.value_of_isAlways hcond, ν4, own, (hb1.trans hb2).trans hb, hl4,
      fun o ho => ?_, fun e hg hs hnew => ?_⟩
    · obtain ⟨hsite, hwithin⟩ := hown o ho
      exact ⟨hb.step.hasSite hsite, hwithin.mono hstep.names hb.step.names⟩
    · have hg2 := hb.step.env.trans hg
      have hdec := hdec e (hb2.step.env.trans hg2) hs
      obtain ⟨hlocal, hhops⟩ := hhops e hg2 hs hnew
      refine ⟨hdec.isLocal, hlocal, fun s => ?_⟩
      have hside := (hleads e hg hs hdec.addresses s).trans (hbranch.leads hdec hs s)
      refine ⟨fun hne a => ?_, fun hzero => ?_⟩
      · rw [if_pos hne] at hside
        exact (hhops a s).trans hside
      · rwa [if_neg (by simp [hzero])] at hside

/-- What is known of the condition before some jumps, with their sites. -/
structure JumpsLead (w : Walker) (m : Memo) (counts : Counts) (e : Environment) (js : List Jmp)
    (row : Row) (last c : Constraint) : Prop where
  isLocal : ∀ j ∈ js, j.cond.Local e
  sites : ∀ i own, row i = some own → own.Local e
  taken : ∀ a s j, Jmp.choose e s js = .ok (some j) →
    w.Hops m counts e j (row (Jmp.place e s js)) c a s
  missed : ∀ s, Jmp.choose e s js = .ok none → c.Leads s last s

/-- The condition before some jumps.  The last one is treated first. -/
theorem ends_jumps_of_answers {last : Constraint}
    (h : (js.foldrM (w.jump counts) last).Ends m σ c m' σ') (hhooks : σ.env.hooks = [])
    (hf : σ.env.Flagged) (hjs : ∀ j ∈ js, j.kind = .call → σ.env.Answers j)
    (hknown : ∀ j ∈ js, j.cond.isKnown = true) (hlast : σ.Lists ν last)
    (hat : ∀ t d, w.at? m counts t = some d → σ.Lists ν d) : m' = m ∧
      Jmp.Leave js ∧ ∃ (ν' : Nat → Constraint) (row : Row), Builds σ ν σ' ν' ∧ σ'.Lists ν' c ∧
        row.Fits σ'.env js ∧
        Numbered σ.supply.names σ'.supply.names row ∧
        ∀ e, σ'.env.Grows e → e.Sound → row.IsNew e → w.JumpsLead m counts e js row last c := by
  induction js generalizing c m' σ' with
  | nil =>
    rw [List.foldrM_nil, Walking.ends_pure] at h
    obtain ⟨rfl, rfl, rfl⟩ := h
    exact ⟨rfl, by simp [Jmp.Leave], ν, fun _ => none, .refl _ _, hlast, nofun, .none _ _,
      fun e _ _ _ => ⟨by simp, nofun, nofun, fun s _ => .refl _ s⟩⟩
  | cons j js ih =>
    rw [List.foldrM_cons] at h
    obtain ⟨mid, m1, τ, hmid, hjump⟩ := Walking.ends_bind.mp h
    obtain ⟨hj, hjs⟩ := List.forall_mem_cons.mp hjs
    obtain ⟨hkj, hknown⟩ := List.forall_mem_cons.mp hknown
    -- the jumps after this one are built first, so its own site comes last
    obtain ⟨rfl, halways, ν1, row, hb1, hl1, hfits, hnum, hlead1⟩ := ih hmid hjs hknown
    obtain ⟨rfl, hnonzero, ν2, own, hb2, hl2, hown, hlead2⟩ :=
      ends_jump_of_answers hjump (hb1.step.env.hooks.trans hhooks) (hb1.step.flagged hf)
        (fun hkind => hb1.step.resembles.answers (hj hkind)) hkj hl1
        fun t d hd => hb1.lists (hat t d hd)
    refine ⟨rfl, halways.cons hnonzero, ν2, row.cons own, hb1.trans hb2, hl2,
      hfits.cons hb2.step fun o ho => (hown o ho).1,
      Row.numbered_cons hnum (fun o ho => (hown o ho).2) hb1.step.names hb2.step.names,
      fun e hg hs hnew => ?_⟩
    · have he : e.hooks = [] := ((hb1.trans hb2).step.env.trans hg).hooks.trans hhooks
      obtain ⟨hlocal1, hsites1, htaken1, hmissed1⟩ :=
        hlead1 e (hb2.step.env.trans hg) hs fun i => hnew (i + 1)
      obtain ⟨hlocal2, hsites2, hlead2⟩ := hlead2 e hg hs (hnew 0)
      refine ⟨List.forall_mem_cons.mpr ⟨hlocal2, hlocal1⟩, fun i => ?_, fun a s i hi => ?_,
        fun s hnone => ?_⟩
      · cases i with
        | zero => exact hsites2
        | succ i => exact hsites1 i
      · rw [Jmp.choose_cons he] at hi
        rw [Jmp.place_cons]
        split at hi
        · next hne =>
          obtain rfl : j = i := by simpa using hi
          rw [if_pos hne]
          exact (hlead2 s).1 hne a
        · next hzero =>
          rw [if_neg hzero]
          exact (htaken1 a s i hi).trans ((hlead2 s).2 (not_not.mp hzero))
      · rw [Jmp.choose_cons he] at hnone
        split at hnone
        · cases hnone
        · next hzero => exact ((hlead2 s).2 (not_not.mp hzero)).trans (hmissed1 s hnone)

/-! ## §3 Blocks -/

/-- What is known of the condition of a block, with the sites of its jumps: it leads to the
condition where the run of the block goes. -/
structure BlockLeads (w : Walker) (m : Memo) (k : Key) (e : Environment) (n : Node) (row : Row)
    (c : Constraint) : Prop where
  isLocal : n.block.Local e
  sites : ∀ i own, row i = some own → own.Local e
  goes : ∀ sites : Sites, sites k = row → ∀ a s s' j, n.block.run e s = .ok (s', j) →
    ∃ s'' names t d, w.flow.hop? e sites a k n s' j = some (s'', names, t) ∧
      w.at? m k.counts t = some d ∧ (e.Fair a s → c.Leads s d s'')

/-- **Blocks** lead to where their runs go. -/
theorem ends_block_of_answers {k : Key} {n : Node} (h : (w.block n k.counts).Ends m σ c m' σ')
    (hhooks : σ.env.hooks = []) (hf : σ.env.Flagged)
    (hjs : ∀ j ∈ n.block.jmps, j.kind = .call → σ.env.Answers j) (hknown : n.block.IsKnown)
    (hat : ∀ t d, w.at? m k.counts t = some d → σ.Lists ν d) :
    m' = m ∧ ∃ (ν' : Nat → Constraint) (row : Row), Builds σ ν σ' ν' ∧ σ'.Lists ν' c ∧
      row.Fits σ'.env n.block.jmps ∧ Numbered σ.supply.names σ'.supply.names row ∧
      ∀ e, σ'.env.Grows e → e.Sound → row.IsNew e → w.BlockLeads m k e n row c := by
  -- jumps are built first, then definitions around them, the last one first
  obtain ⟨last, t0, hat0, hafter, hrest⟩ := block_cases h
  obtain ⟨jumps, m2, τ, hjumps, hlift⟩ := Walking.ends_bind.mp hrest
  obtain ⟨hdefs, rfl⟩ := Walking.ends_foldrM_lift.mp hlift
  obtain ⟨rfl, halways, ν1, row, hb1, hl1, hfits, hnum, hlead⟩ :=
    ends_jumps_of_answers hjumps hhooks hf hjs hknown.2 (hat t0 last hat0) hat
  have hhooks1 : τ.env.hooks = [] := hb1.step.env.hooks.trans hhooks
  obtain ⟨ν2, hb2, hl2, hdefs⟩ :=
    Build.ends_definitions hdefs (by simp [hhooks1]) hknown.1 hl1
  refine ⟨rfl, ν2, row, hb1.trans hb2, hl2, hfits.step hb2.step,
    hnum.mono hb2.step.names, fun e hg hs hnew => ?_⟩
  have he : e.hooks = [] := (hb2.step.env.trans hg).hooks.trans hhooks1
  obtain ⟨hreads, hwrites, -, hleads⟩ := hdefs e hg hs
  obtain ⟨hlocal, hsites, htaken, hmissed⟩ := hlead e (hb2.step.env.trans hg) hs hnew
  have hblock : n.block.Local e := ⟨hreads, hwrites, hlocal⟩
  refine ⟨hblock, hsites, fun sites hrow a s s' j hrun => ?_⟩
  -- a block writes its own constants only, so the answers are still there
  have hfair : e.Fair a s → e.Fair a s' :=
    Blk.run_keeps hs (fun _ _ _ v ho hs => hs.set (.inr ho) v) hblock hrun
  simp only [Blk.run, bind_eq_ok, pure_eq_ok, Prod.mk.injEq] at hrun
  obtain ⟨s1, hfold, chosen, hchoose, rfl, rfl⟩ := hrun
  have hleads := hleads s
  rw [hfold] at hleads
  cases chosen with
  | some j =>
    obtain ⟨s'', names, t, d, hhop, hd, hfin⟩ := htaken a s1 j hchoose
    refine ⟨s'', names, t, d, ?_, hd, fun h => hleads.trans (hfin (hfair h))⟩
    rwa [Flow.hop?, hrow]
  | none =>
    refine ⟨s1, [], t0, last, ?_, hat0, fun _ => hleads.trans (hmissed s1 hchoose)⟩
    rw [Flow.hop?, hafter (Blk.fallsThrough_of_choose halways hchoose)]
    rfl

/-! ## §4 Keys -/

/-- What is known of the condition of a key, with a table: all runs from the key end, and the
condition predicts how. -/
structure Foresees (w : Walker) (e : Environment) (sites : Sites) (k : Key) (c : Constraint) :
    Prop where
  traceable : w.flow.Traceable e sites k
  predicts : ∀ a s o names, e.Fair a s → w.flow.Logs e sites a k s o names →
    c.Predicts s w.post o

/-- Whether the blocks of a walk have no unknown parts, and calls that are answered. -/
structure Answered (w : Walker) (e : Environment) : Prop where
  answers : ∀ n ∈ w.flow.graph, ∀ j ∈ n.block.jmps, j.kind = .call → e.Answers j
  isKnown : ∀ n ∈ w.flow.graph, n.block.IsKnown

variable {k : Key} {sites : Sites}

/-- A table is listed: all its conditions are, and so is the condition on exit. -/
structure Lists (w : Walker) (m : Memo) (σ : Session) (ν : Nat → Constraint) : Prop where
  post : σ.Lists ν w.post
  memo : ∀ (k : Key) (c : Constraint), m.lookup k = some c → σ.Lists ν c

theorem Lists.builds {σ1 : Session} {ν1 : Nat → Constraint} (h : w.Lists m σ ν)
    (hb : Builds σ ν σ1 ν1) : w.Lists m σ1 ν1 :=
  ⟨hb.lists h.post, fun k c hc => hb.lists (h.memo k c hc)⟩

theorem Lists.at? {t : Target} {d : Constraint} (h : w.Lists m σ ν)
    (hd : w.at? m counts t = some d) : σ.Lists ν d := by
  cases t with
  | outside => exact Option.some.inj hd ▸ h.post
  | block l => exact h.memo _ d hd

/-- **One key**: its condition predicts how runs end if the conditions it is built from do. -/
theorem ends_build_of_answers (h : (w.build k).Ends m σ c m' σ') (hhooks : σ.env.hooks = [])
    (hf : σ.env.Flagged) (hw : w.Answered σ.env) (hl : w.Lists m σ ν) :
    m' = m ∧ ∃ (ν' : Nat → Constraint) (row : Row), Builds σ ν σ' ν' ∧ σ'.Lists ν' c ∧
      (∀ i own, row i = some own →
        ∃ n j, w.flow.node k = .ok n ∧ n.block.jmps[i]? = some j ∧ j.HasSite σ'.env own) ∧
      Numbered σ.supply.names σ'.supply.names row ∧
      ∀ e, σ'.env.Grows e → e.Sound → row.IsNew e → ∀ sites : Sites, sites k = row →
        (∀ k' d, m.lookup k' = some d → w.Foresees e sites k' d) → w.Foresees e sites k c := by
  simp only [build, Walking.ends_bind, Walking.ends_lift, Build.ends_env,
    Walking.ends_liftExcept] at h
  obtain ⟨_, _, _, ⟨⟨rfl, rfl⟩, rfl⟩, isCut, _, _, ⟨hcut, rfl, rfl⟩, h⟩ := h
  cases isCut with
  | true =>
    -- the goal of a cut is the cut itself, and so is the run
    simp only [if_true] at h
    obtain ⟨hgoal, rfl⟩ := Walking.ends_lift.mp h
    obtain ⟨ν', hb, hl', -, hisCut, hholds⟩ := ends_cut (ν := ν) hgoal
    refine ⟨rfl, ν', fun _ => none, hb, hl', by simp, .none _ _, fun e hg _ _ sites _ _ => ?_⟩
    have hcut' : w.flow.isCut e.unroll k = .ok true := by
      rw [(hb.step.env.trans hg).unroll]
      exact hcut
    refine ⟨.cut hcut', fun a s o names _ hlogs => ?_⟩
    obtain ⟨rfl, -⟩ := hlogs.unique (.cut hcut')
    exact ⟨⟨c, c.mem_subtrees_self, hisCut⟩, fun _ b => hholds b s⟩
  | false =>
    simp only [Bool.false_eq_true, if_false, Walking.ends_bind, Walking.ends_liftExcept] at h
    obtain ⟨n, _, _, ⟨hnode, rfl, rfl⟩, h⟩ := h
    have hn := Flow.mem_of_node hnode
    obtain ⟨rfl, ν', row, hb, hl', hfits, hnum, hblock⟩ := ends_block_of_answers h hhooks hf
      (hw.answers n hn) (hw.isKnown n hn) fun t d hd => hl.at? hd
    refine ⟨rfl, ν', row, hb, hl', fun i own hown => ?_, hnum, fun e hg hs hnew sites hrow hm => ?_⟩
    · obtain ⟨j, hj, hsite⟩ := hfits i own hown
      exact ⟨n, j, hnode, hj, hsite⟩
    have hcut' : w.flow.isCut e.unroll k = .ok false := by
      rw [(hb.step.env.trans hg).unroll]
      exact hcut
    obtain ⟨hlocal, hsites, hgoes⟩ := hblock e hg hs hnew
    have hgoes := hgoes sites hrow
    have hsites : ∀ i own, sites k i = some own → own.Local e := hrow ▸ hsites
    refine ⟨.block hcut' hnode hlocal hsites (fun a s s' j hrun => ?_)
      (fun a s s' j s'' names l hrun hhop => ?_), fun a s o names hfair hlogs => ?_⟩
    · obtain ⟨s'', names, t, d, hhop, -⟩ := hgoes a s s' j hrun
      exact ⟨_, hhop⟩
    · obtain ⟨_, _, t, d, hhop', hd, -⟩ := hgoes a s s' j hrun
      cases hhop.symm.trans hhop'
      exact (hm _ d hd).traceable
    · cases hlogs with
      | cut hcut => cases hcut.symm.trans hcut'
      | leave _ hnode' hrun hhop =>
        cases hnode.symm.trans hnode'
        obtain ⟨_, _, t, d, hhop', hd, hleads⟩ := hgoes a _ _ _ hrun
        cases hhop.symm.trans hhop'
        cases hd
        exact hleads hfair
      | go _ hnode' hrun hhop next =>
        cases hnode.symm.trans hnode'
        obtain ⟨_, _, t, d, hhop', hd, hleads⟩ := hgoes a _ _ _ hrun
        cases hhop.symm.trans hhop'
        -- neither the block nor its call takes an answer away
        have hfair' : e.Fair a _ := Flow.hop?_keeps hs (R := fun _ s => e.Fair a s) (l := [])
          (fun _ _ _ _ v ho hfair => hfair.set (.inr ho) v)
          (fun _ _ _ _ hfair => hfair.set (.inl rfl) _) hnode hlocal hsites hrun hhop hfair
        exact (hleads hfair).predicts ((hm _ d hd).predicts a _ _ _ hfair' next)

/-! ## §5 Walks -/

/-- **The invariant of the walk**: there is a table for the keys treated so far, no two calls of
which share a number, and the condition of every key predicts how runs from it end, whatever the
table says of keys still to come. -/
structure Tabulates (w : Walker) (first : Nat) (m : Memo) (σ : Session) (ν : Nat → Constraint)
    (sites : Sites) : Prop where
  lists : w.Lists m σ ν
  made : ∀ k i own, sites k i = some own →
    ∃ n j, w.flow.node k = .ok n ∧ n.block.jmps[i]? = some j ∧ j.HasSite σ.env own
  numbered : Numbered first σ.supply.names fun p : Key × Nat => sites p.1 p.2
  treated : ∀ k i own, sites k i = some own → k ∈ m.keys
  foresees : ∀ e, σ.env.Grows e → e.Sound → (∀ k, Row.IsNew e (sites k)) →
    ∀ sites' : Sites, (∀ k ∈ m.keys, sites' k = sites k) →
      ∀ k c, m.lookup k = some c → w.Foresees e sites' k c

/-- What walks rely on, from a first number on. -/
structure Starts (w : Walker) (first : Nat) (σ : Session) : Prop where
  hooks : σ.env.hooks = []
  flagged : σ.env.Flagged
  answered : w.Answered σ.env
  first : first ≤ σ.supply.names

theorem Starts.step (h : w.Starts first σ) (hstep : σ.Step σ') : w.Starts first σ' where
  hooks := hstep.env.hooks.trans h.hooks
  flagged := hstep.flagged h.flagged
  answered := ⟨fun n hn j hj hkind => hstep.resembles.answers (h.answered.answers n hn j hj hkind),
    h.answered.isKnown⟩
  first := h.first.trans hstep.names

/-- A new row comes after the table. -/
theorem numbered_update {n n' : Nat} {row : Row}
    (h : Numbered first n fun p : Key × Nat => sites p.1 p.2) (hrow : Numbered n n' row)
    (hle : first ≤ n) (hle' : n ≤ n') :
    Numbered first n' fun p : Key × Nat => Function.update sites k row p.1 p.2 := by
  refine h.glue hrow hle hle' (g := fun p => if p.1 = k then .inr p.2 else .inl p) ?_ ?_
  · rintro ⟨k1, i1⟩ ⟨k2, i2⟩ heq
    dsimp only at heq
    split at heq <;> split at heq
    · next h1 h2 => rw [h1, h2, Sum.inr.inj heq]
    · cases heq
    · cases heq
    · exact Sum.inl.inj heq
  · rintro ⟨k1, i1⟩
    dsimp only
    split
    · next h1 => rw [h1, Function.update_self, Sum.elim_inr]
    · next h1 => rw [Function.update_of_ne h1, Sum.elim_inl]

theorem Tabulates.insert (ht : w.Tabulates first m σ ν sites) (h : (w.build k).Ends m σ c m' σ')
    (hσ : w.Starts first σ) (hk : k ∉ m.keys) :
    m' = m ∧ ∃ ν' sites', Builds σ ν σ' ν' ∧ w.Tabulates first ((k, c) :: m') σ' ν' sites' := by
  obtain ⟨rfl, ν', row, hb, hlc, hmade, hnum, hforesees⟩ :=
    ends_build_of_answers h hσ.hooks hσ.flagged hσ.answered ht.lists
  have hlm := ht.lists.builds hb
  -- nothing was known of this key, so nothing is overwritten
  have hother : ∀ k', k' ∈ m'.keys → k' ≠ k := fun k' hk' heq => hk (heq ▸ hk')
  refine ⟨rfl, ν', Function.update sites k row, hb, ⟨hlm.post, fun k1 c1 hk1 => ?_⟩,
    fun k1 i own hown => ?_, numbered_update ht.numbered hnum hσ.first hb.step.names,
    fun k1 i own hown => ?_, fun e hg hs hnew sites' hsites' k1 c1 hk1 => ?_⟩
  · rw [Memo.lookup_cons] at hk1
    split at hk1
    · exact Option.some.inj hk1 ▸ hlc
    · exact hlm.memo k1 c1 hk1
  · by_cases heq : k1 = k
    · subst heq
      rw [Function.update_self] at hown
      exact hmade i own hown
    · rw [Function.update_of_ne heq] at hown
      obtain ⟨n, j, hnode, hj, hsite⟩ := ht.made k1 i own hown
      exact ⟨n, j, hnode, hj, hb.step.hasSite hsite⟩
  · by_cases heq : k1 = k
    · exact heq ▸ List.mem_cons_self
    · rw [Function.update_of_ne heq] at hown
      exact List.mem_cons_of_mem _ (ht.treated k1 i own hown)
  · have hnewRow : row.IsNew e := by simpa using hnew k
    have hnewOld : ∀ k', Row.IsNew e (sites k') := fun k' i own hown => by
      have hk' := hother k' (ht.treated k' i own hown)
      exact hnew k' i own (by rwa [Function.update_of_ne hk'])
    have hold : ∀ k' d, m'.lookup k' = some d → w.Foresees e sites' k' d := by
      refine ht.foresees e (hb.step.env.trans hg) hs hnewOld sites' fun k' hk' => ?_
      rw [hsites' k' (List.mem_cons_of_mem _ hk'), Function.update_of_ne (hother k' hk')]
    rw [Memo.lookup_cons] at hk1
    split at hk1
    · next heq =>
      have hrow : sites' k = row := by rw [hsites' k List.mem_cons_self, Function.update_self]
      have hnow := hforesees e hg hs hnewRow sites' hrow hold
      rwa [heq, Option.some.inj hk1] at hnow
    · exact hold k1 c1 hk1

/-- What a part of the walk does while some keys wait: none of these is entered, and the invariant
is kept. -/
def Advances (w : Walker) (first : Nat) (path : List Key) (m : Memo) (σ : Session)
    (ν : Nat → Constraint) (m' : Memo) (σ' : Session) : Prop :=
  (∀ p ∈ path, p ∉ m.keys → p ∉ m'.keys) ∧
    ∃ ν' sites', Builds σ ν σ' ν' ∧ w.Tabulates first m' σ' ν' sites'

/-- Walks one after the other keep the invariant if each of them does. -/
theorem advances_forM {path : List Key} {visit : Key → Walking Unit}
    (hvisit : ∀ {k m σ ν sites m' σ'} {u : Unit}, (visit k).Ends m σ u m' σ' →
      w.Starts first σ → w.Tabulates first m σ ν sites → w.Advances first path m σ ν m' σ')
    {ks : List Key} {u : Unit} (h : (ks.forM visit).Ends m σ u m' σ') (hσ : w.Starts first σ)
    (ht : w.Tabulates first m σ ν sites) : w.Advances first path m σ ν m' σ' := by
  rw [List.forM_eq_forM] at h
  induction ks generalizing m σ ν sites with
  | nil =>
    rw [List.forM_nil, Walking.ends_pure] at h
    obtain ⟨-, rfl, rfl⟩ := h
    exact ⟨fun _ _ hp => hp, ν, sites, .refl σ ν, ht⟩
  | cons k ks ih =>
    rw [List.forM_cons, Walking.ends_bind] at h
    obtain ⟨_, m1, σ1, hk, hks⟩ := h
    obtain ⟨hpath1, ν1, sites1, hb1, ht1⟩ := hvisit hk hσ ht
    obtain ⟨hpath2, ν', sites', hb2, ht'⟩ := ih hks (hσ.step hb1.step) ht1
    exact ⟨fun p hp hpm => hpath2 p hp (hpath1 p hp hpm), ν', sites', hb1.trans hb2, ht'⟩

/-- What a visit can do: nothing if the key is in the table, and otherwise visit the keys that it
needs and build its own condition. -/
theorem visit_cases {bound : Nat} {path : List Key} {u : Unit}
    (h : (w.visit (bound + 1) path k).Ends m σ u m' σ') :
    (k ∈ m.keys ∧ m = m' ∧ σ = σ') ∨
      (k ∉ m.keys ∧ k ∉ path ∧
        ∃ (ks : List Key) (m1 : Memo) (σ1 : Session) (c : Constraint) (m2 : Memo),
        (ks.forM (w.visit bound (k :: path))).Ends m σ () m1 σ1 ∧
        (w.build k).Ends m1 σ1 c m2 σ' ∧ (k, c) :: m2 = m') := by
  simp only [visit, Walking.ends_bind, Walking.ends_get] at h
  obtain ⟨_, _, _, ⟨rfl, rfl, rfl⟩, h⟩ := h
  split at h
  · next hin => exact .inl ⟨Memo.lookup_isSome.mp hin, (Walking.ends_pure.mp h).2⟩
  · next hnotin =>
    split at h
    · simp at h
    · next hpath =>
      simp only [Walking.ends_bind, Walking.ends_lift, Build.ends_env, Walking.ends_liftExcept,
        Walking.ends_modify] at h
      obtain ⟨_, _, _, ⟨⟨rfl, rfl⟩, rfl⟩, needs, _, _, ⟨-, rfl, rfl⟩, _, m1, σ1, hvisits, c, m2, _,
        hbuild, rfl, rfl⟩ := h
      exact .inr ⟨mt Memo.lookup_isSome.mpr hnotin, by simpa using hpath, _, m1, σ1, c, m2, hvisits,
        hbuild, rfl⟩

/-- **The walk keeps its invariant**, and enters the key that it is asked for. -/
theorem advances_visit {bound : Nat} {path : List Key} {u : Unit}
    (h : (w.visit bound path k).Ends m σ u m' σ') (hσ : w.Starts first σ)
    (ht : w.Tabulates first m σ ν sites) :
    (∃ c, m'.lookup k = some c) ∧ w.Advances first path m σ ν m' σ' := by
  induction bound generalizing path k m σ ν sites m' σ' u with
  | zero => exact (Walking.ends_throw.mp h).elim
  | succ bound ih =>
    obtain ⟨hin, rfl, rfl⟩ | ⟨hk, hpath, ks, m1, σ1, c, m2, hneeds, hbuild, rfl⟩ :=
      visit_cases h
    · exact ⟨Option.isSome_iff_exists.mp (Memo.lookup_isSome.mpr hin), fun _ _ hp => hp, ν, sites,
        .refl σ ν, ht⟩
    · obtain ⟨hwait, ν1, sites1, hb1, ht1⟩ :=
        advances_forM (fun h hσ ht => (ih h hσ ht).2) hneeds hσ ht
      -- the key waits for those that it needs, so it is still to come
      have hk1 : k ∉ m1.keys := hwait k List.mem_cons_self hk
      obtain ⟨rfl, ν', sites', hb', ht'⟩ := ht1.insert hbuild (hσ.step hb1.step) hk1
      refine ⟨⟨c, Memo.lookup_self⟩, fun p hp hpm => ?_, ν', sites',
        hb1.trans hb', ht'⟩
      have hne : k ≠ p := fun heq => hpath (heq ▸ hp)
      exact List.not_mem_cons_of_ne_of_not_mem hne.symm (hwait p (List.mem_cons_of_mem k hp) hpm)

/-- **Walks**: the condition on entry predicts how runs from the first block end. -/
theorem ends_run_of_answers (h : w.run.Ends σ c σ') (hhooks : σ.env.hooks = [])
    (hf : σ.env.Flagged) (hw : w.Answered σ.env) (hpost : σ.Lists ν w.post)
    (hgraph : w.flow.graph ≠ []) :
    ∃ n rest ν' sites, w.flow.graph = n :: rest ∧ Builds σ ν σ' ν' ∧ σ'.Lists ν' c ∧
      (∀ k i own, sites k i = some own →
        ∃ n j, w.flow.node k = .ok n ∧ n.block.jmps[i]? = some j ∧ j.HasSite σ'.env own) ∧
      (Numbered σ.supply.names σ'.supply.names fun p : Key × Nat => sites p.1 p.2) ∧
      ∀ e, σ'.env.Grows e → e.Sound → (∀ k, Row.IsNew e (sites k)) →
        w.Foresees e sites (w.flow.key n.label []) c := by
  unfold run at h
  split at h
  · next hnil => exact absurd hnil hgraph
  · next n rest hcons =>
    simp only [ends_bind, Build.ends_env] at h
    obtain ⟨_, _, ⟨rfl, rfl⟩, ⟨_, m⟩, τ, hvisit, h⟩ := h
    have hempty : w.Tabulates σ.supply.names ([] : Memo) σ ν fun _ _ => none :=
      ⟨⟨hpost, by simp⟩, by simp, .none _ _, by simp, fun _ _ _ _ _ _ k c hk => by simp at hk⟩
    obtain ⟨⟨c', hc'⟩, -, ν', sites, hb, ht⟩ :=
      advances_visit hvisit ⟨hhooks, hf, hw, le_rfl⟩ hempty
    simp only [hc', ends_pure] at h
    obtain ⟨rfl, rfl⟩ := h
    exact ⟨n, rest, ν', sites, hcons, hb, ht.lists.memo _ _ hc', ht.made, ht.numbered,
      fun e hg hs hnew => ht.foresees e hg hs hnew sites (fun _ _ => rfl) _ _ hc'⟩

end Walker

/-! ## §6 Subroutines -/

namespace Sub

/-- A table of the calls of a subroutine: every site belongs to a call, and no two of them share a
number. -/
structure Tables (sub : Sub) (e : Environment) (sites : Sites) : Prop where
  made : ∀ k i own, sites k i = some own → ∃ f n j, sub.flow = .ok f ∧ f.node k = .ok n ∧
    n.block.jmps[i]? = some j ∧ j.HasSite e own
  apart : ∀ k i k' i' own own', sites k i = some own → sites k' i' = some own' →
    (k, i) ≠ (k', i') → own.Apart own'

theorem Tables.step {sites : Sites} (h : sub.Tables σ.env sites) (hstep : σ.Step σ') :
    sub.Tables σ'.env sites := by
  refine ⟨fun k i own hown => ?_, h.apart⟩
  obtain ⟨f, n, j, hf, hn, hj, hsite⟩ := h.made k i own hown
  exact ⟨f, n, j, hf, hn, hj, hstep.hasSite hsite⟩

/-- The constants of a table belong to no variable if none has such a name. -/
theorem Tables.isNew {sites : Sites} (h : sub.Tables e sites) (hsub : e.Reserves sub) (k : Key) :
    Row.IsNew e (sites k) := by
  intro i own hown p hp
  obtain ⟨f, n, j, hf, hnode, hj, hkind, name, s, m, hname, hs, rfl⟩ := h.made k i own hown
  have hmem := block_mem_of_flow hf n (Flow.mem_of_node hnode)
  exact hsub name s ⟨n.block, hmem, j, List.mem_of_getElem? hj, hkind, hname⟩ hs p.1
    (Clobber.mem_of_mem_numbered hp) p.2

/-- What is known of the precondition of a subroutine, with a table: all runs end, and it predicts
how. -/
structure Foresees (sub : Sub) (e : Environment) (sites : Sites) (post pre : Constraint) :
    Prop where
  traceable : sub.Traceable e sites
  predicts : ∀ a s o names, e.Fair a s → sub.Logs e sites a s o names → pre.Predicts s post o

end Sub

/-- **Preconditions**: with the table of the calls, the precondition of a subroutine predicts how
its runs end. -/
theorem Build.ends_precondition_of_answers {ν : Nat → Constraint} {post pre : Constraint}
    (h : (precondition post sub).Ends σ pre σ') (hhooks : σ.env.hooks = []) (hf : σ.env.Flagged)
    (hans : σ.env.AnswersAll sub) (hknown : sub.IsKnown) (hpost : σ.Lists ν post) :
    ∃ ν' sites, Builds σ ν σ' ν' ∧ σ'.Lists ν' pre ∧ sub.Tables σ'.env sites ∧
      ∀ e, σ'.env.Grows e → e.Sound → (∀ k, Row.IsNew e (sites k)) →
        sub.Foresees e sites post pre := by
  rcases precondition_cases h with ⟨hempty, rfl, rfl⟩ | ⟨f, bound, hflow, hgraph, h⟩
  -- a subroutine without blocks has no calls
  · refine ⟨ν, fun _ _ => none, .refl _ _, hpost, ⟨nofun, nofun⟩, fun e _ _ _ =>
      ⟨.inl hempty, fun a s o names _ hlogs => ?_⟩⟩
    rw [Sub.Logs, if_pos hempty] at hlogs
    obtain ⟨rfl, -⟩ := hlogs
    exact .refl _ s
  · have hmem := Sub.block_mem_of_flow hflow
    obtain ⟨n, rest, ν', sites, hcons, hb, hl, hmade, hnum, hforesees⟩ :=
      Walker.ends_run_of_answers h hhooks hf
        ⟨fun n hn => hans _ (hmem n hn), fun n hn => hknown _ (hmem n hn)⟩ hpost hgraph
    refine ⟨ν', sites, hb, hl,
      ⟨fun k i own hown => ?_, fun k i k' i' => hnum.apart (k, i) (k', i')⟩,
      fun e hg hs hnew => ?_⟩
    · obtain ⟨n, j, hnode, hj, hsite⟩ := hmade k i own hown
      exact ⟨f, n, j, hflow, hnode, hj, hsite⟩
    · obtain ⟨htraceable, hpredicts⟩ := hforesees e hg hs hnew
      refine ⟨.inr ⟨f, n, rest, hflow, hcons, htraceable⟩, fun a s o names hfair hlogs => ?_⟩
      exact hpredicts a s o names hfair ((Sub.logs_iff hflow hcons).mp hlogs)

end Antecedent
