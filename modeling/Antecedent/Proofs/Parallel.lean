import Antecedent.Proofs.Renaming

/-!
# Two walks side by side

Two walks over the same code, in sessions that belong together, make the same decisions.  If the
second one ends, then so does the first one, and what they give belongs together.

* `Link` says which sessions belong together, and how they go on.
* `Build.Follows` says that a builder does what another one does.
* `Walker.Parallel.run` is about walks.
-/

namespace Antecedent

/-! ## §1 Builders -/

/-- Which sessions of two builders belong together, and how they may go on. -/
structure Link where
  Linked : Session × Session → Prop
  Later : Session × Session → Session × Session → Prop
  refl : ∀ p, Later p p
  trans : ∀ {p q r}, Later p q → Later q r → Later p r

namespace Build

variable {α β γ δ : Type} {L : Link} {p : Session × Session} {Q : Session × Session → α → β → Prop}
  {R : Session × Session → γ → δ → Prop}

/-- In sessions that belong together a builder ends if another one does, in sessions that belong
together, and the results go together too. -/
def Follows (L : Link) (act : Build α) (act' : Build β) (p : Session × Session)
    (Q : Session × Session → α → β → Prop) : Prop :=
  L.Linked p → ∀ b τ', act'.Ends p.2 b τ' →
    ∃ a τ, act.Ends p.1 a τ ∧ L.Later p (τ, τ') ∧ L.Linked (τ, τ') ∧ Q (τ, τ') a b

theorem follows_pure {a : α} {b : β} (h : Q p a b) : Follows L (pure a) (pure b) p Q := by
  intro hlinked b' τ' hends
  obtain ⟨rfl, rfl⟩ := ends_pure.mp hends
  exact ⟨a, p.1, ends_pure.mpr ⟨rfl, rfl⟩, L.refl p, hlinked, h⟩

theorem follows_throw {act : Build α} {f : Fault} : Follows L act (throw f : Build β) p Q :=
  fun _ _ _ hends => (ends_throw.mp hends).elim

theorem Follows.bind {act : Build α} {act' : Build β} {f : α → Build γ} {f' : β → Build δ}
    (h : Follows L act act' p Q)
    (hf : ∀ a b q, L.Later p q → Q q a b → Follows L (f a) (f' b) q R) :
    Follows L (act >>= f) (act' >>= f') p R := by
  intro hlinked d υ' hends
  obtain ⟨b, τ', hact', hrest'⟩ := ends_bind.mp hends
  obtain ⟨a, τ, hact, hlater, hlinked', hq⟩ := h hlinked b τ' hact'
  obtain ⟨c, υ, hrest, hlater', hc⟩ := hf a b _ hlater hq hlinked' d υ' hrest'
  exact ⟨c, υ, ends_bind.mpr ⟨a, τ, hact, hrest⟩, L.trans hlater hlater', hc⟩

/-- Computations without a session. -/
theorem follows_lift_bind {x : Except Fault α} {y : Except Fault β} {f : α → Build γ}
    {f' : β → Build δ} (h : ∀ b, y = .ok b → ∃ a, x = .ok a ∧ Follows L (f a) (f' b) p R) :
    Follows L (liftM x >>= f) (liftM y >>= f') p R := by
  intro hlinked d υ' hends
  obtain ⟨b, _, hlift, hrest'⟩ := ends_bind.mp hends
  obtain ⟨hy, rfl⟩ := ends_lift.mp hlift
  obtain ⟨a, hx, hfollows⟩ := h b hy
  obtain ⟨c, υ, hrest, hc⟩ := hfollows hlinked d υ' hrest'
  exact ⟨c, υ, ends_bind.mpr ⟨a, p.1, ends_lift.mpr ⟨hx, rfl⟩, hrest⟩, hc⟩

theorem follows_env_bind {f : Environment → Build γ} {f' : Environment → Build δ}
    (h : L.Linked p → Follows L (f p.1.env) (f' p.2.env) p R) :
    Follows L (env >>= f) (env >>= f') p R := by
  intro hlinked d υ' hends
  obtain ⟨_, _, henv, hrest'⟩ := ends_bind.mp hends
  obtain ⟨rfl, rfl⟩ := ends_env.mp henv
  obtain ⟨c, υ, hrest, hc⟩ := h hlinked hlinked d υ' hrest'
  exact ⟨c, υ, ends_bind.mpr ⟨_, p.1, ends_env.mpr ⟨rfl, rfl⟩, hrest⟩, hc⟩

theorem Follows.ends {act : Build α} {act' : Build β} (h : Follows L act act' p Q) :
    Follows L act act' p fun q a b => act'.Ends p.2 b q.2 ∧ Q q a b := by
  intro hlinked b τ' hends
  obtain ⟨a, τ, hact, hlater, hlinked', hq⟩ := h hlinked b τ' hends
  exact ⟨a, τ, hact, hlater, hlinked', hends, hq⟩

theorem Follows.imp {act : Build α} {act' : Build β} {R : Session × Session → α → β → Prop}
    (h : Follows L act act' p Q) (hQR : ∀ q a b, Q q a b → R q a b) :
    Follows L act act' p R := fun hlinked b τ' hends =>
  let ⟨a, τ, hact, hlater, hlinked', hq⟩ := h hlinked b τ' hends
  ⟨a, τ, hact, hlater, hlinked', hQR _ a b hq⟩

theorem Follows.of_linked {act : Build α} {act' : Build β}
    (h : L.Linked p → Follows L act act' p Q) : Follows L act act' p Q :=
  fun hlinked => h hlinked hlinked

/-! ## §2 Expressions -/

variable {r : Symbol → Symbol}

theorem follows_made {x y : Except Fault Term} (h : y = Term.rename r <$> x)
    (as as' : List Access) :
    Follows L (do return (← x, as)) (do return (← y, as')) p fun _ t t' =>
      t'.1 = t.1.rename r := by
  refine follows_lift_bind fun b hb => ?_
  rw [h] at hb
  obtain ⟨a, ha, rfl⟩ := map_eq_ok.mp hb
  exact ⟨a, ha, follows_pure rfl⟩

/-- What is made of a term and its renamed copy, whatever is listed with them. -/
theorem Follows.bind_term {act : Build (Term × List Access)} {f f' : Term × List Access → Build α}
    {R : Session × Session → α → α → Prop}
    (h : Follows L act act p fun _ t t' => t'.1 = t.1.rename r)
    (hf : ∀ t as as' q, Follows L (f (t, as)) (f' (t.rename r, as')) q R) :
    Follows L (act >>= f) (act >>= f') p R := by
  refine h.bind fun a a' q _ ha => ?_
  obtain ⟨t, as⟩ := a
  obtain ⟨t', as'⟩ := a'
  obtain rfl : t' = t.rename r := ha
  exact hf t as as' q

/-- A builder gives a renamed term in the second session, wherever the two sessions are. -/
def Renames (L : Link) (r : Symbol → Symbol) (act : Build Term) : Prop :=
  ∀ q, Follows L act act q fun _ t t' => t' = t.rename r

/-- **Expressions** have renamed terms in the second session, if their variables and unknown words
have. -/
theorem follows_toTerm {x : Expr} (tid : Json) (hvars : ∀ v ∈ x.vars, Renames L r (getVar v))
    (hx : x.isKnown = true ∨ ∀ width, Renames L r (fresh "unknown" width)) :
    Follows L (x.toTerm tid) (x.toTerm tid) p fun _ t t' => t'.1 = t.1.rename r := by
  -- every constructor of terms commutes with the renaming
  induction x generalizing p with
    simp only [Expr.isKnown, Bool.and_eq_true, and_or_right, Expr.vars, List.forall_mem_append]
      at hx hvars
  | var v =>
    exact (hvars v (List.mem_singleton_self v) p).bind fun _ _ _ _ h => follows_pure h
  | int value width =>
    refine follows_made ?_ [] []
    simp [Term.mkNumeral]
  | load mem addr size endian ihm iha =>
    refine (iha hvars.2 hx.2).bind_term fun _ _ _ _ => ?_
    refine (ihm hvars.1 hx.1).bind_term fun _ _ _ _ => ?_
    exact follows_made (Term.loadBytes_rename ..) _ _
  | store mem addr value size endian ihm iha ihv =>
    refine (iha hvars.1.2 hx.1.2).bind_term fun _ _ _ _ => ?_
    refine (ihm hvars.1.1 hx.1.1).bind_term fun _ _ _ _ => ?_
    refine (ihv hvars.2 hx.2).bind_term fun _ _ _ _ => ?_
    exact follows_made (Term.storeBytes_rename ..) _ _
  | binop op lhs rhs ihl ihr =>
    refine (ihl hvars.1 hx.1).bind_term fun _ _ _ _ => ?_
    refine (ihr hvars.2 hx.2).bind_term fun _ _ _ _ => ?_
    exact follows_made (Term.applyBinary_rename ..) _ _
  | unop op arg ih =>
    refine (ih hvars hx).bind_term fun _ _ _ _ => ?_
    exact follows_made (Term.applyUnary_rename ..) _ _
  | cast kind width arg ih =>
    refine (ih hvars hx).bind_term fun _ _ _ _ => ?_
    exact follows_made (Term.applyCast_rename ..) _ _
  | ite cond yes no ihc ihy ihn =>
    refine (ihc hvars.1.1 hx.1.1).bind_term fun _ _ _ _ => ?_
    refine follows_lift_bind fun b hb => ?_
    rw [Term.bitToBool_rename] at hb
    obtain ⟨a, ha, rfl⟩ := map_eq_ok.mp hb
    refine ⟨a, ha, (ihy hvars.1.2 hx.1.2).bind_term fun _ _ _ _ => ?_⟩
    refine (ihn hvars.2 hx.2).bind_term fun _ _ _ _ => ?_
    exact follows_made (Term.mk_rename_three ..) _ _
  | extract hi lo arg ih =>
    refine (ih hvars hx).bind_term fun _ _ _ _ => ?_
    refine follows_lift_bind fun b hb => ⟨b, hb, ?_⟩
    exact follows_made (Term.mkExtract_rename ..) _ _
  | concat lhs rhs ihl ihr =>
    refine (ihl hvars.1 hx.1).bind_term fun _ _ _ _ => ?_
    refine (ihr hvars.2 hx.2).bind_term fun _ _ _ _ => ?_
    exact follows_made (Term.mk_rename_two ..) _ _
  | unknown width reason =>
    exact (hx.resolve_left Bool.false_ne_true width p).bind fun _ _ _ _ h => follows_pure h

end Build

/-! ## §3 Tables of conditions -/

/-- Two tables have conditions at the same keys, and these go together. -/
def Memo.Pairs (T : Constraint → Constraint → Prop) (m m' : Memo) : Prop :=
  ∀ k : Key, m.lookup k = none ∧ m'.lookup k = none ∨
    ∃ c c', m.lookup k = some c ∧ m'.lookup k = some c' ∧ T c c'

theorem Memo.Pairs.mono {T U : Constraint → Constraint → Prop} {m m' : Memo}
    (h : Memo.Pairs T m m') (hTU : ∀ c c', T c c' → U c c') : Memo.Pairs U m m' := fun k =>
  (h k).imp id fun ⟨c, c', hc, hc', hT⟩ => ⟨c, c', hc, hc', hTU c c' hT⟩

theorem Memo.Pairs.insert {T : Constraint → Constraint → Prop} {m m' : Memo} {c c' : Constraint}
    (h : Memo.Pairs T m m') (k : Key) (hc : T c c') :
    Memo.Pairs T ((k, c) :: m) ((k, c') :: m') := by
  intro k'
  rw [Memo.lookup_cons, Memo.lookup_cons]
  split
  · exact .inr ⟨c, c', rfl, rfl, hc⟩
  · exact h k'

theorem Memo.Pairs.isSome_eq {T : Constraint → Constraint → Prop} {m m' : Memo}
    (h : Memo.Pairs T m m') (k : Key) : (m.lookup k).isSome = (m'.lookup k).isSome := by
  obtain ⟨hm, hm'⟩ | ⟨c, c', hm, hm', -⟩ := h k
  · rw [hm, hm']
  · rw [hm, hm']
    rfl

namespace Walking

variable {α β γ δ : Type} {L : Link} {T : Session × Session → Constraint → Constraint → Prop}
  {p : Session × Session} {Q : Session × Session → α → β → Prop}
  {R : Session × Session → γ → δ → Prop}

/-- A builder with a table does what another one does, if the conditions in the tables go together;
they do so again at the end. -/
def Follows (L : Link) (T : Session × Session → Constraint → Constraint → Prop) (act : Walking α)
    (act' : Walking β) (p : Session × Session) (Q : Session × Session → α → β → Prop) : Prop :=
  ∀ m m', Memo.Pairs (T p) m m' → Build.Follows L (act.run m) (act'.run m') p
    fun q r r' => Memo.Pairs (T q) r.2 r'.2 ∧ Q q r.1 r'.1

theorem follows_pure {a : α} {b : β} (h : Q p a b) : Follows L T (pure a) (pure b) p Q :=
  fun _ _ hm => Build.follows_pure ⟨hm, h⟩

theorem follows_throw {act : Walking α} {f : Fault} :
    Follows L T act (throw f : Walking β) p Q :=
  fun _ _ _ => Build.follows_throw

theorem Follows.bind {act : Walking α} {act' : Walking β} {f : α → Walking γ} {f' : β → Walking δ}
    (h : Follows L T act act' p Q)
    (hf : ∀ a b q, L.Later p q → Q q a b → Follows L T (f a) (f' b) q R) :
    Follows L T (act >>= f) (act' >>= f') p R := by
  intro m m' hm
  rw [StateT.run_bind, StateT.run_bind]
  exact (h m m' hm).bind fun r r' q hlater hr => hf r.1 r'.1 q hlater hr.2 _ _ hr.1

theorem follows_get_bind {f : Memo → Walking γ} {f' : Memo → Walking δ}
    (h : ∀ m m', Memo.Pairs (T p) m m' → Follows L T (f m) (f' m') p R) :
    Follows L T (get >>= f) (get >>= f') p R :=
  fun m m' hm => h m m' hm m m' hm

theorem follows_modify {f f' : Memo → Memo}
    (h : ∀ m m', Memo.Pairs (T p) m m' → Memo.Pairs (T p) (f m) (f' m')) :
    Follows L T (modify f : Walking Unit) (modify f') p fun _ _ _ => True :=
  fun m m' hm => Build.follows_pure ⟨h m m' hm, True.intro⟩

theorem follows_lift_bind {x : Except Fault α} {f : α → Walking γ} {f' : α → Walking δ}
    (h : ∀ a, x = .ok a → Follows L T (f a) (f' a) p R) :
    Follows L T (liftM x >>= f) (liftM x >>= f') p R := by
  intro m m' hm hlinked d υ' hends
  obtain ⟨a, _, _, hlift, hrest'⟩ := ends_bind.mp hends
  obtain ⟨hx, rfl, rfl⟩ := ends_liftExcept.mp hlift
  obtain ⟨c, υ, hrest, hc⟩ := h a hx m m' hm hlinked d υ' hrest'
  exact ⟨c, υ, ends_bind.mpr ⟨a, m, p.1, ends_liftExcept.mpr ⟨hx, rfl, rfl⟩, hrest⟩, hc⟩

/-- Builders without a table. -/
theorem follows_lift (hT : ∀ {p q c c'}, L.Later p q → T p c c' → T q c c') {act : Build α}
    {act' : Build β} (h : Build.Follows L act act' p Q) :
    Follows L T (liftM act) (liftM act') p Q := by
  intro m m' hm hlinked r' υ' hends
  obtain ⟨hact', rfl⟩ := ends_lift.mp hends
  obtain ⟨a, τ, hact, hlater, hlinked', hq⟩ := h hlinked _ υ' hact'
  exact ⟨(a, m), τ, ends_lift.mpr ⟨hact, rfl⟩, hlater, hlinked',
    hm.mono fun _ _ => hT hlater, hq⟩

theorem follows_env_bind {f : Environment → Walking γ} {f' : Environment → Walking δ}
    (h : L.Linked p → Follows L T (f p.1.env) (f' p.2.env) p R) :
    Follows L T ((liftM Build.env : Walking Environment) >>= f)
      ((liftM Build.env : Walking Environment) >>= f') p R := by
  intro m m' hm hlinked d υ' hends
  obtain ⟨_, _, _, hlift, hrest'⟩ := ends_bind.mp hends
  obtain ⟨henv, rfl⟩ := ends_lift.mp hlift
  obtain ⟨rfl, rfl⟩ := Build.ends_env.mp henv
  obtain ⟨c, υ, hrest, hc⟩ := h hlinked m m' hm hlinked d υ' hrest'
  have henv : Build.env.Ends p.1 p.1.env p.1 := Build.ends_env.mpr ⟨rfl, rfl⟩
  exact ⟨c, υ, ends_bind.mpr ⟨_, m, p.1, ends_lift.mpr ⟨henv, rfl⟩, hrest⟩, hc⟩

theorem follows_foldrM {as : List α} {f f' : α → Constraint → Walking Constraint}
    {c c' : Constraint} (hc : T p c c')
    (h : ∀ a ∈ as, ∀ c c' q, L.Later p q → T q c c' → Follows L T (f a c) (f' a c') q T) :
    Follows L T (as.foldrM f c) (as.foldrM f' c') p T := by
  induction as with
  | nil => exact follows_pure hc
  | cons a as ih =>
    obtain ⟨ha, has⟩ := List.forall_mem_cons.mp h
    rw [List.foldrM_cons, List.foldrM_cons]
    exact (ih has).bind ha

theorem follows_forM {as : List α} {f f' : α → Walking Unit}
    (h : ∀ a ∈ as, ∀ q, L.Later p q → Follows L T (f a) (f' a) q fun _ _ _ => True) :
    Follows L T (as.forM f) (as.forM f') p fun _ _ _ => True := by
  induction as generalizing p with
  | nil => exact follows_pure True.intro
  | cons a as ih =>
    obtain ⟨ha, has⟩ := List.forall_mem_cons.mp h
    refine (ha p (L.refl p)).bind fun _ _ q hlater _ => ?_
    exact ih fun a' ha' r hlater' => has a' ha' r (L.trans hlater hlater')

end Walking

/-! ## §4 Walks -/

namespace Walker

open Walking

/-- Two walks over the same code whose parts do the same, in sessions that belong together and
satisfy an invariant. -/
structure Parallel (L : Link) (T : Session × Session → Constraint → Constraint → Prop)
    (I : Session × Session → Prop) (w w' : Walker) : Prop where
  flow : w'.flow = w.flow
  unroll : ∀ {p}, L.Linked p → p.2.env.unroll = p.1.env.unroll
  stays : ∀ {p q}, L.Later p q → I p → I q
  mono : ∀ {p q c c'}, L.Later p q → T p c c' → T q c c'
  post : ∀ {p}, I p → T p w.post w'.post
  definition : ∀ {n d p c c'}, n ∈ w.flow.graph → d ∈ n.block.defs → I p → T p c c' →
    Build.Follows L (Build.definition c d) (Build.definition c' d) p T
  call : ∀ {n j p c c'}, n ∈ w.flow.graph → j ∈ n.block.jmps → j.kind = .call → I p →
    T p c c' → Build.Follows L (w.call j c) (w'.call j c') p T
  jump : ∀ {n j p c c' counts}, n ∈ w.flow.graph → j ∈ n.block.jmps → I p → T p c c' →
    (∀ {q}, L.Later p q → Follows L T (w.destination j counts) (w'.destination j counts) q T) →
    Follows L T (w.jump counts j c) (w'.jump counts j c') p T
  cut : ∀ {l p}, Build.Follows L (w.cut l) (w'.cut l) p T

namespace Parallel

variable {L : Link} {T : Session × Session → Constraint → Constraint → Prop}
  {I : Session × Session → Prop} {w w' : Walker} (h : Parallel L T I w w') {p : Session × Session}
  {counts : Counts}
include h

theorem entry (l : Label) : Follows L T (w.entry l counts) (w'.entry l counts) p T := by
  refine follows_get_bind fun m m' hm => ?_
  rw [h.flow]
  obtain ⟨hk, hk'⟩ | ⟨c, c', hk, hk', hc⟩ := hm (w.flow.key (w.flow.graph.resolve l) counts)
  · rw [hk, hk']
    exact follows_throw
  · rw [hk, hk']
    exact follows_pure hc

theorem destination {n : Node} {j : Jmp} (hn : n ∈ w.flow.graph) (hj : j ∈ n.block.jmps)
    (hI : I p) : Follows L T (w.destination j counts) (w'.destination j counts) p T := by
  -- where a call comes back to, and what is made of the condition there
  have hafter : ∀ {f f' : Constraint → Walking Constraint},
      (∀ c c' q, L.Later p q → T q c c' → Follows L T (f c) (f' c') q T) →
      Follows L T
        (do
          let after ← if j.returnTo.truthy then w.entry (← j.returnTo.label) counts else pure w.post
          f after)
        (do
          let after ← if j.returnTo.truthy then w'.entry (← j.returnTo.label) counts
            else pure w'.post
          f' after) p T := by
    intro f f' hf
    split
    · exact follows_lift_bind fun l _ => (h.entry l).bind hf
    · exact (follows_pure (h.post hI)).bind hf
  unfold Walker.destination
  split
  · split
    · exact follows_throw
    · exact follows_lift_bind fun l _ => h.entry l
  · exact follows_pure (h.post hI)
  · next hkind =>
    refine hafter fun c c' q hlater hc => ?_
    simp only [hkind, reduceCtorEq, if_false]
    exact follows_lift (T := T) h.mono (h.call hn hj hkind (h.stays hlater hI) hc)
  · next hkind =>
    refine hafter fun c c' q _ hc => ?_
    simp only [hkind, if_true]
    exact follows_pure hc

theorem block {n : Node} (hn : n ∈ w.flow.graph) (hI : I p) :
    Follows L T (w.block n counts) (w'.block n counts) p T := by
  -- whatever comes last, the jumps and then the definitions are built on both sides
  have hlast : ∀ c c' q, L.Later p q → T q c c' → Follows L T
      (do
        let jumps ← n.block.jmps.foldrM (w.jump counts) c
        n.block.defs.foldrM (fun d post => Build.definition post d) jumps)
      (do
        let jumps ← n.block.jmps.foldrM (w'.jump counts) c'
        n.block.defs.foldrM (fun d post => Build.definition post d) jumps) q T := by
    intro c c' q hlater hc
    have hI := h.stays hlater hI
    refine (follows_foldrM hc fun j hj c c' r hlater hc => ?_).bind
      fun c c' r hlater hc => follows_foldrM hc fun d hd c c' r' hlater' hc => ?_
    · exact h.jump hn hj (h.stays hlater hI) hc fun hlater' =>
        h.destination hn hj (h.stays (L.trans hlater hlater') hI)
    · exact follows_lift (T := T) h.mono
        (h.definition hn hd (h.stays (L.trans hlater hlater') hI) hc)
  unfold Walker.block
  rw [h.flow]
  split
  · exact (h.entry _).bind hlast
  · exact (follows_pure (h.post hI)).bind hlast

theorem build (k : Key) (hI : I p) : Follows L T (w.build k) (w'.build k) p T := by
  refine follows_env_bind fun hlinked => ?_
  rw [h.flow, h.unroll hlinked]
  refine follows_lift_bind fun isCut _ => ?_
  split
  · exact follows_lift (T := T) h.mono h.cut
  · exact follows_lift_bind fun n hn => h.block (Flow.mem_of_node hn) hI

/-- **Keys**: two walks treat the same keys in the same order. -/
theorem visit (bound : Nat) (path : List Key) (k : Key) (hI : I p) :
    Follows L T (w.visit bound path k) (w'.visit bound path k) p fun _ _ _ => True := by
  induction bound generalizing path k p with
  | zero => exact follows_throw
  | succ bound ih =>
    refine follows_get_bind fun m m' hm => ?_
    rw [hm.isSome_eq]
    split
    · exact follows_pure True.intro
    · split
      · exact follows_throw
      · refine follows_env_bind fun hlinked => ?_
        rw [h.flow, h.unroll hlinked]
        refine follows_lift_bind fun needs _ => ?_
        refine (follows_forM fun k' _ q hlater => ih (k :: path) k' (h.stays hlater hI)).bind
          fun _ _ q hlater _ => ?_
        refine (h.build k (h.stays hlater hI)).bind fun c c' r _ hc => ?_
        exact follows_modify fun m m' hm => hm.insert k hc

/-- **Whole walks** do the same. -/
theorem run (hI : I p) : Build.Follows L w.run w'.run p T := by
  unfold Walker.run
  rw [h.flow]
  split
  · exact Build.follows_pure (h.post hI)
  · next n _ _ =>
    refine Build.follows_env_bind fun hlinked => ?_
    rw [h.unroll hlinked]
    refine ((h.visit _ _ _ hI) {} {} fun k => by simp).bind fun (_, m) (_, m') q _ hm => ?_
    dsimp only at hm ⊢
    obtain ⟨hk, hk'⟩ | ⟨c, c', hk, hk', hc⟩ := hm.1 (w.flow.key n.label [])
    · rw [hk, hk']
      exact Build.follows_throw
    · rw [hk, hk']
      exact Build.follows_pure hc

end Parallel

end Walker

end Antecedent
