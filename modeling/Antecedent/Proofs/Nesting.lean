import Antecedent.Proofs.Callees
import Antecedent.Proofs.Termination

/-!
# Nested activations

An inlined callee is walked with its activation open, and a callee of which too many activations are
open is not inlined.  The depths are looked at before every inlining and changed around it, in
bodies that call each other in any way.

* `Environment.room` is how many activations can still be opened.
* `watchedWithin` is the walk that looks at the session before every body.
* `nested_activations_bounded` says that the walk of a subroutine is the watched one.
-/

namespace Antecedent

open ExceptT (Agrees agrees_lift_bind preserves_pure preserves_throw)

/-! ## §1 Depths -/

namespace Environment

variable {e : Environment} {l l' : Label} {u : Nat}

theorem depth_congr (h : l.same l' = true) : e.depth l = e.depth l' := by
  have hsame : (fun p : Label × Nat => p.1.same l) = fun p => p.1.same l' :=
    funext fun p => Label.same_congr_right h p.1
  rw [depth, depth, hsame]

/-- One more activation of a callee is open. -/
def opened (e : Environment) (l : Label) : Environment :=
  e.setDepth l (e.depth l + 1)

def closed (e : Environment) (l : Label) : Environment :=
  e.setDepth l (e.depth l - 1)

theorem depth_opened :
    (e.opened l).depth l' = if l.same l' then e.depth l' + 1 else e.depth l' := by
  rw [opened, depth_setDepth_eq]
  split
  · next h => rw [depth_congr h]
  · rfl

theorem depth_closed :
    (e.closed l).depth l' = if l.same l' then e.depth l' - 1 else e.depth l' := by
  rw [closed, depth_setDepth_eq]
  split
  · next h => rw [depth_congr h]
  · rfl

/-- How many activations of some callees can still be opened. -/
def room (e : Environment) (names : List Label) (u : Nat) : Nat :=
  ((Label.distinct names).map fun l => u - e.depth l).sum

theorem room_opened_lt {names : List Label} (hmem : l.isAmong names = true) (hlt : e.depth l < u) :
    (e.opened l).room names u < e.room names u := by
  refine List.sum_lt_sum _ _ (fun l' _ => ?_) ?_
  · rw [depth_opened]
    split <;> omega
  · obtain ⟨l', hl', hsame⟩ := List.any_eq_true.mp (Label.isAmong_distinct hmem)
    refine ⟨l', hl', ?_⟩
    rw [depth_opened, if_pos hsame]
    rw [depth_congr hsame] at hlt
    omega

theorem room_of_closed {names : List Label} (h : ∀ l, e.depth l = 0) :
    e.room names u = (Label.distinct names).length * u := by
  simp [room, h]

end Environment

/-! ## §2 Walks that are watched -/

namespace Walker

variable (w : Walker) (giveUp : Walking Unit)

/-- Treats a key like `visit`, but does something else where that gives up. -/
def visitOr : Nat → List Key → Key → Walking Unit
  | 0, _, _ => giveUp
  | bound + 1, path, k => do
    if ((← get).lookup k).isSome then return
    if path.contains k then giveUp
    else
      let needs ← w.flow.needs (← Build.env).unroll k
      needs.reverse.forM (visitOr bound (k :: path))
      let c ← w.build k
      modify ((k, c) :: ·)

def runOr : Build Constraint := do
  match w.flow.graph with
  | [] => return w.post
  | n :: _ =>
    let k := w.flow.key n.label []
    let bound := w.flow.keyBound (← Build.env).unroll
    let (_, memo) ← (w.visitOr giveUp bound [] k).run []
    match memo.lookup k with
    | some c => return c
    | none => throw .unbuiltBlock

end Walker

/-- What is expected of a session before a body, given the number of activations around it, what is
done where that does not hold or where the activations are too many, and what is done where the walk
of a body would give up. -/
structure Watch where
  fine : Nat → Session → Bool
  other : Build Constraint
  giveUp : Walking Unit

/-- The walk of a subroutine that is watched. -/
def watchedWithin (watch : Watch) : Nat → Nat → Constraint → Sub → Build Constraint
  | 0, _, _, _ => watch.other
  | bound + 1, nested, post, sub => do
    if watch.fine nested (← get) then
      if sub.blks.isEmpty then return post
      (Walker.mk (← sub.flow) post (watchedWithin watch bound (nested + 1))).runOr watch.giveUp
    else watch.other

/-- No key of the walk of a subroutine needs itself. -/
def Sub.Acyclic (sub : Sub) (unroll : Json) : Prop :=
  ∀ f, sub.flow = .ok f → f.Acyclic unroll

/-! ## §3 Bodies without cycles -/

section Walker

variable {I : Session → Prop} {u : Int} {w : Walker} {giveUp : Walking Unit}
  (hunroll : ∀ σ, I σ → σ.env.unroll = .int u) (hbuild : ∀ k, (w.build k).Preserves I)
  (hgive : giveUp = throw .endlessWalk ∨ w.flow.Acyclic (.int u))
include hunroll hbuild hgive

theorem Walker.agrees_visitOr {bound : Nat} {path : List Key} {k : Key}
    (htrail : w.flow.Trail (.int u) (k :: path))
    (hbound : w.flow.keyBound (.int u) ≤ bound + path.length) :
    (w.visit bound path k).Agrees I (w.visitOr giveUp bound path k) := by
  induction bound generalizing path k with
  | zero =>
    rcases hgive with rfl | hacyclic
    · exact Walking.preserves_throw _
    · -- more keys than there are would be waiting
      have hlength := htrail.length_lt_of_acyclic hacyclic
      rw [List.length_cons] at hlength
      omega
  | succ bound ih =>
    refine Walking.agrees_get_bind fun m => ?_
    split
    · exact Walking.preserves_pure _
    · split
      · next hmem =>
        rcases hgive with rfl | hacyclic
        · exact Walking.preserves_throw _
        · exact absurd (by simpa using hmem) (List.nodup_cons.mp (htrail.nodup hacyclic)).1
      · refine Walking.agrees_env_bind fun σ hσ => ?_
        rw [hunroll σ hσ]
        refine Walking.agrees_lift_bind fun needs hneeds => ?_
        refine Walking.Agrees.bind (Walking.agrees_forM fun k' hk' => ?_) fun _ => ?_
        · exact ih (htrail.step ⟨needs, hneeds, List.mem_reverse.mp hk'⟩)
            (by rw [List.length_cons]; omega)
        · exact (hbuild k).bind fun _ => Walking.preserves_modify _

theorem Walker.agrees_runOr : w.run.Agrees I (w.runOr giveUp) := by
  unfold run runOr
  cases hcons : w.flow.graph with
  | nil => exact (preserves_pure _).agrees
  | cons n rest =>
    refine Build.agrees_env_bind fun σ hσ => ?_
    rw [hunroll σ hσ]
    refine Agrees.bind (agrees_visitOr hunroll hbuild hgive (.start hcons) le_rfl []) fun p => ?_
    dsimp only
    cases p.2.lookup (w.flow.key n.label []) with
    | some c => exact (preserves_pure _).agrees
    | none => exact (preserves_throw _).agrees

end Walker

/-! ## §4 Activations -/

/-- A session in which as many activations are open as in an environment, and which inlines the
callees of some names. -/
structure Session.Nests (e : Environment) (names : List Label) (trip : Bool) (u : Nat)
    (σ : Session) : Prop where
  summaries : σ.env.summaries = Summary.standard names trip
  unroll : σ.env.unroll = .int u
  subs : σ.env.subs = e.subs
  depth : ∀ l, σ.env.depth l = e.depth l

namespace Session.Nests

variable {e : Environment} {names names' : List Label} {trip : Bool} {u : Nat} {σ : Session}
  {l : Label}

theorem steady (e : Environment) (names : List Label) (trip : Bool) (u : Nat) :
    Steady (Nests e names trip u) (fun _ => True) fun _ => True := by
  let P (e' : Environment) : Prop := Nests e names trip u { env := e' }
  have hP : Nests e names trip u = fun σ => P σ.env :=
    funext fun σ => propext ⟨fun h => ⟨h.1, h.2, h.3, h.4⟩, fun h => ⟨h.1, h.2, h.3, h.4⟩⟩
  rw [hP]
  exact Build.steady_of_core fun e' _ _ _ _ h => ⟨h.1, h.2, h.3, h.4⟩

theorem nestingBound_eq (h : Nests e names trip u σ) :
    σ.env.nestingBound = (Label.distinct names).length * u + 1 := by
  have hnames : Summary.inlinedNames (Summary.standard names trip) = Label.distinct names := by
    cases trip <;> simp [Summary.inlinedNames, Summary.standard]
  rw [Environment.nestingBound, h.summaries, h.unroll, hnames]
  rfl

/-- A callee that is inlined is one of the names, and few of its activations are open. -/
theorem inlined (h : Nests e names trip u σ) {sub : Sub}
    (hresolve : σ.env.resolve sub = .ok (.inline names')) : ∃ l, sub.name.label = .ok l ∧
      l.isAmong names = true ∧ e.depth l < u := by
  obtain ⟨hmem, l, hl, hamong, -, habove⟩ := Environment.inline_of_resolve hresolve
  have hnames : names' = names := by
    rw [h.summaries] at hmem
    cases trip <;> simpa [Summary.standard] using hmem
  refine ⟨l, hl, hnames ▸ hamong, ?_⟩
  rw [h.unroll, h.depth] at habove
  simpa [boundAbove] using habove

theorem opened (h : Nests e names trip u σ) :
    Nests (e.opened l) names trip u { σ with env := σ.env.opened l } :=
  ⟨h.summaries, h.unroll, h.subs, fun l' => by
    rw [Environment.depth_opened, Environment.depth_opened, h.depth]⟩

theorem closed (h : Nests (e.opened l) names trip u σ) :
    Nests e names trip u { σ with env := σ.env.closed l } := by
  refine ⟨h.summaries, h.unroll, h.subs, fun l' => ?_⟩
  rw [Environment.depth_closed, h.depth, Environment.depth_opened]
  split <;> rfl

end Session.Nests

open Session (Nests)

variable {names names' : List Label} {trip : Bool} {u : Nat}

section Reads

variable {α : Type} {I : Session → Prop} {act : Build α}

theorem agrees_get_right {f : Session → Build α} (h : ∀ σ, I σ → act.Agrees I (f σ)) :
    act.Agrees I (get >>= f) :=
  fun σ hσ => h σ hσ σ hσ

theorem agrees_env_left {f : Environment → Build α} (h : ∀ σ, I σ → (f σ.env).Agrees I act) :
    (Build.env >>= f).Agrees I act :=
  fun σ hσ => h σ hσ σ hσ

end Reads

/-- Inlined bodies agree if their walks do with one more activation. -/
theorem agrees_inline {walk walk' : Constraint → Sub → Build Constraint} {e : Environment}
    {sub : Sub} {l : Label} {post : Constraint} (hl : sub.name.label = .ok l)
    (hwalk : (walk post sub).Agrees (Nests (e.opened l) names trip u) (walk' post sub))
    (tid : Json) :
    (Build.summarize walk post sub tid (.inline names')).Agrees (Nests e names trip u)
      (Build.summarize walk' post sub tid (.inline names')) := by
  intro σ hσ
  obtain ⟨hsame, hkept⟩ := hwalk _ hσ.opened
  have hrun : ∀ walk : Constraint → Sub → Build Constraint,
      Id.run ((Build.summarize walk post sub tid (.inline names')).run.run σ) =
        ((Id.run ((walk post sub).run.run { σ with env := σ.env.opened l })).1,
          { (Id.run ((walk post sub).run.run { σ with env := σ.env.opened l })).2 with
            env := (Id.run ((walk post sub).run.run { σ with env := σ.env.opened l })).2.env.closed
              l }) := by
    intro walk
    simp only [Build.summarize, hl]
    rfl
  rw [hrun, hrun, ← hsame]
  exact ⟨rfl, hkept.closed⟩

/-- What a watch has to expect: few activations in all, and few of each callee. -/
def Watch.Allows (watch : Watch) (total u : Nat) : Prop :=
  ∀ n σ, n ≤ total → (∀ l, σ.env.depth l ≤ u) → watch.fine n σ = true

/-- **The walk of a body is the watched one**, with as many activations allowed as there is room
for: every nested one takes from it. -/
theorem agrees_watchedWithin {watch : Watch} {total : Nat} (hallows : watch.Allows total u)
    {bound bound' nested : Nat} {e : Environment} (hdepth : ∀ l, e.depth l ≤ u)
    (hbound : e.room names u < bound) (hbound' : e.room names u < bound')
    (hnested : nested + e.room names u ≤ total) (post : Constraint) {sub : Sub}
    (hgive : watch.giveUp = throw .endlessWalk ∨
      sub.Acyclic (.int u) ∧ ∀ callee ∈ e.subs, callee.Acyclic (.int u)) :
    (preconditionWithin bound post sub).Agrees (Nests e names trip u)
      (watchedWithin watch bound' nested post sub) := by
  induction bound generalizing bound' nested e post sub with
  | zero => omega
  | succ bound ih =>
    obtain _ | bound' := bound'
    · omega
    refine agrees_get_right fun σ hσ => ?_
    rw [if_pos (hallows _ _ (by omega) fun l => hσ.depth l ▸ hdepth l), preconditionWithin]
    split
    · exact (preserves_pure _).agrees
    refine agrees_lift_bind fun f hf => ?_
    -- the inlined bodies agree, with less room
    have hinline : ∀ {σ : Session} {name : String} {callee : Sub} {names' : List Label},
        Nests e names trip u σ → σ.env.findSub? name = some callee →
        callee.Within (fun _ => True) (fun _ => True) →
        σ.env.resolve callee = .ok (.inline names') → ∀ post tid,
          (Build.summarize (preconditionWithin bound) post callee tid (.inline names')).Agrees
            (Nests e names trip u)
            (Build.summarize (watchedWithin watch bound' (nested + 1)) post callee tid
              (.inline names')) := by
      intro σ name callee names' hσ hfind _ hresolve post tid
      obtain ⟨l, hl, hamong, hlt⟩ := hσ.inlined hresolve
      have hless := Environment.room_opened_lt hamong hlt
      have hmem : callee ∈ e.subs :=
        hσ.subs ▸ List.mem_reverse.mp (List.mem_of_find?_eq_some hfind)
      refine agrees_inline hl (ih (fun l' => ?_) (by omega) (by omega) (by omega) post
        (hgive.imp_right fun h => ⟨h.2 callee hmem, h.2⟩)) tid
      rw [Environment.depth_opened]
      split
      · next hsame =>
        rw [← Environment.depth_congr hsame]
        exact hlt
      · exact hdepth l'
    have hsteady := Nests.steady e names trip u
    have hwithin : sub.Within (fun _ => True) fun _ => True :=
      ⟨fun _ _ _ _ => True.intro, fun _ _ _ _ _ _ _ => True.intro⟩
    refine (hsteady.agrees_run (w := ⟨f, post, _⟩) hinline (hwithin.graph hf)).trans
      (Walker.agrees_runOr (fun σ hσ => hσ.unroll) (fun k => ?_)
        (hgive.imp_right fun h => h.1 f hf))
    refine hsteady.agrees_build (w := ⟨f, post, _⟩) (fun hσ hfind hcallee hresolve post tid => ?_)
      (hwithin.graph hf) k
    have hsame := hinline hσ hfind hcallee hresolve post tid
    exact hsame.symm.trans hsame

/-- **Activations are bounded and balanced**: with the usual summaries and no activation open, all
activations are closed when the walk of a subroutine ends, in a fault or not.  At no body that it
comes to, more activations of a callee are open than the bound on repetitions allows, or more in all
than all names together may have: a walk that is watched for that, and stops where it is not so, is
the same.  If no key of any body needs itself, neither bound on the walk is ever reached, that on
nested bodies and that on waiting keys. -/
theorem nested_activations_bounded {σ : Session} (post : Constraint) (sub : Sub)
    (hsummaries : σ.env.summaries = Summary.standard names trip)
    (hunroll : σ.env.unroll = .int u) (hdepths : ∀ l, σ.env.depth l = 0) :
    (∀ l, (Id.run ((precondition post sub).run.run σ)).2.env.depth l = 0) ∧
      ∀ (watch : Watch) (bound : Nat), watch.Allows ((Label.distinct names).length * u) u →
        (Label.distinct names).length * u < bound →
        (watch.giveUp = throw .endlessWalk ∨
          sub.Acyclic (.int u) ∧ ∀ callee ∈ σ.env.subs, callee.Acyclic (.int u)) →
        Id.run ((precondition post sub).run.run σ) =
          Id.run ((watchedWithin watch bound 0 post sub).run.run σ) := by
  -- a walk with enough room never comes to what the watch forbids
  have hagrees : ∀ (watch : Watch) (bound : Nat),
      watch.Allows ((Label.distinct names).length * u) u →
      (Label.distinct names).length * u < bound →
      (watch.giveUp = throw .endlessWalk ∨
        sub.Acyclic (.int u) ∧ ∀ callee ∈ σ.env.subs, callee.Acyclic (.int u)) →
      (precondition post sub).Agrees (Nests σ.env names trip u)
        (watchedWithin watch bound 0 post sub) := by
    intro watch bound hallows hbound hgive
    have hroom : σ.env.room names u = (Label.distinct names).length * u :=
      Environment.room_of_closed hdepths
    refine agrees_env_left fun τ hτ => ?_
    rw [hτ.nestingBound_eq]
    exact agrees_watchedWithin hallows (fun l => by rw [hdepths]; omega) (by omega) (by omega)
      (by omega) post hgive
  have hσ : Nests σ.env names trip u σ := ⟨hsummaries, hunroll, rfl, fun _ => rfl⟩
  refine ⟨fun l => ?_, fun watch bound hallows hbound hgive =>
    (hagrees watch bound hallows hbound hgive σ hσ).1⟩
  -- that activations are closed again is seen with a watch that allows everything
  obtain ⟨-, hkept⟩ := hagrees ⟨fun _ _ => true, throw .endlessWalk, throw .endlessWalk⟩ _
    (fun _ _ _ _ => rfl) (Nat.lt_succ_self _) (.inl rfl) σ hσ
  rw [hkept.depth, hdepths]

def Blk.calling (callee : String) : Blk where
  tid := .str "only"
  jmps := [{ tid := .str "call", kind := .call, target := .str callee }]

/-- A body that does nothing but call another. -/
def Sub.calling (name callee : String) : Sub where
  name := .str name
  blks := [.calling callee]

theorem Sub.acyclic_calling (name callee : String) (unroll : Json) :
    (calling name callee).Acyclic unroll := by
  intro f hf k _ hcycle
  have hflow : (calling name callee).flow =
      .ok ⟨.str name, [⟨.text "only", .calling callee, []⟩], []⟩ := rfl
  cases hflow.symm.trans hf
  -- the only block has no successor
  obtain ⟨k', hneeds, -⟩ := Relation.TransGen.head'_iff.mp hcycle
  obtain ⟨-, n, hnode, l, hl, -⟩ := Flow.needs_iff.mp hneeds
  obtain rfl := List.mem_singleton.mp (List.mem_of_find?_eq_some hnode)
  have hnone : Graph.successors [⟨.text "only", .calling callee, []⟩]
      ⟨.text "only", .calling callee, []⟩ = [] := rfl
  rw [hnone] at hl
  cases hl

def mutualEnv : Environment where
  arch := { name := "small", addressWidth := 8 }
  subs := [.calling "even" "odd", .calling "odd" "even"]
  summaries := Summary.standard [.text "even", .text "odd"] false
  unroll := .int 2

/-- Two bodies that call each other, with two activations of each. -/
theorem nested_activations_bounded_mutual :
    mutualEnv.summaries = Summary.standard [.text "even", .text "odd"] false ∧
      mutualEnv.unroll = .int 2 ∧ (∀ l, mutualEnv.depth l = 0) ∧
      (∀ l, (Id.run ((precondition (.goal 0 "never" (.lit false)) (.calling "even" "odd")).run.run
        ⟨{}, mutualEnv⟩)).2.env.depth l = 0) ∧
      ∀ watch : Watch, watch.Allows 4 2 →
        Id.run ((precondition (.goal 0 "never" (.lit false)) (.calling "even" "odd")).run.run
            ⟨{}, mutualEnv⟩) =
          Id.run ((watchedWithin watch 5 0 (.goal 0 "never" (.lit false))
            (.calling "even" "odd")).run.run ⟨{}, mutualEnv⟩) := by
  obtain ⟨hclosed, hwatched⟩ := nested_activations_bounded (σ := ⟨{}, mutualEnv⟩) (u := 2)
    (.goal 0 "never" (.lit false)) (.calling "even" "odd") rfl rfl fun _ => rfl
  refine ⟨rfl, rfl, fun _ => rfl, hclosed, fun watch hallows => ?_⟩
  refine hwatched watch 5 hallows (by decide) (.inr ⟨Sub.acyclic_calling _ _ _, ?_⟩)
  simp [mutualEnv, Sub.acyclic_calling]

end Antecedent
