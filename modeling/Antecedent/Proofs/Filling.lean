import Antecedent.Proofs.Making
import Antecedent.Proofs.Parallel

/-!
# The condition on exit is not looked at

A walk puts the condition on exit at the ends of paths and never asks what it says.  So a walk with
a gap in its place gives a tree with gaps, and the precondition of any condition is that tree with
its gaps filled.

* `Constraint.gap` is a tree that no builder makes, and `Constraint.fill` puts another one there.
* `ends_precondition_fill` says that gaps can be filled before a walk or after it.
-/

namespace Antecedent

/-! ## §1 Trees with gaps -/

namespace Constraint

/-- A change of trees that goes down to the ends of paths: it leaves the nodes alone that builders
make. -/
structure AtEnds (g : Constraint → Constraint) : Prop where
  goal : ∀ i name f, g (.goal i name f) = .goal i name f
  ite : ∀ i name cond yes no, g (.ite i name cond yes no) = .ite i name cond (g yes) (g no)
  clause : ∀ i hyps concls, concls ≠ [] →
    g (.clause i hyps concls) = .clause i (hyps.map g) (concls.map g)
  subst : ∀ i body pairs, g (.subst i body pairs) = .subst i (g body) pairs

/-- A gap: a clause that concludes nothing from nothing. -/
def gap : Constraint :=
  .clause 0 [] []

mutual
/-- The tree with another one in the place of every gap. -/
def fill (p : Constraint) : Constraint → Constraint
  | .goal i name f => .goal i name f
  | .ite i name cond yes no => .ite i name cond (fill p yes) (fill p no)
  | .clause i hyps concls =>
    if hyps.isEmpty && concls.isEmpty then p else .clause i (fillAll p hyps) (fillAll p concls)
  | .subst i body pairs => .subst i (fill p body) pairs
/-- The trees of a list with another one in the place of every gap. -/
def fillAll (p : Constraint) : List Constraint → List Constraint
  | [] => []
  | c :: cs => fill p c :: fillAll p cs
end

variable {p : Constraint}

theorem fillAll_eq_map (cs : List Constraint) : fillAll p cs = cs.map (fill p) := by
  induction cs with
  | nil => rfl
  | cons c cs ih => rw [fillAll, ih, List.map_cons]

@[simp] theorem fill_gap : fill p gap = p := by
  rw [gap, fill]
  rfl

theorem atEnds_fill (p : Constraint) : AtEnds (fill p) where
  goal i name f := by rw [fill]
  ite i name cond yes no := by rw [fill]
  clause i hyps concls hne := by
    have hempty : concls.isEmpty = false := by simpa using hne
    rw [fill, hempty, Bool.and_false, if_neg Bool.false_ne_true, fillAll_eq_map, fillAll_eq_map]
  subst i body pairs := by rw [fill]

/-- A relation of trees that goes up to all nodes that builders make. -/
structure Congruent (R : Constraint → Constraint → Prop) : Prop where
  goal : ∀ i name f, R (.goal i name f) (.goal i name f)
  ite : ∀ i name cond {yes yes' no no'}, R yes yes' → R no no' →
    R (.ite i name cond yes no) (.ite i name cond yes' no')
  clause : ∀ i {hyps hyps' concls concls'}, concls ≠ [] → List.Forall₂ R hyps hyps' →
    List.Forall₂ R concls concls' → R (.clause i hyps concls) (.clause i hyps' concls')
  subst : ∀ i pairs {body body'}, R body body' → R (.subst i body pairs) (.subst i body' pairs)

theorem AtEnds.congruent {g : Constraint → Constraint} (hg : AtEnds g) :
    Congruent fun c c' => g c = c' where
  goal := hg.goal
  ite i name cond _ _ _ _ hyes hno := by rw [hg.ite, hyes, hno]
  clause i _ _ _ _ hne hhyps hconcls := by
    have hmap : ∀ {cs cs' : List Constraint}, List.Forall₂ (fun c c' => g c = c') cs cs' →
        cs.map g = cs' := fun h => by
      rwa [← List.forall₂_map_left_iff, List.forall₂_eq_eq_eq] at h
    rw [hg.clause _ _ _ hne, hmap hhyps, hmap hconcls]
  subst i pairs _ _ hbody := by rw [hg.subst, hbody]

theorem Congruent.swap {R : Constraint → Constraint → Prop} (hR : Congruent R) :
    Congruent fun c c' => R c' c where
  goal := hR.goal
  ite i name cond _ _ _ _ hyes hno := hR.ite i name cond hyes hno
  clause i _ _ _ _ hne hhyps hconcls :=
    hR.clause i (fun hnil => hne (by simpa [hnil] using hconcls)) hhyps.flip hconcls.flip
  subst i pairs _ _ hbody := hR.subst i pairs hbody

end Constraint

/-! ## §2 Builders -/

def Link.same : Link where
  Linked p := p.1 = p.2
  Later _ _ := True
  refl _ := True.intro
  trans _ _ := True.intro

namespace Build

variable {α β : Type} {p : Session × Session}

theorem follows_self (act : Build α) : Follows .same act act p fun _ a b => a = b := by
  intro hlinked b τ hends
  exact ⟨b, τ, (show p.1 = p.2 from hlinked) ▸ hends, True.intro, rfl, rfl⟩

theorem follows_self_bind {act : Build α} {f f' : α → Build β}
    {Q : Session × Session → β → β → Prop} (h : ∀ a q, Follows .same (f a) (f' a) q Q) :
    Follows .same (act >>= f) (act >>= f') p Q :=
  (follows_self act).bind fun a _ q _ hab => hab ▸ h a q

theorem mem_of_ends_flatMapM {f : α → Build (List β)} {as : List α} {bs : List β}
    {σ σ' : Session} (h : (as.flatMapM f).Ends σ bs σ') {b : β} (hb : b ∈ bs) :
    ∃ a τ found τ', (f a).Ends τ found τ' ∧ b ∈ found := by
  induction as generalizing σ σ' bs with
  | nil =>
    obtain ⟨rfl, -⟩ := ends_pure.mp h
    cases hb
  | cons a as ih =>
    rw [List.flatMapM_cons] at h
    obtain ⟨found, τ, hfound, h⟩ := ends_bind.mp h
    obtain ⟨rest, τ', hrest, h⟩ := ends_bind.mp h
    obtain ⟨rfl, -⟩ := ends_pure.mp h
    rcases List.mem_append.mp hb with hb | hb
    · exact ⟨a, σ, found, τ, hfound, hb⟩
    · exact ih hrest hb

theorem mem_of_ends_filterMapM {f : α → Build (Option β)} {as : List α} {bs : List β}
    {σ σ' : Session} (h : (as.filterMapM f).Ends σ bs σ') {b : β} (hb : b ∈ bs) :
    ∃ a τ τ', (f a).Ends τ (some b) τ' := by
  rw [List.filterMapM_eq_flatMapM] at h
  obtain ⟨a, τ, found, τ', hfound, hb⟩ := mem_of_ends_flatMapM h hb
  obtain ⟨r, hr, rfl⟩ := ends_map.mp hfound
  exact ⟨a, τ, τ', Option.mem_toList.mp hb ▸ hr⟩

theorem exists_goal_of_hookGoal {a : Access} {hook : Hook} {d : Duty} {c : Constraint}
    {σ σ' : Session} (h : (hookGoal a hook).Ends σ (some (d, c)) σ') :
    ∃ i name f, c = .goal i name f := by
  cases hook with
  | nonNull kind duty =>
    simp only [hookGoal] at h
    split at h
    · cases (ends_pure.mp h).1
    · simp only [goal, ends_bind, ends_pure] at h
      grind
  | sameAs memory map =>
    simp only [hookGoal] at h
    split at h
    · cases (ends_pure.mp h).1
    · simp only [goal, ends_bind, ends_pure] at h
      grind

variable {R : Constraint → Constraint → Prop} (hR : Constraint.Congruent R)
  {c c' : Constraint}
include hR

theorem follows_goal (name : String) (f : Term) :
    Follows .same (goal name f) (goal name f) p fun _ => R :=
  follows_self_bind fun i _ => follows_pure (hR.goal i name f)

theorem follows_branch_of_congruent {name : Json} {cond : Term} {no no' : Constraint} (hc : R c c')
    (hno : R no no') :
    Follows .same (branch name cond c no) (branch name cond c' no') p fun _ => R := by
  unfold branch
  split
  · exact follows_pure hc
  · exact follows_pure hno
  · exact follows_self_bind fun i _ => follows_pure (hR.ite i name _ hc hno)

theorem follows_substitution_of_congruent {olds news : List Term} (hc : R c c') :
    Follows .same (substitution c olds news) (substitution c' olds news) p fun _ => R := by
  unfold substitution
  split
  · exact follows_throw
  · split
    · exact follows_pure hc
    · exact follows_self_bind fun i _ => follows_pure (hR.subst i _ hc)

/-- **Guards** stand before the condition that they guard. -/
theorem follows_guarded_of_congruent (hc : R c c') (accesses : List Access) :
    Follows .same (guarded c accesses) (guarded c' accesses) p fun _ => R := by
  refine (follows_self _).ends.bind fun found _ q _ hfound => ?_
  obtain ⟨hends, rfl⟩ := hfound
  -- what is found for accesses are goals, which every such relation keeps
  have hgoals : ∀ duty, List.Forall₂ R
      (found.filterMap fun q => if q.1 = duty then some q.2 else none)
      (found.filterMap fun q => if q.1 = duty then some q.2 else none) := by
    intro duty
    refine List.forall₂_same.mpr fun x hx => ?_
    obtain ⟨⟨d, g⟩, hmem, hg⟩ := List.mem_filterMap.mp hx
    obtain rfl : g = x := by grind
    obtain ⟨a, τ, found', τ', hfound', hmem⟩ := mem_of_ends_flatMapM hends hmem
    obtain ⟨_, _, -, hfound'⟩ := ends_bind.mp hfound'
    obtain ⟨hook, υ, υ', hhook⟩ := mem_of_ends_filterMapM hfound' hmem
    obtain ⟨i, name, f, rfl⟩ := exists_goal_of_hookGoal hhook
    exact hR.goal i name f
  dsimp only
  split
  · exact follows_pure hc
  · exact follows_self_bind fun i _ => follows_pure
      (hR.clause i (by simp) (hgoals .assume) (List.rel_append (hgoals .verify) (.cons hc .nil)))

theorem follows_definition_of_congruent (hc : R c c') (d : Def) :
    Follows .same (definition c d) (definition c' d) p fun _ => R := by
  refine follows_self_bind fun ⟨rhs, accesses⟩ _ => follows_self_bind fun lhs _ => ?_
  exact (follows_substitution_of_congruent hR hc).bind fun _ _ _ _ hc =>
    follows_guarded_of_congruent hR hc accesses

theorem follows_havoc {callee : Sub} {registers functional : List String} (hc : R c c') :
    Follows .same (havoc c callee registers functional) (havoc c' callee registers functional) p
      fun _ => R :=
  follows_self_bind fun _ _ => follows_self_bind fun _ _ => follows_substitution_of_congruent hR hc

/-- **Calls** pass the condition after the call on, whatever summary covers the callee. -/
theorem follows_summarize {walk walk' : Constraint → Sub → Build Constraint} {callee : Sub}
    (hwalk : ∀ {c c' p}, R c c' → Follows .same (walk c callee) (walk' c' callee) p fun _ => R)
    (hc : R c c') (tid : Json) (s : Summary) :
    Follows .same (summarize walk c callee tid s) (summarize walk' c' callee tid s) p
      fun _ => R := by
  cases s with
  | error => exact follows_goal hR _ _
  | assume =>
    refine follows_self_bind fun e _ => ?_
    split
    · exact follows_pure hc
    · refine follows_self_bind fun arg _ => follows_self_bind fun w _ =>
        follows_self_bind fun nonzero _ => (follows_goal hR _ _).bind fun hyp hyp' _ _ hhyp => ?_
      exact follows_self_bind fun i _ =>
        follows_pure (hR.clause i (by simp) (.cons hhyp .nil) (.cons hc .nil))
  | nondet => exact follows_self_bind fun rs _ => follows_havoc hR hc
  | instrumentation => exact follows_havoc hR hc
  | inline names =>
    -- the activation is opened and closed in the same way on both sides
    obtain ⟨σ, σ'⟩ := p
    intro hlinked d υ hends
    obtain rfl : σ = σ' := hlinked
    obtain ⟨l, τ, hl, hwalked, rfl⟩ := ends_inline.mp hends
    obtain ⟨d', τ', hbody, -, hsame, hd⟩ := hwalk (p := (_, _)) hc rfl d τ hwalked
    obtain rfl : τ' = τ := hsame
    exact ⟨d', _, ends_inline.mpr ⟨l, τ', hl, hbody, rfl⟩, True.intro, rfl, hd⟩
  | empty => exact follows_pure hc
  | arguments =>
    exact follows_self_bind fun inputs _ => follows_self_bind fun e _ =>
      follows_self_bind fun pairs _ => follows_substitution_of_congruent hR hc
  | clobber =>
    exact follows_self_bind fun e _ => follows_self_bind fun rs _ => follows_havoc hR hc
  | result => exact follows_self_bind fun rs _ => follows_havoc hR hc

end Build

/-! ## §3 Walks -/

section Walks

variable {R : Constraint → Constraint → Prop} (hR : Constraint.Congruent R)
include hR

theorem Walker.parallel_of_congruent {w w' : Walker} (hflow : w'.flow = w.flow)
    (hpost : R w.post w'.post)
    (hinline : ∀ {c c' p} sub, R c c' →
      Build.Follows .same (w.inline c sub) (w'.inline c' sub) p fun _ => R) :
    w.Parallel .same (fun _ => R) (fun _ => True) w' where
  flow := hflow
  unroll hlinked := by rw [show _ = _ from hlinked]
  stays _ _ := True.intro
  mono _ hc := hc
  post _ := hpost
  definition _ _ _ hc := Build.follows_definition_of_congruent hR hc _
  call _ _ _ _ hc := Build.follows_self_bind fun name _ => Build.follows_self_bind fun flag _ =>
    (Build.follows_substitution_of_congruent hR hc).bind fun _ _ _ _ hc =>
      Build.follows_self_bind fun e _ => Build.follows_self_bind fun s _ =>
        Build.follows_summarize hR (hinline _) hc _ s
  jump _ _ _ hc hdest := by
    have hlift : ∀ {α : Type} {act act' : Build α} {p} {Q : Session × Session → α → α → Prop},
        Build.Follows .same act act' p Q →
        Walking.Follows .same (fun _ => R) (liftM act) (liftM act') p Q :=
      Walking.follows_lift fun _ hc => hc
    refine (hlift (Build.follows_self _)).bind fun r _ q hlater hr => ?_
    subst hr
    dsimp only
    split
    · exact hlift (Build.follows_guarded_of_congruent hR hc _)
    · refine (hdest hlater).bind fun _ _ _ _ htaken => ?_
      refine (hlift (Build.follows_branch_of_congruent hR htaken hc)).bind fun _ _ _ _ hc => ?_
      exact hlift (Build.follows_guarded_of_congruent hR hc _)
  cut := by
    refine Build.follows_self_bind fun e _ => ?_
    rw [hflow]
    split
    · exact Build.follows_self_bind fun _ _ => Build.follows_self_bind fun _ _ =>
        Build.follows_goal hR _ _
    · exact Build.follows_goal hR _ _

/-- **A walk does not look at the condition on exit**: trees that go together before the walk do so
after it. -/
theorem follows_precondition_of_congruent {post post' : Constraint} (hpost : R post post')
    (sub : Sub) {p : Session × Session} :
    Build.Follows .same (precondition post sub) (precondition post' sub) p fun _ => R := by
  refine Build.follows_self_bind fun e p => ?_
  induction e.nestingBound generalizing post post' sub p with
  | zero => exact Build.follows_throw
  | succ bound ih =>
    rw [preconditionWithin, preconditionWithin]
    split
    · exact Build.follows_pure hpost
    · refine Build.follows_self_bind fun f q => ?_
      have hparallel : (Walker.mk f post (preconditionWithin bound)).Parallel .same (fun _ => R)
          (fun _ => True) ⟨f, post', preconditionWithin bound⟩ :=
        Walker.parallel_of_congruent hR rfl hpost fun sub hc => ih hc sub _
      exact hparallel.run True.intro

end Walks

/-- The precondition of a condition is what the walk with a gap gives, with the gaps filled. -/
theorem ends_precondition_fill {post pre : Constraint} {sub : Sub} {σ σ' : Session} :
    (precondition post sub).Ends σ pre σ' ↔
      ∃ K, (precondition Constraint.gap sub).Ends σ K σ' ∧ Constraint.fill post K = pre := by
  have hR := (Constraint.atEnds_fill post).congruent
  constructor
  · intro hends
    obtain ⟨K, τ, hK, -, hsame, hfill⟩ :=
      follows_precondition_of_congruent hR Constraint.fill_gap sub (p := (σ, σ)) rfl _ _ hends
    obtain rfl : τ = σ' := hsame
    exact ⟨K, hK, hfill⟩
  · rintro ⟨K, hK, rfl⟩
    obtain ⟨pre, τ, hends, -, hsame, hfill⟩ :=
      follows_precondition_of_congruent hR.swap Constraint.fill_gap sub (p := (σ, σ)) rfl _ _ hK
    obtain rfl : τ = σ' := hsame
    exact hfill ▸ hends

end Antecedent
