import Antecedent.Proofs.Accounting
import Antecedent.Proofs.Completion

/-!
# Malformed flow

A graph is malformed if a path from the entry comes to a label without a block, or to a block with a
`goto` that leads to nothing and may be taken.  The walk says so exactly then, and otherwise returns
a condition.

* `Flow.Closed` is the invariant of the table, and `Walker.Typed.completes_visit` keeps it.
* `Flow.Closed.not_malformed` says what a closed table shows about the graph.
* `malformedFlow_iff` is the result.
-/

namespace Antecedent

open ExceptT (meets_pure)
open Relation (ReflTransGen)

/-! ## §1 Malformed graphs -/

namespace Graph

def Succeeds (g : Graph) (u v : Label) : Prop :=
  ∃ n, g.node? u = some n ∧ v ∈ g.successors n

/-- Whether a label is that of the entry, or follows a block that can be reached. -/
def Reachable (g : Graph) (l : Label) : Prop :=
  ∃ n rest, g = n :: rest ∧ ReflTransGen g.Succeeds n.label l

end Graph

/-- Whether a `goto` leads to nothing, and its condition does not fold to false. -/
def Jmp.Dangling (e : Environment) (j : Jmp) : Prop :=
  j.kind = .goto ∧ j.target = .null ∧ j.folded? e ≠ some false

namespace Graph

variable {e : Environment} {g : Graph}

/-- Whether a label that can be reached has no block, or a block that can be reached has a dangling
jump. -/
def Malformed (e : Environment) (g : Graph) : Prop :=
  (∃ l, g.Reachable l ∧ g.node? l = none) ∨
    ∃ l n, g.Reachable l ∧ g.node? l = some n ∧ ∃ j ∈ n.block.jmps, j.Dangling e

/-- Whether a label has a block without dangling jumps. -/
def Intact (e : Environment) (g : Graph) (l : Label) : Prop :=
  ∃ n, g.node? l = some n ∧ ∀ j ∈ n.block.jmps, ¬j.Dangling e

theorem not_malformed (h : ∀ l, g.Reachable l → g.Intact e l) : ¬g.Malformed e := by
  rintro (⟨l, hl, hnone⟩ | ⟨l, n, hl, hn, j, hj, hdangling⟩)
  · obtain ⟨n, hn, -⟩ := h l hl
    cases hnone.symm.trans hn
  · obtain ⟨m, hm, hall⟩ := h l hl
    cases hm.symm.trans hn
    exact hall j hj hdangling

end Graph

theorem Flow.Reaches.reachable {f : Flow} {unroll : Json} {k : Key} (h : f.Reaches unroll k) :
    f.graph.Reachable k.label := by
  obtain ⟨n, rest, hg, hpath⟩ := h
  refine ⟨n, rest, hg, hpath.lift Key.label fun k k' hneeds => ?_⟩
  obtain ⟨-, m, hm, l, hl, rfl⟩ := Flow.needs_iff.mp hneeds
  exact ⟨m, hm, hl⟩

/-- A fault reports that a graph is malformed, and rightly so. -/
def Fault.Reports (e : Environment) (g : Graph) (f : Fault) : Prop :=
  f.family = .malformedFlow ∧ g.Malformed e

/-! ## §2 Blocks -/

namespace Walker

variable {e : Environment} {Γ : String → Srt} {E : Fault → Prop} {sub : Sub} {w : Walker}
  {counts : Counts} {m : Memo} {n : Node} {j : Jmp} {k : Key} {u : Nat}

/-- A walker has what the walk of a well-formed subroutine needs. -/
structure Typed (e : Environment) (Γ : String → Srt) (sub : Sub) (w : Walker) : Prop where
  start : Session.Types e Γ True ⟨{}, e⟩
  hooks : ∀ hook ∈ e.hooks, hook.Typed e Γ
  formed : sub.Formed e Γ
  apart : ∀ b ∈ sub.blks, ∀ j ∈ b.jmps, j.kind = .goto → j.target = .null → j.cond.Apart e
  wired : w.flow.graph.Wired sub

/-- A walk with a given table ends with a property, or in a fault that reports a malformed graph. -/
def Completes {α : Type} (e : Environment) (Γ : String → Srt) (w : Walker) (m : Memo)
    (act : Walking α) (Q : α × Memo → Prop) : Prop :=
  Walking.Meets (Session.Types e Γ True) (Fault.Reports e w.flow.graph) m act Q

/-- A look-up of a text finds a key of the table. -/
theorem completes_entry {s : String} (h : w.flow.key (.text s) counts ∈ m.keys) :
    w.Completes e Γ m (w.entry (.text s) counts) (Walking.Unchanged m True) := by
  refine Walking.meets_get_bind ?_
  rw [Graph.resolve, Label.among_text]
  obtain ⟨c, hc⟩ := Option.isSome_iff_exists.mp (Memo.lookup_isSome.mpr h)
  rw [hc]
  exact Walking.meets_pure ⟨rfl, True.intro⟩

/-- The keys of all blocks that may follow a block are in a table. -/
def Follows (w : Walker) (n : Node) (counts : Counts) (m : Memo) : Prop :=
  ∀ l ∈ w.flow.graph.successors n, w.flow.key l counts ∈ m.keys

variable (hw : w.Typed e Γ sub) (hreach : w.flow.graph.Reachable k.label)
  (hn : w.flow.graph.node? k.label = some n) (hkeys : w.Follows n counts m)
include hw hreach hn hkeys

/-- **The destination of a jump** is found, unless the jump leads to nothing. -/
theorem Typed.completes_destination (hj : j ∈ n.block.jmps)
    (hcond : j.kind = .goto → j.target = .null → j.folded? e ≠ some false) :
    w.Completes e Γ m (w.destination j counts) (Walking.Unchanged m (¬j.Dangling e)) := by
  have hmem := (Graph.mem_labels_of_node? hn).1
  have hb := hw.wired.block n hmem
  have hentry : ∀ dest, j.successor? = some dest → ∃ s, dest = .str s ∧
      w.Completes e Γ m (w.entry (.text s) counts) (Walking.Unchanged m True) := by
    intro dest hdest
    obtain ⟨s, rfl, hs⟩ := hw.wired.leads n hmem j hj dest hdest
    exact ⟨s, rfl, completes_entry (hkeys _ (List.mem_append_left _ hs))⟩
  unfold destination
  split
  · next hkind =>
    rcases (hw.formed.targets _ hb j hj).1 with htarget | ⟨s, hne, htarget⟩
    · rw [htarget]
      exact Walking.meets_throw
        ⟨rfl, .inr ⟨k.label, n, hreach, hn, j, hj, hkind, htarget, hcond hkind htarget⟩⟩
    · obtain ⟨_, heq, hs⟩ :=
        hentry (.str s) (by simp [Jmp.successor?, hkind, htarget, Json.truthy, hne])
      cases heq
      rw [htarget]
      refine Walking.meets_ok_bind rfl (ExceptT.Meets.mono hs fun r hr => ⟨hr.1, ?_⟩)
      rintro ⟨-, hnull, -⟩
      cases htarget.symm.trans hnull
  · next hkind => exact Walking.meets_pure ⟨rfl, fun h => by cases hkind.symm.trans h.1⟩
  · next hkind => exact absurd hkind (hw.formed.calls _ hb j hj)
  · next hkind =>
    -- an interrupt resumes at its return block, if it has one
    have hafter : ∀ c : Constraint, w.Completes e Γ m
        (if j.kind = .int then pure c else liftM (w.call j c))
        (Walking.Unchanged m (¬j.Dangling e)) := by
      intro c
      rw [if_pos hkind]
      exact Walking.meets_pure ⟨rfl, fun h => by cases hkind.symm.trans h.1⟩
    by_cases htruthy : j.returnTo.truthy = true
    · obtain ⟨s, hs, hentered⟩ := hentry j.returnTo (by simp [Jmp.successor?, hkind, htruthy])
      rw [if_pos htruthy, hs]
      refine Walking.meets_ok_bind rfl (Walking.Meets.bind hentered fun c m' hr => ?_)
      obtain ⟨rfl, -⟩ := hr
      exact hafter c
    · rw [if_neg htruthy]
      exact hafter w.post

theorem Typed.completes_jump (hj : j ∈ n.block.jmps) (otherwise : Constraint) :
    w.Completes e Γ m (w.jump counts j otherwise) (Walking.Unchanged m (¬j.Dangling e)) := by
  have hb := hw.wired.block n (Graph.mem_labels_of_node? hn).1
  obtain ⟨width, hcond⟩ := hw.formed.conds _ hb j hj
  have hapart := hw.apart _ hb j hj
  refine Walking.meets_lift_bind (Jmp.meets_condition hcond hw.start) fun p hp => ?_
  obtain ⟨cond, accesses⟩ := p
  dsimp only
  split
  · next hfalse =>
    refine Walking.meets_lift (Build.completes_guarded hw.hooks hp.2) fun _ _ => ⟨rfl, fun h => ?_⟩
    exact h.2.2 ((hp.1 (hapart h.1 h.2.1)).mp (Term.isFalse_iff.mp hfalse))
  · next hother =>
    refine Walking.Meets.bind (hw.completes_destination hreach hn hkeys hj
      fun hkind htarget hfold => hother (Term.isFalse_iff.mpr
        ((hp.1 (hapart hkind htarget)).mpr hfold))) fun taken m' hr => ?_
    obtain ⟨rfl, hwell⟩ := hr
    refine Walking.meets_lift_bind (Build.completes_branch _ _ _ _) fun c _ => ?_
    exact Walking.meets_lift (Build.completes_guarded hw.hooks hp.2) fun _ _ => ⟨rfl, hwell⟩

/-- **A block is built if the table has what may follow it**, unless it has a dangling jump. -/
theorem Typed.completes_block :
    w.Completes e Γ m (w.block n counts)
      (Walking.Unchanged m (∀ j ∈ n.block.jmps, ¬j.Dangling e)) := by
  have hmem := (Graph.mem_labels_of_node? hn).1
  -- definitions are never refused, so only jumps can be
  have hdefs : ∀ jumps : Constraint, w.Completes e Γ m
      (n.block.defs.foldrM (fun d post => (liftM (Build.definition post d) : Walking Constraint))
        jumps) (Walking.Unchanged m (∀ d ∈ n.block.defs, True)) := by
    refine fun jumps => Walking.meets_foldrM fun d hd post => ?_
    obtain ⟨⟨_, hlhs⟩, _, hrhs⟩ := hw.formed.defs _ (hw.wired.block n hmem) d hd
    exact Walking.meets_lift (Build.completes_definition hw.hooks hlhs hrhs)
      fun _ _ => ⟨rfl, True.intro⟩
  have hjumps : ∀ last : Constraint, w.Completes e Γ m (do
      n.block.defs.foldrM (fun d post => (liftM (Build.definition post d) : Walking Constraint))
        (← n.block.jmps.foldrM (w.jump counts) last))
      (Walking.Unchanged m (∀ j ∈ n.block.jmps, ¬j.Dangling e)) := by
    intro last
    refine Walking.Meets.bind (Walking.meets_foldrM fun j hj =>
      hw.completes_jump hreach hn hkeys hj) fun jumps m' hr => ?_
    obtain ⟨rfl, hwell⟩ := hr
    exact ExceptT.Meets.mono (hdefs jumps) fun r hr => ⟨hr.1, hwell⟩
  unfold block
  split
  · next next hnext =>
    have hsucc : next ∈ w.flow.graph.successors n := List.mem_append_right _ (by simp [hnext])
    obtain ⟨s, rfl⟩ := hw.wired.successors hmem hsucc
    refine Walking.Meets.bind (completes_entry (hkeys _ hsucc)) fun last m' hr => ?_
    obtain ⟨rfl, -⟩ := hr
    exact hjumps last
  · exact hjumps w.post

end Walker

/-! ## §3 Closed tables -/

namespace Flow

variable {e : Environment} {f : Flow} {unroll : Json} {m : Memo} {k : Key} {ks ks' : List Key}
  {l : Label} {u : Nat}

/-- Whether the blocks of a table's keys are intact and the table has the keys that its keys need,
those of cut paths apart. -/
def Closed (e : Environment) (f : Flow) (unroll : Json) (m : Memo) : Prop :=
  ∀ k ∈ m.keys, f.isCut unroll k = .ok false →
    f.graph.Intact e k.label ∧ ∀ k', f.Needs unroll k k' → k' ∈ m.keys

/-- A closed table is left that has some keys and all keys of a table before it. -/
def Treats (e : Environment) (f : Flow) (unroll : Json) (ks : List Key) (m : Memo)
    (r : Unit × Memo) : Prop :=
  f.Closed e unroll r.2 ∧ ∀ k, k ∈ ks ∨ k ∈ m.keys → k ∈ Memo.keys r.2

theorem Closed.insert {c : Constraint} (hm : f.Closed e unroll m)
    (hintact : f.isCut unroll k = .ok false → f.graph.Intact e k.label)
    (hneeds : ∀ k', f.Needs unroll k k' → k' ∈ m.keys) : f.Closed e unroll ((k, c) :: m) := by
  intro k' hk' hcut
  have hgrows : ∀ x ∈ m.keys, x ∈ Memo.keys ((k, c) :: m) := fun x => List.mem_cons_of_mem k
  rcases List.mem_cons.mp hk' with rfl | hk'
  · exact ⟨hintact hcut, fun x hx => hgrows x (hneeds x hx)⟩
  · exact ⟨(hm k' hk' hcut).1, fun x hx => hgrows x ((hm k' hk' hcut).2 x hx)⟩

theorem Trail.suffix (h : f.Trail unroll (ks ++ k :: ks')) : f.Trail unroll (k :: ks') := by
  induction ks with
  | nil => exact h
  | cons x ks ih =>
    obtain ⟨y, rest, heq⟩ := List.exists_cons_of_ne_nil (l := ks ++ k :: ks') (by simp)
    rw [List.cons_append, heq] at h
    rw [heq] at ih
    cases h with
    | step htrail _ => exact ih htrail

/-- A closed table that has the entry has the keys of all paths of the walk. -/
theorem Trail.mem_of_closed (h : f.Trail unroll ks) (hm : f.Closed e unroll m)
    (hentry : ∀ n rest, f.graph = n :: rest → f.key n.label [] ∈ m.keys) :
    ∀ k ∈ ks, k ∈ m.keys := by
  induction h with
  | start hcons => simpa using hentry _ _ hcons
  | step _ hneeds ih =>
    have hk := ih _ List.mem_cons_self
    exact List.forall_mem_cons.mpr ⟨(hm _ hk (needs_iff.mp hneeds).1).2 _ hneeds, ih⟩

theorem exists_isCut (f : Flow) (u : Nat) (k : Key) : ∃ cut, f.isCut (.int u) k = .ok cut := by
  unfold isCut
  split
  · exact ⟨_, rfl⟩
  · exact ⟨_, rfl⟩

section Reducible

variable (hloops : f.loops = f.graph.loops) (hreducible : f.graph.Reducible)
include hloops hreducible

/-- A path that comes to no block twice is not cut. -/
theorem Trail.not_cut (h : f.Trail (.int u) (k :: ks)) (hnodup : ((k :: ks).map Key.label).Nodup) :
    f.isCut (.int u) k = .ok false := by
  obtain ⟨cut, hcut⟩ := f.exists_isCut u k
  cases cut with
  | false => exact hcut
  | true =>
    obtain ⟨h, -, hlt⟩ := (isCut_iff_visits hloops hreducible h).mp hcut
    have hle : f.visits h ((k :: ks).map Key.label) ≤ 1 :=
      ((List.takeWhile_sublist _).count_le h).trans (List.nodup_iff_count_le_one.mp hnodup h)
    omega

/-- **Every label that can be reached is reached by a path that comes to no block twice**: where a
path comes to a block again, it is taken back to where it was there before. -/
theorem exists_trail_of_reachable (h : f.graph.Reachable l) :
    ∃ k ks, f.Trail (.int u) (k :: ks) ∧ k.label = l ∧ ((k :: ks).map Key.label).Nodup := by
  obtain ⟨n, rest, hg, hpath⟩ := h
  induction hpath with
  | refl => exact ⟨_, [], .start hg, rfl, by simp⟩
  | @tail l l' _ hstep ih =>
    obtain ⟨k, ks, htrail, rfl, hnodup⟩ := ih
    obtain ⟨m, hm, hl'⟩ := hstep
    by_cases hmem : l' ∈ (k :: ks).map Key.label
    · obtain ⟨k', hk', rfl⟩ := List.mem_map.mp hmem
      obtain ⟨after, before, heq⟩ := List.append_of_mem hk'
      rw [heq] at htrail hnodup
      rw [List.map_append] at hnodup
      exact ⟨k', before, htrail.suffix, rfl, hnodup.of_append_right⟩
    · have hcut := htrail.not_cut hloops hreducible hnodup
      have hneeds := needs_iff.mpr ⟨hcut, m, hm, l', hl', rfl⟩
      exact ⟨_, _, htrail.step hneeds, rfl, List.nodup_cons.mpr ⟨hmem, hnodup⟩⟩

/-- **Where a closed table has the entry, the graph is not malformed.** -/
theorem Closed.not_malformed (hm : f.Closed e (.int u) m)
    (hentry : ∀ n rest, f.graph = n :: rest → f.key n.label [] ∈ m.keys) :
    ¬f.graph.Malformed e := by
  refine Graph.not_malformed fun l hl => ?_
  obtain ⟨k, ks, htrail, rfl, hnodup⟩ := exists_trail_of_reachable (u := u) hloops hreducible hl
  have hk := htrail.mem_of_closed hm hentry k List.mem_cons_self
  exact (hm k hk (htrail.not_cut hloops hreducible hnodup)).1

end Reducible

end Flow

/-! ## §4 The walk -/

namespace Walker

variable {e : Environment} {Γ : String → Srt} {sub : Sub} {w : Walker} {m : Memo} {k : Key}
  {u : Nat} {path : List Key}

/-- What a key needs is known, unless its label has no block. -/
theorem reports_needs {fault : Fault} (hreach : w.flow.graph.Reachable k.label)
    (h : w.flow.needs (.int u) k = .error fault) : fault.Reports e w.flow.graph := by
  obtain ⟨cut, hcut⟩ := w.flow.exists_isCut u k
  rw [Flow.needs, hcut, Flow.node] at h
  cases cut with
  | true => cases h
  | false =>
    cases hnode : w.flow.graph.node? k.label with
    | none =>
      rw [hnode] at h
      cases h
      exact ⟨rfl, .inl ⟨k.label, hreach, hnode⟩⟩
    | some n =>
      rw [hnode] at h
      cases h

/-- **A key is built if the table has what it needs.** -/
theorem Typed.completes_build (hw : w.Typed e Γ sub) (hu : e.unroll = .int u)
    (hreach : w.flow.graph.Reachable k.label)
    (hneeds : ∀ k', w.flow.Needs (.int u) k k' → k' ∈ m.keys) :
    w.Completes e Γ m (w.build k) (Walking.Unchanged m
      (w.flow.isCut (.int u) k = .ok false → w.flow.graph.Intact e k.label)) := by
  obtain ⟨cut, hcut⟩ := w.flow.exists_isCut u k
  refine Walking.meets_env_bind fun σ hσ => ?_
  rw [hσ.unroll, hu]
  refine Walking.meets_ok_bind hcut ?_
  cases cut with
  | true =>
    refine Walking.meets_lift (Build.completes_cut w k.label) fun _ _ => ⟨rfl, fun hno => ?_⟩
    cases hcut.symm.trans hno
  | false =>
    cases hnode : w.flow.graph.node? k.label with
    | none =>
      -- a block that can be reached is missing
      exact Walking.meets_error_bind (by rw [Flow.node, hnode])
        ⟨rfl, .inl ⟨k.label, hreach, hnode⟩⟩
    | some n =>
      refine Walking.meets_ok_bind (a := n) (by rw [Flow.node, hnode]) ?_
      have hkeys : w.Follows n k.counts m := fun l hl =>
        hneeds _ (Flow.needs_iff.mpr ⟨hcut, n, hnode, l, hl, rfl⟩)
      exact ExceptT.Meets.mono (hw.completes_block hreach hnode hkeys) fun r hr =>
        ⟨hr.1, fun _ => ⟨n, hnode, hr.2⟩⟩

/-- Several keys are treated one after the other. -/
theorem completes_forM {ks : List Key} {f : Key → Walking Unit}
    (h : ∀ k ∈ ks, ∀ m, w.flow.Closed e (.int u) m →
      w.Completes e Γ m (f k) (w.flow.Treats e (.int u) [k] m)) (hm : w.flow.Closed e (.int u) m) :
    w.Completes e Γ m (ks.forM f) (w.flow.Treats e (.int u) ks m) := by
  induction ks generalizing m with
  | nil => exact Walking.meets_pure ⟨hm, by simp⟩
  | cons k ks ih =>
    obtain ⟨hk, hks⟩ := List.forall_mem_cons.mp h
    refine Walking.Meets.bind (hk m hm) fun _ m' hr => ?_
    refine ExceptT.Meets.mono (ih hks hr.1) fun r hr' => ⟨hr'.1, fun x hx => hr'.2 x ?_⟩
    rcases hx with hx | hx
    · exact (List.mem_cons.mp hx).symm.imp_right fun hx => hr.2 x (.inl (by simp [hx]))
    · exact .inr (hr.2 x (.inr hx))

/-- **A visit treats its key**: every key that it comes to is a new one, so the bound is not used
up, and the keys that it needs are treated before it. -/
theorem Typed.completes_visit (hw : w.Typed e Γ sub) (hu : e.unroll = .int u)
    (hacyclic : w.flow.Acyclic (.int u)) {bound : Nat} (htrail : w.flow.Trail (.int u) (k :: path))
    (hbound : w.flow.keyBound (.int u) ≤ bound + path.length) (hm : w.flow.Closed e (.int u) m) :
    w.Completes e Γ m (w.visit bound path k) (w.flow.Treats e (.int u) [k] m) := by
  -- the bound is what is left of the number of keys, so a trail never uses it up
  induction bound generalizing path k m with
  | zero =>
    have hlength := htrail.length_lt_of_acyclic hacyclic
    rw [List.length_cons] at hlength
    omega
  | succ bound ih =>
    have hnew : k ∉ path := (List.nodup_cons.mp (htrail.nodup hacyclic)).1
    have hreach := (htrail.reaches k List.mem_cons_self).1.reachable
    refine Walking.meets_get_bind ?_
    split
    · next hfound =>
      have hk : k ∈ m.keys := Memo.lookup_isSome.mp hfound
      refine Walking.meets_pure ⟨hm, fun x hx => hx.elim (fun hx => ?_) id⟩
      rwa [List.mem_singleton.mp hx]
    rw [if_neg (by simpa using hnew)]
    refine Walking.meets_env_bind fun σ hσ => ?_
    rw [hσ.unroll, hu]
    cases hks : w.flow.needs (.int u) k with
    | error fault => exact Walking.meets_error_bind rfl (reports_needs hreach hks)
    | ok ks =>
      refine Walking.meets_ok_bind rfl ?_
      refine Walking.Meets.bind (completes_forM (fun k' hk' m hm => ih (htrail.step
        ⟨ks, hks, List.mem_reverse.mp hk'⟩) (by rw [List.length_cons]; omega) hm) hm)
        fun _ m' hr => ?_
      -- what is needed is in the table when the condition is built
      have hneeds : ∀ k', w.flow.Needs (.int u) k k' → k' ∈ m'.keys := by
        rintro k' ⟨ks', hks', hmem⟩
        cases hks.symm.trans hks'
        exact hr.2 k' (.inl (List.mem_reverse.mpr hmem))
      refine Walking.Meets.bind (hw.completes_build hu hreach hneeds) fun c m'' hbuilt => ?_
      obtain ⟨rfl, hintact⟩ := hbuilt
      intro σ hσ
      refine .inl ⟨_, σ, rfl, hσ, hr.1.insert hintact hneeds, fun x hx => ?_⟩
      exact List.mem_cons.mpr (hx.imp List.mem_singleton.mp fun hx => hr.2 x (.inr hx))

/-- **The walk of a well-formed subroutine ends**, and it gives a condition only where the graph is
not malformed. -/
theorem Typed.completes_run (hw : w.Typed e Γ sub) (hu : e.unroll = .int u)
    (hloops : w.flow.loops = w.flow.graph.loops) (hreducible : w.flow.graph.Reducible) :
    w.run.Meets (Session.Types e Γ True) (Fault.Reports e w.flow.graph)
      fun _ => ¬w.flow.graph.Malformed e := by
  have hacyclic : w.flow.Acyclic (.int u) :=
    Flow.acyclic_of_nested hloops (Flow.nested_of_reducible hloops hreducible)
  unfold run
  split
  · next hnil =>
    -- an empty graph has no block that can be reached
    refine meets_pure (Graph.not_malformed ?_)
    rintro l ⟨n, rest, hcons, -⟩
    cases hnil.symm.trans hcons
  · next n rest hcons =>
    refine Build.meets_env_bind fun σ hσ => ?_
    rw [hσ.unroll, hu]
    have hstart : w.flow.Closed e (.int u) [] := fun k hk => absurd hk List.not_mem_nil
    refine ExceptT.Meets.bind (hw.completes_visit hu hacyclic (.start hcons) le_rfl hstart)
      fun r hr => ?_
    -- the table is closed, and has the key of the entry
    have hk : w.flow.key n.label [] ∈ Memo.keys r.2 := hr.2 _ (.inl List.mem_cons_self)
    obtain ⟨c, hc⟩ := Option.isSome_iff_exists.mp (Memo.lookup_isSome.mpr hk)
    dsimp only
    rw [hc]
    refine meets_pure (hr.1.not_malformed hloops hreducible fun n' rest' hcons' => ?_)
    cases hcons.symm.trans hcons'
    exact hk

end Walker

/-! ## §5 Subroutines -/

/-- **The walk of a well-formed subroutine ends**: it reports a malformed graph, or the graph is not
malformed. -/
theorem Sub.Formed.meets_precondition {sub : Sub} {e : Environment} {Γ : String → Srt} {u : Nat}
    (post : Constraint) (hsub : sub.Formed e Γ) (hstart : Session.Types e Γ True ⟨{}, e⟩)
    (hhooks : ∀ hook ∈ e.hooks, hook.Typed e Γ) (hu : e.unroll = .int u)
    (hapart : ∀ b ∈ sub.blks, ∀ j ∈ b.jmps, j.kind = .goto → j.target = .null → j.cond.Apart e)
    (hreducible : ∀ g, sub.graph = .ok g → g.Reducible) :
    ∃ g, sub.graph = .ok g ∧ (precondition post sub).Meets (Session.Types e Γ True)
      (Fault.Reports e g) fun _ => ¬g.Malformed e := by
  obtain ⟨f, hf, hg, hwired⟩ := hsub.exists_flow
  refine ⟨f.graph, hg, Build.meets_env_bind fun τ _ => ?_⟩
  rw [Environment.nestingBound, preconditionWithin]
  split
  · next hempty =>
    refine meets_pure (Graph.not_malformed ?_)
    rintro l ⟨n, rest, hcons, -⟩
    have hmem := hwired.block n (hcons ▸ List.mem_cons_self)
    rw [List.isEmpty_iff.mp hempty] at hmem
    cases hmem
  · rw [hf]
    exact Walker.Typed.completes_run ⟨hstart, hhooks, hsub, hapart, hwired⟩ hu (Sub.loops_flow hf)
      (hreducible _ hg)

/-- A graph of one block is reducible. -/
theorem Graph.reducible_single {n : Node}
    (h : ∀ edge ∈ Graph.backEdges [n], edge = (n.label, n.label)) : Graph.Reducible [n] := by
  intro u head hedge m rest hg hpath
  cases h _ hedge
  cases hg
  exact hpath.1 rfl

/-- A graph of one block without dangling jumps is not malformed. -/
theorem Graph.not_malformed_single {e : Environment} {n : Node}
    (hnext : ∀ l ∈ Graph.successors [n] n, l = n.label) (h : ∀ j ∈ n.block.jmps, ¬j.Dangling e) :
    ¬Graph.Malformed e [n] := by
  have hnode : Graph.node? [n] n.label = some n := by simp [Graph.node?]
  refine Graph.not_malformed ?_
  rintro l ⟨m, rest, hg, hpath⟩
  cases hg
  have hl : l = n.label := by
    induction hpath with
    | refl => rfl
    | tail _ hstep ih =>
      obtain ⟨m, hm, hmem⟩ := hstep
      subst ih
      cases hnode.symm.trans hm
      exact hnext _ hmem
  subst hl
  exact ⟨n, hnode, h⟩

/-- A `goto` without a target, under the condition that a bit is set. -/
def strayJmp (bit : Bool) : Jmp where
  tid := .str "leave"
  kind := .goto
  cond := .int bit.toInt (.int 1)

/-- A loop that is left by this jump. -/
def Blk.stray (bit : Bool) : Blk where
  tid := .str "loop"
  jmps := [{ tid := .str "again", kind := .goto, target := .str "loop",
             cond := .unknown (.int 1) .null }, strayJmp bit]

def strayEnv : Environment where
  arch := { name := "small", addressWidth := 8 }

def Sub.stray (bit : Bool) : Sub where
  name := .str "f"
  blks := [.stray bit]

def strayGraph (bit : Bool) : Graph :=
  [{ label := .text "loop", block := .stray bit, exits := [.text "loop"] }]

theorem Sub.formed_stray (bit : Bool) (e : Environment) (Γ : String → Srt) :
    (stray bit).Formed e Γ where
  calls := by simp [CallFree, Blk.CallFree, stray, Blk.stray, strayJmp]
  labels := by simp [stray, Blk.stray]
  defs := by simp [stray, Blk.stray]
  conds := by
    simp only [stray, Blk.stray, List.forall_mem_singleton, List.forall_mem_cons]
    exact ⟨⟨1, .unknown rfl⟩, 1, .int rfl⟩
  targets := by simp [stray, Blk.stray, strayJmp, Json.IsTarget]

theorem reducible_stray (bit : Bool) : (strayGraph bit).Reducible :=
  Graph.reducible_single (by cases bit <;> decide)

theorem folded?_stray (bit : Bool) : (strayJmp bit).folded? strayEnv = some bit :=
  (Jmp.folded?_iff (Expr.ends_condition_bit _ rfl bit)).mpr rfl

theorem not_malformed_stray : ¬(strayGraph false).Malformed strayEnv :=
  Graph.not_malformed_single (by decide) (by simp [Blk.stray, Jmp.Dangling, folded?_stray])

end Antecedent
