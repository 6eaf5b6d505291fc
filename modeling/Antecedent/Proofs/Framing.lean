import Antecedent.Proofs.Building

/-!
# What a run depends on

A run reads and writes the constants of its own environment.  So it goes the same way from two
states that agree on them, and leaves all others alone.

* `Blk.Local` says that a block keeps to the constants of an environment.
* `Flow.Settled` says that all runs from a key end, and go through such blocks only.
-/

namespace Antecedent

variable {e : Environment} {s s' : State} {g : State → State} {f : Flow}

/-! ## §1 Patched states -/

namespace State

/-- The state that takes some names from another state. -/
def patch (s : State) (names : List Symbol) (t : State) : State where
  flag n := if n ∈ names then t.flag n else s.flag n
  word n w := if n ∈ names then t.word n w else s.word n w
  memory n a := if n ∈ names then t.memory n a else s.memory n a
  apply := s.apply

variable {t : State} {names : List Symbol} {name : Symbol} {srt : Srt} {v : Value}

@[simp] theorem patch_self (s : State) (names : List Symbol) : s.patch names s = s := by
  simp [patch]

theorem const_patch_mem (h : name ∈ names) :
    (s.patch names t).const name srt = t.const name srt := by
  cases srt <;> simp [const, patch, h]

/-- A name that is not patched holds what it held. -/
theorem const_patch_not_mem (h : name ∉ names) :
    (s.patch names t).const name srt = s.const name srt := by
  cases srt <;> simp [const, patch, h]

/-- Taking names back that were never patched changes nothing. -/
theorem patch_patch_of_disjoint {others : List Symbol} (h : ∀ x ∈ names, x ∉ others) (s t : State) :
    (s.patch names t).patch others s = s.patch names t := by
  simp only [patch, mk.injEq, and_true]
  refine ⟨?_, ?_, ?_⟩ <;> funext n <;> by_cases hn : n ∈ names <;> simp [hn, h n]

theorem patch_set_mem (h : name ∈ names) :
    s.patch names (t.set name srt v) = (s.patch names t).set name srt v := by
  simp only [patch, set, mk.injEq, and_true]
  refine ⟨?_, ?_, ?_⟩ <;> funext n <;> by_cases hn : n = name <;> simp [hn, h]

/-- A write to a name that is not patched is a write in the first state. -/
theorem patch_set_not_mem (h : name ∉ names) :
    (s.set name srt v).patch names t = (s.patch names t).set name srt v := by
  simp only [patch, set, mk.injEq, and_true]
  refine ⟨?_, ?_, ?_⟩ <;> funext n <;> by_cases hn : n = name <;> simp [hn, h]

end State

/-! ## §2 Local blocks -/

/-- The constants of an environment hold the same values in two states. -/
def Environment.Agree (e : Environment) (s s' : State) : Prop :=
  ∀ ⦃name srt⦄, e.Owns name srt → s.const name srt = s'.const name srt

/-- An expression has the value of a term over the constants of an environment, and touches memory
at the same places in all states that agree on these constants. -/
structure Expr.Local (e : Environment) (x : Expr) : Prop where
  term : ∃ t : Term, t.WellSorted ∧ t.Over e.Owns ∧ ∀ s, t.eval s = x.value (e.look s)
  touches_eq : ∀ ⦃s s'⦄, e.Agree s s' → x.touches (e.look s) = x.touches (e.look s')

theorem Expr.Local.value_eq {x : Expr} (h : x.Local e) (hs : e.Agree s s') :
    x.value (e.look s) = x.value (e.look s') := by
  obtain ⟨t, -, hover, heval⟩ := h.term
  rw [← heval, ← heval, Term.eval_congr hover fun _ _ ho => hs ho]

/-- A block reads and writes the constants of an environment only. -/
structure Blk.Local (e : Environment) (b : Blk) : Prop where
  reads : ∀ d ∈ b.defs, d.rhs.Local e
  writes : ∀ d ∈ b.defs, ∃ t, e.Gives d.lhs t
  jumps : ∀ j ∈ b.jmps, j.cond.Local e

/-- A change of states that keeps the constants of an environment, and that writes to them
commute with. -/
structure Environment.Frame (e : Environment) (g : State → State) : Prop where
  agree : ∀ s, e.Agree s (g s)
  set : ∀ s {name srt} v, e.Owns name srt → g (s.set name srt v) = (g s).set name srt v

/-- What the conditions on accesses say of some accesses is the same in all states. -/
def Environment.Blind (e : Environment) : Prop :=
  ∀ s s' touches, e.objection? s touches = e.objection? s' touches

theorem Environment.blind_of_hooks (h : e.hooks = []) : e.Blind := by
  intro s s' touches
  rw [objection?_eq_none h, objection?_eq_none h]

def Ending.map (g : State → State) : Ending → Ending
  | .exit s => .exit (g s)
  | .cut => .cut
  | .excused => .excused
  | .failed => .failed

section Frame

variable (he : e.Blind) (hg : e.Frame g)
include he hg

theorem Def.foldlM_run_frame (hs : e.Sound) {ds : List Def} (hreads : ∀ d ∈ ds, d.rhs.Local e)
    (hwrites : ∀ d ∈ ds, ∃ t, e.Gives d.lhs t) (s : State) :
    ds.foldlM (Def.run e) (g s) = (ds.foldlM (Def.run e) s).map g := by
  induction ds generalizing s with
  | nil => rfl
  | cons d ds ih =>
    obtain ⟨hread, hreads⟩ := List.forall_mem_cons.mp hreads
    obtain ⟨⟨t, ht⟩, hwrites⟩ := List.forall_mem_cons.mp hwrites
    obtain ⟨name, srt, rfl, howns⟩ := ht.const hs
    rw [List.foldlM_cons, List.foldlM_cons, Def.run, Def.run, he (g s) s,
      ← hread.touches_eq (hg.agree s)]
    cases e.objection? s (d.rhs.touches (e.look s)) with
    | some o => rfl
    | none =>
      dsimp only
      rw [ht.assign_eq, ht.assign_eq, ← hread.value_eq (hg.agree s), ← hg.set s _ howns]
      exact ih hreads hwrites _

theorem Jmp.choose_frame {js : List Jmp} (hjs : ∀ j ∈ js, j.cond.Local e) (s : State) :
    Jmp.choose e (g s) js = Jmp.choose e s js := by
  induction js with
  | nil => rfl
  | cons j js ih =>
    obtain ⟨hj, hjs⟩ := List.forall_mem_cons.mp hjs
    rw [Jmp.choose, Jmp.choose, he (g s) s, ← hj.touches_eq (hg.agree s),
      ← hj.value_eq (hg.agree s), ih hjs]

theorem Blk.run_frame (hs : e.Sound) {b : Blk} (hb : b.Local e) (s : State) :
    b.run e (g s) = (b.run e s).map (fun r => (g r.1, r.2)) := by
  rw [Blk.run, Blk.run, Def.foldlM_run_frame he hg hs hb.reads hb.writes]
  cases b.defs.foldlM (Def.run e) s with
  | error o => rfl
  | ok s' =>
    change (do return (g s', ← Jmp.choose e (g s') b.jmps)) =
      (do return (s', ← Jmp.choose e s' b.jmps) : Except Ending _).map (fun r => (g r.1, r.2))
    rw [Jmp.choose_frame he hg hb.jumps]
    cases Jmp.choose e s' b.jmps <;> rfl

end Frame

section Keeps

variable (hs : e.Sound) {R : State → Prop}
  (hset : ∀ ⦃s name srt⦄ v, e.Owns name srt → R s → R (s.set name srt v))
include hs hset

theorem Def.foldlM_run_keeps {ds : List Def} (hwrites : ∀ d ∈ ds, ∃ t, e.Gives d.lhs t)
    (hrun : ds.foldlM (Def.run e) s = .ok s') (h : R s) : R s' := by
  induction ds generalizing s with
  | nil =>
    cases hrun
    exact h
  | cons d ds ih =>
    obtain ⟨⟨t, ht⟩, hwrites⟩ := List.forall_mem_cons.mp hwrites
    obtain ⟨name, srt, rfl, howns⟩ := ht.const hs
    rw [List.foldlM_cons] at hrun
    obtain ⟨s1, hs1, hrun⟩ := bind_eq_ok.mp hrun
    refine ih hwrites hrun ?_
    rw [Def.run] at hs1
    split at hs1
    · cases hs1
    · obtain rfl := Except.ok.inj hs1
      rw [ht.assign_eq]
      exact hset _ howns h

theorem Blk.run_keeps {b : Blk} (hb : b.Local e) {j : Option Jmp} (hrun : b.run e s = .ok (s', j))
    (h : R s) : R s' := by
  simp only [Blk.run, bind_eq_ok, pure_eq_ok, Prod.mk.injEq] at hrun
  obtain ⟨s1, hdefs, _, -, rfl, -⟩ := hrun
  exact Def.foldlM_run_keeps hs hset hb.writes hdefs h

end Keeps

/-! ## §3 Local runs -/

namespace Flow

/-- Runs from the block of a key that go through local blocks only. -/
inductive Travels (f : Flow) (e : Environment) : Key → State → Ending → Prop where
  | cut {k : Key} {s : State} (hcut : f.isCut e.unroll k = .ok true) : Travels f e k s .cut
  | stop {k : Key} {s : State} {n : Node} {o : Ending} (hcut : f.isCut e.unroll k = .ok false)
      (hnode : f.node k = .ok n) (hlocal : n.block.Local e) (hrun : n.block.run e s = .error o) :
      Travels f e k s o
  | leave {k : Key} {s s' : State} {n : Node} {j : Option Jmp}
      (hcut : f.isCut e.unroll k = .ok false) (hnode : f.node k = .ok n)
      (hlocal : n.block.Local e) (hrun : n.block.run e s = .ok (s', j))
      (hafter : f.graph.after n j = some .outside) : Travels f e k s (.exit s')
  | go {k : Key} {s s' : State} {n : Node} {j : Option Jmp} {l : Label} {o : Ending}
      (hcut : f.isCut e.unroll k = .ok false) (hnode : f.node k = .ok n)
      (hlocal : n.block.Local e) (hrun : n.block.run e s = .ok (s', j))
      (hafter : f.graph.after n j = some (.block l))
      (next : Travels f e (f.key (f.graph.resolve l) k.counts) s' o) : Travels f e k s o

/-- All runs from a key end, and go through local blocks only. -/
def Settled (f : Flow) (e : Environment) (k : Key) : Prop :=
  ∀ s, ∃ o, f.Travels e k s o

variable {k : Key} {o : Ending}

theorem Travels.runs (h : f.Travels e k s o) : f.Runs e k s o := by
  induction h with
  | cut hcut => exact .cut hcut
  | stop hcut hnode _ hrun => exact .stop hcut hnode hrun
  | leave hcut hnode _ hrun hafter => exact .leave hcut hnode hrun hafter
  | go hcut hnode _ hrun hafter _ ih => exact .go hcut hnode hrun hafter ih

theorem Runs.travels (h : f.Runs e k s o) (hk : f.Settled e k) : f.Travels e k s o := by
  obtain ⟨o', ho'⟩ := hk s
  rwa [h.unique ho'.runs]

/-- **Frame rule for runs**: a run goes the same way in a changed state. -/
theorem Travels.frame (he : e.Blind) (hs : e.Sound) (hg : e.Frame g) (h : f.Travels e k s o) :
    f.Runs e k (g s) (o.map g) := by
  have hframe := fun {b : Blk} => Blk.run_frame he hg hs (b := b)
  induction h with
  | cut hcut => exact .cut hcut
  | @stop k s n o hcut hnode hlocal hrun =>
    -- a run that ends at an access ends in no state
    have hstop : o.map g = o := by
      obtain ⟨_, _, ho⟩ := Blk.objection_of_run hrun
      rcases Environment.objection?_cases ho with rfl | ⟨rfl, -⟩ <;> rfl
    rw [hstop]
    exact .stop hcut hnode (by rw [hframe hlocal, hrun]; rfl)
  | leave hcut hnode hlocal hrun hafter =>
    exact .leave hcut hnode (by rw [hframe hlocal, hrun]; rfl) hafter
  | go hcut hnode hlocal hrun hafter _ ih =>
    exact .go hcut hnode (by rw [hframe hlocal, hrun]; rfl) hafter ih

/-- **What a run keeps**: whatever all writes to the constants of its environment keep. -/
theorem Travels.keeps (hs : e.Sound) {R : State → Prop}
    (hset : ∀ ⦃s name srt⦄ v, e.Owns name srt → R s → R (s.set name srt v))
    (h : f.Travels e k s o) (h0 : R s) : ∀ s', o = .exit s' → R s' := by
  induction h with
  | cut => simp
  | stop _ _ _ hrun =>
    rintro s' rfl
    obtain ⟨_, _, ho⟩ := Blk.objection_of_run hrun
    exact absurd ho Environment.objection?_ne_exit
  | leave _ _ hlocal hrun =>
    rintro _ ⟨⟩
    exact Blk.run_keeps hs hset hlocal hrun h0
  | go _ _ hlocal hrun _ _ ih => exact ih (Blk.run_keeps hs hset hlocal hrun h0)

end Flow

/-! ## §4 Subroutines -/

theorem Flow.mem_of_node {k : Key} {n : Node} (h : f.node k = .ok n) : n ∈ f.graph := by
  unfold node at h
  split at h
  · next hn =>
    cases h
    exact List.mem_reverse.mp (List.mem_of_find?_eq_some hn)
  · cases h

/-- The blocks of a subroutine's flow are those of the subroutine, in order. -/
theorem Sub.map_block_flow {sub : Sub} (h : sub.flow = .ok f) :
    f.graph.map Node.block = sub.blks := by
  simp only [flow, bind_eq_ok, pure_eq_ok] at h
  obtain ⟨g, hg, _, -, rfl⟩ := h
  simp only [graph, bind_eq_ok, mapM_eq_ok, pure_eq_ok] at hg
  obtain ⟨known, -, hall⟩ := hg
  rw [← List.forall₂_eq_eq_eq, List.forall₂_map_left_iff]
  refine hall.flip.imp fun n b hn => ?_
  obtain ⟨label, -, exits, -, rfl⟩ := hn
  rfl

/-- A subroutine runs from its first block. -/
theorem Sub.runs_iff {sub : Sub} {n : Node} {rest : List Node} (hf : sub.flow = .ok f)
    (hcons : f.graph = n :: rest) {o : Ending} :
    sub.Runs e s o ↔ f.Runs e (f.key n.label []) s o := by
  have hblks : ¬sub.blks.isEmpty := by simp [← map_block_flow hf, hcons]
  rw [Runs, if_neg hblks]
  constructor
  · rintro ⟨f', n', rest', hf', hcons', hruns⟩
    cases hf.symm.trans hf'
    cases hcons.symm.trans hcons'
    exact hruns
  · exact fun hruns => ⟨f, n, rest, hf, hcons, hruns⟩

/-- All runs of a subroutine end, and go through local blocks only. -/
def Sub.Settled (sub : Sub) (e : Environment) : Prop :=
  sub.blks.isEmpty ∨
    ∃ f n rest, sub.flow = .ok f ∧ f.graph = n :: rest ∧ f.Settled e (f.key n.label [])

namespace Sub

variable {sub : Sub} {o : Ending}

theorem Settled.runs (h : sub.Settled e) (s : State) : ∃ o, sub.Runs e s o := by
  rcases h with hempty | ⟨f, n, rest, hf, hcons, hk⟩
  · exact ⟨.exit s, by rw [Runs, if_pos hempty]⟩
  · obtain ⟨o, ho⟩ := hk s
    exact ⟨o, (runs_iff hf hcons).mpr ho.runs⟩

/-- A settled subroutine runs the same way in a changed state, if the conditions on accesses say the
same in all states. -/
theorem Runs.frame_of_blind (he : e.Blind) (hs : e.Sound) (hg : e.Frame g) (hsub : sub.Settled e)
    (h : sub.Runs e s o) : sub.Runs e (g s) (o.map g) := by
  rcases hsub with hempty | ⟨f, n, rest, hf, hcons, hk⟩
  · rw [Runs, if_pos hempty] at h ⊢
    rw [h, Ending.map]
  · rw [runs_iff hf hcons] at h ⊢
    exact (h.travels hk).frame he hs hg

theorem Runs.frame (he : e.hooks = []) (hs : e.Sound) (hg : e.Frame g) (hsub : sub.Settled e)
    (h : sub.Runs e s o) : sub.Runs e (g s) (o.map g) :=
  h.frame_of_blind (Environment.blind_of_hooks he) hs hg hsub

theorem runs_frame_iff (he : e.hooks = []) (hs : e.Sound) (hg : e.Frame g) (hsub : sub.Settled e) :
    sub.Runs e (g s) o ↔ ∃ o', sub.Runs e s o' ∧ o'.map g = o := by
  constructor
  · intro h
    obtain ⟨o', ho'⟩ := hsub.runs s
    exact ⟨o', ho', (ho'.frame he hs hg hsub).unique h⟩
  · rintro ⟨o', ho', rfl⟩
    exact ho'.frame he hs hg hsub

theorem Runs.keeps (hs : e.Sound) {R : State → Prop}
    (hset : ∀ ⦃s name srt⦄ v, e.Owns name srt → R s → R (s.set name srt v)) (hsub : sub.Settled e)
    (h : sub.Runs e s (.exit s')) (h0 : R s) : R s' := by
  rcases hsub with hempty | ⟨f, n, rest, hf, hcons, hk⟩
  · rw [Runs, if_pos hempty] at h
    rwa [Ending.exit.inj h]
  · rw [runs_iff hf hcons] at h
    exact (h.travels hk).keeps hs hset h0 s' rfl

/-- The run of a settled subroutine leaves all names alone that are not in its environment. -/
theorem Runs.patch (hs : e.Sound) (hsub : sub.Settled e) (h : sub.Runs e s (.exit s')) :
    s.patch e.symbols s' = s' := by
  refine h.keeps hs (R := fun t => s.patch e.symbols t = t) ?_ hsub (State.patch_self s _)
  intro t name srt v howns ht
  rw [State.patch_set_mem (hs.owns_symbol howns), ht]

/-- The run of a settled subroutine leaves all constants alone that are not in its environment. -/
theorem Runs.const_eq (hs : e.Sound) (hsub : sub.Settled e) (h : sub.Runs e s (.exit s'))
    {name : Symbol} {srt : Srt} (hne : ¬e.Owns name srt) :
    s'.const name srt = s.const name srt := by
  refine h.keeps hs (R := fun t => t.const name srt = s.const name srt) ?_ hsub rfl
  intro t name' srt' v howns ht
  rw [State.const_set_ne, ht]
  by_contra hsame
  obtain ⟨rfl, rfl⟩ : name = name' ∧ srt = srt' := by simpa [not_or] using hsame
  exact hne howns

end Sub

end Antecedent
