import Antecedent.Proofs.Dominance
import Antecedent.Proofs.Folding

/-!
# Well-formed subroutines

The builders of a subroutine whose expressions are well typed are not refused, and the subroutine
has a graph with loops.

* `Build.Completes` says that a builder is not refused.
* `Sub.Formed` says which subroutines can be walked.
-/

namespace Antecedent

open ExceptT (meets_pure meets_lift_bind meets_modify meets_filterMapM meets_flatMapM)

/-! ## §1 Builders -/

/-- The other memory of a condition on loads is one of the target, and its map gives addresses. -/
def Hook.Typed (e : Environment) (Γ : String → Srt) : Hook → Prop
  | .nonNull _ _ => True
  | .sameAs memory map => ∃ k, e.memVar.HasSort e Γ (.memory k) ∧ memory.sort = .memory k ∧
      ∀ addr : Term, addr.sort = .bits k → Term.Sorts (map.term addr) (.bits k)

namespace Build

variable {e : Environment} {Γ : String → Srt} {E : Fault → Prop} {c : Constraint}

/-- A builder completes in every session of a typing, unless it ends in a fault of a kind. -/
def Completes {α : Type} (e : Environment) (Γ : String → Srt) (E : Fault → Prop) (act : Build α) :
    Prop :=
  act.Meets (Session.Types e Γ True) E fun _ => True

theorem completes_nodeId : nodeId.Completes e Γ E :=
  fun _ hσ => .inl ⟨_, _, rfl, ⟨hσ.1, hσ.2, hσ.3, hσ.4, hσ.5, hσ.6, hσ.7⟩, True.intro⟩

theorem completes_goal (name : String) (t : Term) : (goal name t).Completes e Γ E :=
  completes_nodeId.bind fun _ _ => meets_pure True.intro

theorem completes_branch (name : Json) (cond : Term) (yes no : Constraint) :
    (branch name cond yes no).Completes e Γ E := by
  unfold branch
  split
  · exact meets_pure True.intro
  · exact meets_pure True.intro
  · exact completes_nodeId.bind fun _ _ => meets_pure True.intro

theorem completes_hookGoal {a : Access} (ha : a.Typed e) {hook : Hook} (hhook : hook.Typed e Γ) :
    (hookGoal a hook).Completes e Γ E := by
  obtain ⟨k, n, hk, haddr, hsize, hn⟩ := ha
  cases hook with
  | nonNull kind duty =>
    rw [hookGoal]
    split
    · exact meets_pure True.intro
    · refine meets_lift_bind (Term.width_ok.mpr haddr) ?_
      have hdistinct := Term.sorts_mkDistinct (r := .num k 0) haddr
      exact hdistinct.meets_bind fun t _ => (completes_goal _ t).bind fun _ _ =>
        meets_pure True.intro
  | sameAs memory map =>
    obtain ⟨k', hvar, hmemory, hmap⟩ := hhook
    cases hk.symm.trans (Expr.Sorted.var hvar).fits
    rw [hookGoal]
    split
    · exact meets_pure True.intro
    · rw [hsize]
      -- the memory of this side has the sort that the other one was loaded with
      have hmine : getMemory.Meets (Session.Types e Γ True) E fun m => m.sort = .memory k :=
        meets_env_bind fun σ hσ => by
          rw [Environment.memVar, hσ.arch]
          exact hvar.meets_getVar
      refine hmine.bind fun m hm => ?_
      refine (Term.sorts_loadBytes .little hm haddr hn).meets_bind fun mine hmine => ?_
      obtain ⟨addr, hterm, haddr⟩ := hmap a.addr haddr
      refine meets_lift_bind hterm ?_
      refine (Term.sorts_loadBytes .little hmemory haddr hn).meets_bind fun other hother => ?_
      refine (Term.sorts_mkEq (hmine.trans hother.symm)).meets_bind fun t _ => ?_
      exact (completes_goal _ t).bind fun _ _ => meets_pure True.intro

/-- The conditions on well-typed accesses can be put before a condition. -/
theorem completes_guarded (hhooks : ∀ hook ∈ e.hooks, hook.Typed e Γ) {accesses : List Access}
    (h : ∀ a ∈ accesses, a.Typed e) : (guarded c accesses).Completes e Γ E := by
  have hfound : (accesses.flatMapM fun a => do (← env).hooks.filterMapM (hookGoal a)).Completes
      e Γ E := by
    refine meets_flatMapM fun a ha => meets_env_bind fun σ hσ => ?_
    rw [hσ.hooks]
    exact meets_filterMapM fun hook hhook => completes_hookGoal (h a ha) (hhooks hook hhook)
  refine hfound.bind fun found _ => ?_
  split
  · exact meets_pure True.intro
  · exact completes_nodeId.bind fun _ _ => meets_pure True.intro

theorem completes_definition (hhooks : ∀ hook ∈ e.hooks, hook.Typed e Γ) {d : Def} {srt srt' : Srt}
    (hlhs : d.lhs.HasSort e Γ srt) (hrhs : d.rhs.Sorted e Γ srt') :
    (definition c d).Completes e Γ E := by
  refine (hrhs.meets_toTerm d.tid).bind fun p hp => hlhs.meets_getVar.bind fun lhs _ => ?_
  have hsubst : (substitution c [lhs] [p.1]).Completes e Γ E :=
    completes_nodeId.bind fun _ _ => meets_pure True.intro
  exact hsubst.bind fun _ _ => completes_guarded hhooks hp.2

/-- A path can be cut at every header. -/
theorem completes_cut (w : Walker) (header : Label) : (w.cut header).Completes e Γ E := by
  refine meets_env_bind fun σ hσ => ?_
  split
  · refine (meets_modify fun σ hσ => ?_).bind fun _ _ => ?_
    · exact ⟨hσ.1, hσ.2, hσ.3, hσ.4, hσ.5, hσ.6, hσ.7⟩
    refine (meets_modify fun σ hσ => ?_).bind fun _ _ => completes_goal _ _
    exact ⟨hσ.1, hσ.2, hσ.3, hσ.4, hσ.5, hσ.6, hσ.7⟩
  · exact completes_goal _ _

end Build

/-! ## §2 Graphs -/

/-- Whether a jump may lead to a value: to nothing, or to a name that is not empty. -/
def Json.IsTarget (dest : Json) : Prop :=
  dest = .null ∨ ∃ s, s ≠ "" ∧ dest = .str s

/-- A subroutine has no calls, its blocks have texts for labels, its expressions are well typed, and
its jumps lead to nothing or to names. -/
structure Sub.Formed (e : Environment) (Γ : String → Srt) (sub : Sub) : Prop where
  calls : sub.CallFree
  labels : ∀ b ∈ sub.blks, ∃ s, b.tid = .str s
  defs : ∀ b ∈ sub.blks, ∀ d ∈ b.defs,
    (∃ srt, d.lhs.HasSort e Γ srt) ∧ ∃ srt, d.rhs.Sorted e Γ srt
  conds : ∀ b ∈ sub.blks, ∀ j ∈ b.jmps, ∃ w, j.cond.Sorted e Γ (.bits w)
  targets : ∀ b ∈ sub.blks, ∀ j ∈ b.jmps, j.target.IsTarget ∧ j.returnTo.IsTarget

/-- A text is known by itself. -/
theorem Label.among_text (known : List Label) (s : String) :
    (Label.text s).among known = .text s := by
  unfold among
  cases hfind : known.find? (same (.text s)) with
  | none => rfl
  | some l => exact Label.eq_of_text_same (List.find?_some hfind)

/-- The nodes of a graph are blocks of a subroutine under texts, and the exits of a block are where
its jumps lead to. -/
structure Graph.Wired (sub : Sub) (g : Graph) : Prop where
  block : ∀ n ∈ g, n.block ∈ sub.blks
  labels : ∀ n ∈ g, ∀ l ∈ n.label :: n.exits, ∃ s, l = .text s
  leads : ∀ n ∈ g, ∀ j ∈ n.block.jmps, ∀ dest, j.successor? = some dest →
    ∃ s, dest = .str s ∧ .text s ∈ n.exits

/-- What follows a block has a text for a label. -/
theorem Graph.Wired.successors {sub : Sub} {g : Graph} {n : Node} {l : Label} (h : g.Wired sub)
    (hn : n ∈ g) (hl : l ∈ g.successors n) : ∃ s, l = .text s := by
  rcases List.mem_append.mp hl with hl | hl
  · exact h.labels n hn l (List.mem_cons_of_mem _ hl)
  · have hfall := Option.mem_toList.mp hl
    unfold fallThrough? at hfall
    split at hfall
    · -- the block after it stands in the graph
      obtain ⟨p, hp, hnext⟩ := Option.bind_eq_some_iff.mp hfall
      have hmem := (List.of_mem_zip (List.mem_reverse.mp (List.mem_of_find?_eq_some hp))).2
      rw [hnext] at hmem
      rcases List.mem_append.mp hmem with hmem | hmem
      · obtain ⟨m, hm, heq⟩ := List.mem_map.mp hmem
        cases heq
        exact h.labels m (List.mem_of_mem_drop hm) _ List.mem_cons_self
      · cases List.mem_singleton.mp hmem
    · cases hfall

namespace Sub.Formed

variable {e : Environment} {Γ : String → Srt} {sub : Sub}

theorem label_of_successor? (h : sub.Formed e Γ) {b : Blk} (hb : b ∈ sub.blks) {j : Jmp}
    (hj : j ∈ b.jmps) {dest : Json} (hdest : j.successor? = some dest) : ∃ s, dest = .str s := by
  have htext : ∀ field : Json, field.IsTarget →
      (if field.truthy = true then some field else none) = some dest → ∃ s, dest = .str s := by
    rintro _ (rfl | ⟨s, -, rfl⟩) hfield
    · cases hfield
    · exact ⟨s, (Option.some.inj (Option.ite_none_right_eq_some.mp hfield).2).symm⟩
  obtain ⟨htarget, hreturn⟩ := h.targets b hb j hj
  unfold Jmp.successor? at hdest
  split at hdest
  · exact htext _ htarget hdest
  · exact htext _ hreturn hdest
  · exact htext _ hreturn hdest
  · cases hdest

/-- **A well-formed subroutine has a graph.** -/
theorem exists_graph (h : sub.Formed e Γ) : ∃ g, sub.graph = .ok g ∧ g.Wired sub := by
  -- all labels are texts, so none of the lookups is refused
  have htid : ∀ b ∈ sub.blks, ∃ s, b.tid.label = .ok (.text s) := by
    intro b hb
    obtain ⟨s, hs⟩ := h.labels b hb
    exact ⟨s, by rw [hs]; rfl⟩
  have hexits : ∀ b ∈ sub.blks, ∀ dest ∈ b.jmps.filterMap Jmp.successor?,
      ∃ s, dest = .str s ∧ dest.label = .ok (.text s) := by
    intro b hb dest hdest
    obtain ⟨j, hj, hsucc⟩ := List.mem_filterMap.mp hdest
    obtain ⟨s, rfl⟩ := h.label_of_successor? hb hj hsucc
    exact ⟨s, rfl, rfl⟩
  obtain ⟨known, hknown⟩ : ∃ known, sub.labels = .ok known :=
    exists_mapM_eq_ok fun b hb => (htid b hb).elim fun s hs => ⟨.text s, hs⟩
  obtain ⟨g, hg⟩ : ∃ g, sub.graph = .ok g := by
    rw [graph, hknown]
    refine exists_mapM_eq_ok fun b hb => ?_
    obtain ⟨s, hs⟩ := htid b hb
    obtain ⟨es, hes⟩ : ∃ es, (b.jmps.filterMap Jmp.successor?).mapM Json.label = .ok es :=
      exists_mapM_eq_ok fun dest hdest =>
        (hexits b hb dest hdest).elim fun s hs => ⟨.text s, hs.2⟩
    rw [hs, hes]
    exact ⟨_, rfl⟩
  refine ⟨g, hg, ?_⟩
  obtain ⟨known, -, hnodes⟩ := bind_eq_ok.mp hg
  have hnodes := (mem_of_mapM_eq_ok hnodes).2
  simp only [bind_eq_ok, pure_eq_ok] at hnodes
  refine ⟨fun n hn => ?_, fun n hn => ?_, fun n hn j hj dest hdest => ?_⟩
  -- a node has the block, the label and the exits that it was made from
  all_goals obtain ⟨b, hb, l, hl, es, hes, rfl⟩ := hnodes n hn
  · exact hb
  · have hlabel : ∃ s, l.among known = .text s := by
      obtain ⟨s, hs⟩ := htid b hb
      cases hs.symm.trans hl
      exact ⟨s, Label.among_text known s⟩
    refine List.forall_mem_cons.mpr ⟨hlabel, List.forall_mem_map.mpr fun l' hl' => ?_⟩
    obtain ⟨dest, hdest, hlabel'⟩ := (mem_of_mapM_eq_ok hes).2 l' hl'
    obtain ⟨s, -, hs⟩ := hexits b hb dest hdest
    cases hs.symm.trans hlabel'
    exact ⟨s, Label.among_text known s⟩
  · have hmem : dest ∈ b.jmps.filterMap Jmp.successor? := List.mem_filterMap.mpr ⟨j, hj, hdest⟩
    obtain ⟨s, heq, hs⟩ := hexits b hb dest hmem
    obtain ⟨l', hl', hlabel'⟩ := (mem_of_mapM_eq_ok hes).1 dest hmem
    cases hs.symm.trans hlabel'
    exact ⟨s, heq, List.mem_map.mpr ⟨_, hl', Label.among_text known s⟩⟩

/-- **A well-formed subroutine has a flow**: the headers of its loops are texts, so they have an
order. -/
theorem exists_flow (h : sub.Formed e Γ) :
    ∃ f, sub.flow = .ok f ∧ sub.graph = .ok f.graph ∧ f.graph.Wired sub := by
  obtain ⟨g, hg, hwired⟩ := h.exists_graph
  have htext : ∀ l ∈ g.loops.map Prod.fst, ∃ s, l = .text s := by
    intro l hl
    obtain ⟨body, hbody⟩ : ∃ body, g.loops.lookup l = some body := by
      rw [← Option.ne_none_iff_exists', Ne, List.lookup_eq_none_iff]
      simpa using hl
    obtain ⟨-, ⟨u, hu⟩, -⟩ := Graph.loopsReach_loops l body hbody
    obtain ⟨n, hn, -⟩ := List.mem_map.mp (Graph.real_backEdges hu).2
    obtain ⟨hmem, hsucc⟩ := List.mem_filter.mp hn
    exact hwired.successors hmem (by simpa using hsucc)
  obtain ⟨ls, hls⟩ : ∃ ls, Label.sortBy Label.before (g.loops.map Prod.fst) = .ok ls := by
    refine Label.sortBy_ok fun x hx y hy => ?_
    obtain ⟨s, rfl⟩ := htext x hx
    obtain ⟨t, rfl⟩ := htext y hy
    exact ⟨_, rfl⟩
  exact ⟨{ name := sub.name, graph := g, loops := g.loops },
    bind_eq_ok.mpr ⟨g, hg, bind_eq_ok.mpr ⟨ls, hls, rfl⟩⟩, hg, hwired⟩

end Sub.Formed

end Antecedent
