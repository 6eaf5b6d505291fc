import Mathlib.Data.Finset.Card
import Mathlib.Data.List.Perm.Subperm
import Mathlib.Logic.Relation
import Antecedent.Flow

/-!
# Loops

What the depth-first search of a graph and the loops that it finds are good for.

* `Graph.exists_rank` says that every step goes up in some order or is a back edge.
* `Graph.hasLoops_loops` says what a loop holds.
-/

namespace Antecedent

variable {n : Node} {edges : List (Label × Label)} {st : Search} {bound : Nat}
  {rest body : List Label}

namespace Graph

variable {g : Graph} {u v l : Label}

/-! ## §1 Steps between blocks -/

def Goes (g : Graph) (u v : Label) : Prop :=
  (∃ n, g.node? u = some n ∧ v ∈ g.successors n) ∧ (g.node? v).isSome

theorem mem_labels_of_node? (h : g.node? l = some n) : n ∈ g ∧ n.label = l := by
  have hlabel := List.find?_some h
  exact ⟨List.mem_reverse.mp (List.mem_of_find?_eq_some h), by simpa using hlabel⟩

theorem mem_labels (h : (g.node? l).isSome) : l ∈ g.map Node.label := by
  obtain ⟨n, hn⟩ := Option.isSome_iff_exists.mp h
  obtain ⟨hmem, rfl⟩ := mem_labels_of_node? hn
  exact List.mem_map_of_mem hmem

theorem Goes.mem_predecessors (h : g.Goes u v) : u ∈ g.predecessors v := by
  obtain ⟨⟨n, hn, hv⟩, -⟩ := h
  obtain ⟨hmem, rfl⟩ := mem_labels_of_node? hn
  exact List.mem_map_of_mem (List.mem_filter.mpr ⟨hmem, by simpa using hv⟩)

theorem predecessors_subset : g.predecessors l ⊆ g.map Node.label :=
  List.map_subset _ List.filter_sublist.subset

/-! ## §2 The search -/

/-- Whether each block left for good is followed only by blocks that were left before it, or by back
edges. -/
def Settles (g : Graph) (edges : List (Label × Label)) : List Label → Prop
  | [] => True
  | u :: rest => (∀ v, g.Goes u v → (u, v) ∈ edges ∨ v ∈ rest) ∧ Settles g edges rest

theorem Settles.mono {edges' : List (Label × Label)} {done : List Label} (h : g.Settles edges done)
    (hsub : edges ⊆ edges') : g.Settles edges' done := by
  induction done with
  | nil => trivial
  | cons u rest ih => exact ⟨fun v hv => (h.1 v hv).imp_left (@hsub _), ih h.2⟩

/-- **Every step from a block left for good goes up or is a back edge.** -/
theorem Settles.exists_rank {done : List Label} (h : g.Settles edges done) :
    ∃ rank : Label → Nat, ∀ u ∈ done, ∀ v, g.Goes u v →
      (u, v) ∈ edges ∨ (v ∈ done ∧ rank u < rank v) := by
  induction done with
  | nil => exact ⟨fun _ => 0, by simp⟩
  | cons w rest ih =>
    obtain ⟨rank, hrank⟩ := ih h.2
    -- the block that was left last comes lowest
    refine ⟨fun l => if l ∈ rest then rank l + 1 else 0, fun u hu v hgoes => ?_⟩
    by_cases hrest : u ∈ rest
    · rcases hrank u hrest v hgoes with hedge | ⟨hv, hlt⟩
      · exact .inl hedge
      · exact .inr ⟨List.mem_cons_of_mem _ hv, by simpa [hrest, hv] using hlt⟩
    · obtain rfl : u = w := by simpa [hrest] using hu
      rcases h.1 v hgoes with hedge | hv
      · exact .inl hedge
      · exact .inr ⟨List.mem_cons_of_mem _ hv, by simp [hrest, hv]⟩

/-- What is true of a search at any time. -/
structure Search.Sound (g : Graph) (st : Search) : Prop where
  nodup : st.path.Nodup
  known : ∀ l ∈ st.path, (g.node? l).isSome
  sources : ∀ e ∈ st.edges, (g.node? e.1).isSome
  targets : ∀ e ∈ st.edges, e.2 ∈ st.path ∨ e.2 ∈ st.done
  settles : g.Settles st.edges st.done

/-- Whether a search has come at least as far as another. -/
structure Search.Grows (st st' : Search) : Prop where
  done : st.done ⊆ st'.done
  edges : st.edges ⊆ st'.edges

theorem Search.Grows.refl (st : Search) : st.Grows st :=
  ⟨List.Subset.refl _, List.Subset.refl _⟩

theorem Search.Grows.trans {st' st'' : Search} (h : st.Grows st') (h' : st'.Grows st'') :
    st.Grows st'' :=
  ⟨List.Subset.trans h.done h'.done, List.Subset.trans h.edges h'.edges⟩

/-- A path without repetition is not longer than the graph. -/
theorem Search.Sound.length_path_le (h : st.Sound g) : st.path.length ≤ g.length := by
  have hsub : st.path ⊆ g.map Node.label := fun l hl => mem_labels (h.known l hl)
  simpa using (List.subperm_of_subset h.nodup hsub).length_le

/-- What the search does about a block that may follow the current one. -/
def Search.look (g : Graph) (bound : Nat) (l : Label) (st : Search) (next : Label) : Search :=
  if st.path.contains next then { st with edges := (l, next) :: st.edges }
  else if st.done.contains next || (g.node? next).isNone then st
  else g.search bound next { st with path := next :: st.path }

theorem search_succ (bound : Nat) (st : Search) : g.search (bound + 1) l st =
    let st := (((g.node? l).map g.successors).getD []).foldl (Search.look g bound l) st
    { st with path := st.path.drop 1, done := l :: st.done } :=
  rfl

/-- What is true after the search from a block on the path. -/
structure Search.Leaves (g : Graph) (l : Label) (rest : List Label) (st st' : Search) : Prop where
  sound : st'.Sound g
  grows : st.Grows st'
  path : st'.path = rest
  done : l ∈ st'.done

/-- What is true after a look at some blocks that may follow the current one. -/
structure Search.Looks (g : Graph) (l : Label) (rest ss : List Label) (st st' : Search) : Prop where
  sound : st'.Sound g
  grows : st.Grows st'
  path : st'.path = l :: rest
  found : ∀ v ∈ ss, (g.node? v).isSome → (l, v) ∈ st'.edges ∨ v ∈ st'.done

/-- A look at a block keeps what is true of the search, if the search does. -/
theorem Search.looks_look (h : st.Sound g) (hpath : st.path = l :: rest) (next : Label)
    (ih : ∀ st : Search, st.Sound g → st.path = next :: l :: rest →
      st.Leaves g next (l :: rest) (g.search bound next st)) :
    st.Looks g l rest [next] (st.look g bound l next) := by
  unfold look
  split
  · next hon =>
    -- the block is on the path: a back edge
    refine ⟨⟨h.nodup, h.known, ?_, ?_, ?_⟩, ⟨List.Subset.refl _, List.subset_cons_self _ _⟩,
      hpath, by simp⟩
    · have hl : (g.node? l).isSome := h.known l (by simp [hpath])
      exact List.forall_mem_cons.mpr ⟨hl, h.sources⟩
    · exact List.forall_mem_cons.mpr ⟨.inl (by simpa using hon), h.targets⟩
    · exact h.settles.mono (List.subset_cons_self _ _)
  · next hoff =>
    split
    · next hskip =>
      -- the block was left before, or there is none of this label
      refine ⟨h, .refl st, hpath, ?_⟩
      simp only [List.mem_singleton, forall_eq]
      intro hnode
      rw [Bool.or_eq_true, Option.isNone_iff_eq_none] at hskip
      rcases hskip with hdone | hnone
      · exact .inr (by simpa using hdone)
      · simp [hnone] at hnode
    · next hnew =>
      -- the search goes on from a new block
      simp only [Bool.or_eq_true, not_or, Bool.not_eq_true, Option.isNone_eq_false_iff] at hnew
      have hsound : Search.Sound g { st with path := next :: st.path } := by
        refine ⟨List.nodup_cons.mpr ⟨by simpa using hoff, h.nodup⟩,
          List.forall_mem_cons.mpr ⟨hnew.2, h.known⟩, h.sources, fun e he => ?_, h.settles⟩
        exact (h.targets e he).imp_left (List.mem_cons_of_mem _)
      have hleaves := ih _ hsound (by simp [hpath])
      exact ⟨hleaves.sound, ⟨hleaves.grows.done, hleaves.grows.edges⟩, hleaves.path,
        by simp [hleaves.done]⟩

theorem Search.looks_foldl (h : st.Sound g) (hpath : st.path = l :: rest) (ss : List Label)
    (ih : ∀ (next : Label) (st : Search), st.Sound g → st.path = next :: l :: rest →
      st.Leaves g next (l :: rest) (g.search bound next st)) :
    st.Looks g l rest ss (ss.foldl (Search.look g bound l) st) := by
  induction ss generalizing st with
  | nil => exact ⟨h, .refl st, hpath, by simp⟩
  | cons next ss ihss =>
    have hlook := looks_look h hpath next (ih next)
    have hrest := ihss hlook.sound hlook.path
    refine ⟨hrest.sound, hlook.grows.trans hrest.grows, hrest.path, ?_⟩
    refine List.forall_mem_cons.mpr ⟨fun hnode => ?_, hrest.found⟩
    exact (hlook.found next (by simp) hnode).imp (fun h => hrest.grows.edges h)
      fun h => hrest.grows.done h

/-- **The search leaves the block it starts from for good**, with all that it finds on the way. -/
theorem leaves_search (h : st.Sound g) (hpath : st.path = l :: rest)
    (hbound : rest.length + bound = g.length) : st.Leaves g l rest (g.search bound l st) := by
  induction bound generalizing l st rest with
  | zero =>
    -- the path would be longer than the graph
    have hlength := h.length_path_le
    rw [hpath, List.length_cons] at hlength
    omega
  | succ bound ih =>
    have hlooks := Search.looks_foldl h hpath (((g.node? l).map g.successors).getD [])
      fun next st hst hnext => ih hst hnext (by simp only [List.length_cons]; omega)
    rw [search_succ]
    dsimp only
    generalize (((g.node? l).map g.successors).getD []).foldl _ st = st1 at hlooks
    obtain ⟨hsound, hgrows, hpath1, hfound⟩ := hlooks
    refine ⟨⟨?_, ?_, hsound.sources, ?_, ?_, hsound.settles⟩,
      ⟨List.subset_cons_of_subset _ hgrows.done, hgrows.edges⟩, by simp [hpath1], by simp⟩
    · exact hsound.nodup.sublist (List.drop_sublist 1 _)
    · exact fun v hv => hsound.known v (List.mem_of_mem_drop hv)
    · intro e he
      have htarget := hsound.targets e he
      rw [hpath1] at htarget ⊢
      simp only [List.mem_cons, List.drop_succ_cons, List.drop_zero] at htarget ⊢
      tauto
    · rintro v ⟨⟨n, hn, hv⟩, hnode⟩
      exact hfound v (by simpa [hn] using hv) hnode

/-- The back edges are those of a search that has left every block that it found. -/
theorem exists_search {rest : List Node} (hg : g = n :: rest) :
    ∃ st : Search, st.Sound g ∧ st.path = [] ∧ n.label ∈ st.done ∧
      ∀ e, e ∈ st.edges ↔ e ∈ g.backEdges := by
  have hstart : Search.Sound g { path := [n.label] } := by
    refine ⟨by simp, ?_, by simp, by simp, trivial⟩
    simp [node?, hg]
  have hbound : ([] : List Label).length + g.length = g.length := Nat.zero_add _
  obtain ⟨hsound, -, hpath, hdone⟩ := leaves_search hstart rfl hbound
  refine ⟨_, hsound, hpath, hdone, fun e => ?_⟩
  subst hg
  simp [backEdges]

/-- **The depth-first search**: there is an order in which every step between blocks that can be
reached goes up or is a back edge. -/
theorem exists_rank {rest : List Node} (hg : g = n :: rest) :
    ∃ (seen : List Label) (rank : Label → Nat), n.label ∈ seen ∧ ∀ u ∈ seen, ∀ v, g.Goes u v →
      v ∈ seen ∧ ((u, v) ∈ g.backEdges ∨ rank u < rank v) := by
  obtain ⟨st, hsound, hpath, hdone, hedges⟩ := exists_search hg
  obtain ⟨rank, hrank⟩ := hsound.settles.exists_rank
  refine ⟨st.done, rank, hdone, fun u hu v hgoes => ?_⟩
  rcases hrank u hu v hgoes with hedge | ⟨hv, hlt⟩
  · have htarget := hsound.targets _ hedge
    rw [hpath] at htarget
    exact ⟨by simpa using htarget, .inl ((hedges _).mp hedge)⟩
  · exact ⟨hv, .inr hlt⟩

theorem mem_labels_of_mem_backEdges (h : (u, v) ∈ g.backEdges) : u ∈ g.map Node.label := by
  cases hg : g with
  | nil => simp [hg, backEdges] at h
  | cons n rest =>
    obtain ⟨st, hsound, -, -, hedges⟩ := exists_search hg
    rw [← hg]
    exact mem_labels (hsound.sources _ ((hedges _).mpr h))

/-! ## §3 The loops -/

/-- The labels of the graph that a loop does not hold. -/
def outside (g : Graph) (body : List Label) : Finset Label :=
  (g.map Node.label).toFinset \ body.toFinset

theorem card_outside_le (body : List Label) : (g.outside body).card ≤ g.length := by
  calc (g.outside body).card ≤ (g.map Node.label).toFinset.card :=
        Finset.card_le_card Finset.sdiff_subset
    _ ≤ (g.map Node.label).length := List.toFinset_card_le _
    _ = g.length := List.length_map _

theorem outside_anti {body' : List Label} (h : body ⊆ body') :
    g.outside body' ⊆ g.outside body := by
  intro l hl
  simp only [outside, Finset.mem_sdiff, List.mem_toFinset] at hl ⊢
  exact ⟨hl.1, fun hmem => hl.2 (h hmem)⟩

theorem card_outside_cons_lt (hl : l ∈ g.map Node.label) (hnew : l ∉ body) :
    (g.outside (l :: body)).card < (g.outside body).card := by
  refine Finset.card_lt_card ((Finset.ssubset_iff_of_subset
    (outside_anti (List.subset_cons_self _ _))).mpr ⟨l, ?_, by simp [outside]⟩)
  exact Finset.mem_sdiff.mpr ⟨List.mem_toFinset.mpr hl, by simpa using hnew⟩

/-- What is true after a block is added to a loop: a block that is new is there with its
predecessors. -/
structure Absorbs (g : Graph) (ls body body' : List Label) : Prop where
  grows : body ⊆ body'
  holds : ls ⊆ body'
  closed : ∀ x ∈ body', x ∈ body ∨ g.predecessors x ⊆ body'

theorem Absorbs.refl (body : List Label) : g.Absorbs [] body body :=
  ⟨List.Subset.refl _, List.nil_subset _, fun _ hx => .inl hx⟩

theorem Absorbs.trans {ls ls' body' body'' : List Label} (h : g.Absorbs ls body body')
    (h' : g.Absorbs ls' body' body'') : g.Absorbs (ls ++ ls') body body'' := by
  refine ⟨List.Subset.trans h.grows h'.grows,
    List.append_subset.mpr ⟨List.Subset.trans h.holds h'.grows, h'.holds⟩, fun x hx => ?_⟩
  rcases h'.closed x hx with hx' | hpreds
  · exact (h.closed x hx').imp_right fun hpreds => List.Subset.trans hpreds h'.grows
  · exact .inr hpreds

theorem absorbs_foldl (ps : List Label) (hps : ps ⊆ g.map Node.label)
    (hbound : (g.outside body).card < bound)
    (ih : ∀ (l : Label) (body : List Label), l ∈ g.map Node.label → (g.outside body).card < bound →
      g.Absorbs [l] body (g.absorb bound l body)) :
    g.Absorbs ps body (ps.foldl (fun body p => g.absorb bound p body) body) := by
  induction ps generalizing body with
  | nil => exact .refl body
  | cons p ps ihps =>
    rw [List.cons_subset] at hps
    have hp := ih p body hps.1 hbound
    have hfewer := Finset.card_le_card (outside_anti (g := g) hp.grows)
    exact hp.trans (ihps hps.2 (Nat.lt_of_le_of_lt hfewer hbound))

/-- **A loop takes in a block together with all that leads to it.** -/
theorem absorbs_absorb (hl : l ∈ g.map Node.label) (hbound : (g.outside body).card < bound) :
    g.Absorbs [l] body (g.absorb bound l body) := by
  induction bound generalizing l body with
  | zero => omega
  | succ bound ih =>
    rw [absorb]
    split
    · next hin =>
      exact ⟨List.Subset.refl _, by simpa using hin, fun _ hx => .inl hx⟩
    · next hnew =>
      have hlt : (g.outside (l :: body)).card < bound :=
        Nat.lt_of_lt_of_le (card_outside_cons_lt hl (by simpa using hnew))
          (Nat.le_of_lt_succ hbound)
      obtain ⟨hgrows, hholds, hclosed⟩ := absorbs_foldl (g.predecessors l) predecessors_subset hlt
        fun _ _ hl hbound => ih hl hbound
      rw [List.cons_subset] at hgrows
      refine ⟨hgrows.2, by simpa using hgrows.1, fun x hx => ?_⟩
      rcases hclosed x hx with hx' | hpreds
      · rcases List.mem_cons.mp hx' with rfl | hx'
        · exact .inr hholds
        · exact .inl hx'
      · exact .inr hpreds

theorem lookup_setBody (header h : Label) (body : List Label) (loops : List (Label × List Label)) :
    (setBody header body loops).lookup h = if h = header then some body else loops.lookup h := by
  induction loops with
  | nil => by_cases hh : h = header <;> simp [setBody, List.lookup_cons, hh, beq_false_of_ne]
  | cons p rest ih =>
    obtain ⟨k, b⟩ := p
    by_cases hk : k = header
    · subst hk
      by_cases hh : h = k <;> simp [setBody, List.lookup_cons, hh, beq_false_of_ne]
    · by_cases hh : h = k
      · subst hh
        simp [setBody, hk]
      · simp [setBody, List.lookup_cons, hk, hh, ih, beq_false_of_ne]

/-- What is true of the loops of some back edges: each holds its header, with a block other than the
header all that leads to it, and the sources of the back edges to the header. -/
structure HasLoops (g : Graph) (edges : List (Label × Label)) (loops : List (Label × List Label)) :
    Prop where
  header : ∀ {h body}, loops.lookup h = some body → h ∈ body
  closed : ∀ {h body x}, loops.lookup h = some body → x ∈ body → x ≠ h → g.predecessors x ⊆ body
  sources : ∀ {u h}, (u, h) ∈ edges → ∃ body, loops.lookup h = some body ∧ u ∈ body

theorem HasLoops.addLoop {loops : List (Label × List Label)} {edge : Label × Label}
    (h : g.HasLoops edges loops) (hedge : edge.1 ∈ g.map Node.label) :
    g.HasLoops (edge :: edges) (g.addLoop loops edge) := by
  obtain ⟨source, header⟩ := edge
  -- the loop of the header so far, which may be the header alone
  obtain ⟨body, hbody⟩ : ∃ body, (loops.lookup header).getD [header] = body := ⟨_, rfl⟩
  have hstart : header ∈ body ∧ ∀ x ∈ body, x ≠ header → g.predecessors x ⊆ body := by
    cases hlookup : loops.lookup header with
    | none => simp [← hbody, hlookup]
    | some b =>
      obtain rfl : b = body := by simpa [hlookup] using hbody
      exact ⟨h.header hlookup, fun x hx hne => h.closed hlookup hx hne⟩
  have hbound : (g.outside body).card < g.length + 1 := Nat.lt_succ_of_le (card_outside_le body)
  obtain ⟨hgrows, hholds, hclosed⟩ := absorbs_absorb hedge hbound
  have hlookup : ∀ k, (g.addLoop loops (source, header)).lookup k =
      if k = header then some (g.absorb (g.length + 1) source body) else loops.lookup k := by
    intro k
    rw [Graph.addLoop, hbody, lookup_setBody]
  refine ⟨fun {k b} hk => ?_, fun {k b x} hk hx hne => ?_, fun {u k} hu => ?_⟩
  · rw [hlookup] at hk
    split at hk
    · next heq =>
      cases hk
      exact heq ▸ hgrows hstart.1
    · exact h.header hk
  · rw [hlookup] at hk
    split at hk
    · next heq =>
      cases hk
      rcases hclosed x hx with hx' | hpreds
      · exact List.Subset.trans (hstart.2 x hx' (heq ▸ hne)) hgrows
      · exact hpreds
    · exact h.closed hk hx hne
  · rw [hlookup]
    rcases List.mem_cons.mp hu with heq | hu
    · cases heq
      exact ⟨_, if_pos rfl, by simpa using hholds⟩
    · obtain ⟨b, hb, hub⟩ := h.sources hu
      split
      · next heq =>
        refine ⟨_, rfl, hgrows ?_⟩
        rw [← hbody, ← heq, hb]
        exact hub
      · exact ⟨b, hb, hub⟩

/-- **The loops of a graph.** -/
theorem hasLoops_loops : g.HasLoops g.backEdges g.loops := by
  have hfold : ∀ (edges done : List (Label × Label)) (loops : List (Label × List Label)),
      (∀ e ∈ edges, e.1 ∈ g.map Node.label) → g.HasLoops done loops →
      g.HasLoops (edges.reverse ++ done) (edges.foldl g.addLoop loops) := by
    intro edges
    induction edges with
    | nil => exact fun done loops _ h => by simpa using h
    | cons e edges ih =>
      intro done loops hlabels h
      rw [List.forall_mem_cons] at hlabels
      simpa using ih (e :: done) _ hlabels.2 (h.addLoop hlabels.1)
  have hnone : g.HasLoops [] [] := ⟨by simp, by simp, by simp⟩
  obtain ⟨hheader, hclosed, hsources⟩ := hfold g.backEdges [] []
    (fun e he => mem_labels_of_mem_backEdges he) hnone
  exact ⟨hheader, hclosed, fun hu => hsources (by simpa using hu)⟩

end Graph

end Antecedent
