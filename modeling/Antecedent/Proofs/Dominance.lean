import Antecedent.Proofs.Unrolling

/-!
# Blocks that dominate others

A block dominates another if every path from the entry to the other one passes through it.  A graph
is reducible if every back edge leads to a block that dominates its source: a loop can be entered
at its header only.

* `Graph.mem_loop_cases` says what is in a loop.
* `Flow.nested_of_reducible` says that no two headers of a reducible graph lie in the loops of each
  other.
-/

namespace Antecedent

open Relation (ReflTransGen)

namespace Graph

variable {g : Graph} {h l u v x : Label}

/-! ## §1 Paths -/

def Leads (g : Graph) (u v : Label) : Prop :=
  u ∈ g.predecessors v

/-- Whether a path goes from a block to another and passes through a third one nowhere. -/
def Skirts (g : Graph) (h u v : Label) : Prop :=
  u ≠ h ∧ ReflTransGen (fun a b => g.Leads a b ∧ b ≠ h) u v

/-- Whether every path from the entry to a block passes through another. -/
def Dominates (g : Graph) (h v : Label) : Prop :=
  ∀ n rest, g = n :: rest → ¬g.Skirts h n.label v

/-- Whether every back edge leads to a block that dominates its source. -/
def Reducible (g : Graph) : Prop :=
  ∀ u h, (u, h) ∈ g.backEdges → g.Dominates h u

theorem skirts_self (hne : v ≠ h) : g.Skirts h v v :=
  ⟨hne, .refl⟩

theorem Skirts.tail (hpath : g.Skirts h u v) (hleads : g.Leads v x) (hne : x ≠ h) :
    g.Skirts h u x :=
  ⟨hpath.1, hpath.2.tail ⟨hleads, hne⟩⟩

theorem Skirts.trans (hpath : g.Skirts h u v) (hpath' : g.Skirts h v x) : g.Skirts h u x :=
  ⟨hpath.1, hpath.2.trans hpath'.2⟩

/-- A path that passes through a block nowhere does not end there. -/
theorem Skirts.ne (hpath : g.Skirts h u v) : v ≠ h := by
  obtain ⟨hne, hpath⟩ := hpath
  cases hpath with
  | refl => exact hne
  | tail _ hstep => exact hstep.2

theorem leads_of_node? {n : Node} (hn : g.node? u = some n) (hv : v ∈ g.successors n) :
    g.Leads u v := by
  obtain ⟨hmem, rfl⟩ := mem_labels_of_node? hn
  exact List.mem_map_of_mem (List.mem_filter.mpr ⟨hmem, by simpa using hv⟩)

/-! ## §2 Back edges -/

def Reached (g : Graph) (v : Label) : Prop :=
  ∃ n rest, g = n :: rest ∧ ReflTransGen g.Leads n.label v

theorem Reached.tail (hu : g.Reached u) (hleads : g.Leads u v) : g.Reached v := by
  obtain ⟨n, rest, hg, hpath⟩ := hu
  exact ⟨n, rest, hg, hpath.tail hleads⟩

/-- Whether the back edges that a search has found are edges between blocks that are reached. -/
def Search.Real (g : Graph) (st : Search) : Prop :=
  ∀ e ∈ st.edges, g.Reached e.1 ∧ g.Leads e.1 e.2

/-- The induction is on the bound, and inside it on the blocks that may follow. -/
theorem Search.Real.search {bound : Nat} {st : Search} (hst : st.Real g) (hl : g.Reached l) :
    (g.search bound l st).Real g := by
  induction bound generalizing l st with
  | zero => exact hst
  | succ bound ih =>
    -- edges are recorded while the successors are looked at, one after the other
    have hlook : ∀ (nexts : List Label) (st : Search), st.Real g →
        (∀ next ∈ nexts, g.Leads l next) → (nexts.foldl (Search.look g bound l) st).Real g := by
      intro nexts
      induction nexts with
      | nil => exact fun st hst _ => hst
      | cons next nexts ihn =>
        intro st hst hnexts
        obtain ⟨hnext, hnexts⟩ := List.forall_mem_cons.mp hnexts
        refine ihn _ ?_ hnexts
        unfold Search.look
        split
        · exact List.forall_mem_cons.mpr ⟨⟨hl, hnext⟩, hst⟩
        · split
          · exact hst
          · have hmore : Search.Real g { st with path := next :: st.path } := hst
            exact ih hmore (hl.tail hnext)
    have hnexts : ∀ next ∈ ((g.node? l).map g.successors).getD [], g.Leads l next := by
      intro next hnext
      cases hn : g.node? l with
      | none => simp [hn] at hnext
      | some n => exact leads_of_node? hn (by simpa [hn] using hnext)
    rw [search_succ]
    exact hlook _ st hst hnexts

/-- **A back edge is an edge from a block that is reached.** -/
theorem real_backEdges (he : (u, h) ∈ g.backEdges) : g.Reached u ∧ g.Leads u h := by
  cases hg : g with
  | nil => simp [hg, backEdges] at he
  | cons n rest =>
    have hstart : Search.Real g { path := [n.label] } := by simp [Search.Real]
    have hsearch : (g.search g.length n.label { path := [n.label] }).Real g :=
      hstart.search ⟨n, rest, hg, .refl⟩
    rw [hg] at he hsearch
    exact hsearch (u, h) (by simpa [backEdges] using he)

/-! ## §3 What is in a loop -/

/-- What is absorbed with a block reaches it without passing through what was there before. -/
theorem mem_absorb_cases {bound : Nat} {body : List Label} (hh : h ∈ body) :
    h ∈ g.absorb bound l body ∧
      ∀ x ∈ g.absorb bound l body, x ∈ body ∨ g.Skirts h x l := by
  induction bound generalizing l body with
  | zero => exact ⟨hh, fun x hx => .inl hx⟩
  | succ bound ih =>
    unfold absorb
    split
    · exact ⟨hh, fun x hx => .inl hx⟩
    · next hnew =>
      have hne : l ≠ h := by
        rintro rfl
        exact hnew (by simpa using hh)
      -- the predecessors are absorbed one after the other
      have hfold : ∀ (ps acc : List Label), (∀ p ∈ ps, g.Leads p l) → h ∈ acc →
          (∀ x ∈ acc, x ∈ body ∨ g.Skirts h x l) →
          h ∈ ps.foldl (fun body p => g.absorb bound p body) acc ∧
            ∀ x ∈ ps.foldl (fun body p => g.absorb bound p body) acc,
              x ∈ body ∨ g.Skirts h x l := by
        intro ps
        induction ps with
        | nil => exact fun acc _ hacc hall => ⟨hacc, hall⟩
        | cons p ps ihp =>
          intro acc hps hacc hall
          obtain ⟨hp, hps⟩ := List.forall_mem_cons.mp hps
          obtain ⟨hacc', hall'⟩ := ih (l := p) hacc
          refine ihp _ hps hacc' fun x hx => ?_
          rcases hall' x hx with hx | hx
          · exact hall x hx
          · exact .inr (hx.tail hp hne)
      refine hfold _ _ (fun p hp => hp) (List.mem_cons_of_mem _ hh) ?_
      exact List.forall_mem_cons.mpr ⟨.inr (skirts_self hne), fun x hx => .inl hx⟩

/-- What is true of the loops of some back edges: a header has a back edge, and every block of its
loop reaches the source of one without passing through the header. -/
def LoopsReach (g : Graph) (edges : List (Label × Label)) (loops : List (Label × List Label)) :
    Prop :=
  ∀ h body, loops.lookup h = some body → h ∈ body ∧ (∃ u, (u, h) ∈ edges) ∧
    ∀ x ∈ body, x = h ∨ ∃ u, (u, h) ∈ edges ∧ g.Skirts h x u

theorem LoopsReach.addLoop {edges : List (Label × Label)} {loops : List (Label × List Label)}
    (hall : g.LoopsReach edges loops) (edge : Label × Label) :
    g.LoopsReach (edge :: edges) (g.addLoop loops edge) := by
  obtain ⟨source, header⟩ := edge
  -- the edges that were there before are still there
  have hkept : ∀ {h x}, (x = h ∨ ∃ u, (u, h) ∈ edges ∧ g.Skirts h x u) →
      x = h ∨ ∃ u, (u, h) ∈ (source, header) :: edges ∧ g.Skirts h x u := by
    rintro h x (heq | ⟨u, hu, hpath⟩)
    · exact .inl heq
    · exact .inr ⟨u, List.mem_cons_of_mem _ hu, hpath⟩
  have hstart : header ∈ (loops.lookup header).getD [header] ∧
      ∀ x ∈ (loops.lookup header).getD [header],
        x = header ∨ ∃ u, (u, header) ∈ edges ∧ g.Skirts header x u := by
    cases hlookup : loops.lookup header with
    | none => simp
    | some body => exact ⟨(hall _ _ hlookup).1, (hall _ _ hlookup).2.2⟩
  obtain ⟨hheader, habsorb⟩ := mem_absorb_cases (g := g) (l := source) hstart.1
  intro h body hbody
  rw [Graph.addLoop, lookup_setBody] at hbody
  split at hbody
  · next heq =>
    subst heq
    cases hbody
    refine ⟨hheader, ⟨source, List.mem_cons_self ..⟩, fun x hx => ?_⟩
    rcases habsorb x hx with hx | hx
    · exact hkept (hstart.2 x hx)
    · exact .inr ⟨source, List.mem_cons_self .., hx⟩
  · obtain ⟨hh, ⟨u, hu⟩, hreach⟩ := hall h body hbody
    exact ⟨hh, ⟨u, List.mem_cons_of_mem _ hu⟩, fun x hx => hkept (hreach x hx)⟩

/-- **What is in a loop.** -/
theorem loopsReach_loops : g.LoopsReach g.backEdges g.loops := by
  have hfold : ∀ (edges done : List (Label × Label)) (loops : List (Label × List Label)),
      g.LoopsReach done loops →
      g.LoopsReach (edges.reverse ++ done) (edges.foldl g.addLoop loops) := by
    intro edges
    induction edges with
    | nil => exact fun done loops hall => by simpa using hall
    | cons e edges ih =>
      intro done loops hall
      simpa using ih (e :: done) _ (hall.addLoop e)
  have hnone : g.LoopsReach [] [] := fun h body hbody => by simp at hbody
  intro h body hbody
  simpa [LoopsReach] using hfold g.backEdges [] [] hnone h body hbody

end Graph

/-! ## §4 Reducible graphs -/

namespace Flow

variable {f : Flow} {h l x : Label} (hloops : f.loops = f.graph.loops)
include hloops

theorem mem_body_self (hh : f.isHeader h = true) : h ∈ f.body h := by
  obtain ⟨body, hbody⟩ := Option.isSome_iff_exists.mp hh
  exact mem_body_iff.mpr ⟨body, hbody, (hloops ▸ Graph.hasLoops_loops).header hbody⟩

/-- **A loop is entered at its header only**: what leads to another block of it is in it. -/
theorem mem_body_of_leads (hleads : f.graph.Leads l x) (hx : x ∈ f.body h) (hne : x ≠ h) :
    l ∈ f.body h := by
  obtain ⟨body, hbody, hmem⟩ := mem_body_iff.mp hx
  exact mem_body_iff.mpr ⟨body, hbody, (hloops ▸ Graph.hasLoops_loops).closed hbody hmem hne hleads⟩

/-- What is in a loop reaches the source of a back edge without passing through the header. -/
theorem exists_backEdge (hx : x ∈ f.body h) : ∃ u, (u, h) ∈ f.graph.backEdges ∧ u ∈ f.body h ∧
    (x = h ∨ f.graph.Skirts h x u) := by
  obtain ⟨body, hbody, hmem⟩ := mem_body_iff.mp hx
  have hreach : f.graph.LoopsReach f.graph.backEdges f.loops := hloops ▸ Graph.loopsReach_loops
  have hall : f.graph.HasLoops f.graph.backEdges f.loops := hloops ▸ Graph.hasLoops_loops
  obtain ⟨-, ⟨u, hu⟩, hpaths⟩ := hreach h body hbody
  rcases hpaths x hmem with heq | ⟨u', hu', hpath⟩
  · exact ⟨u, hu, mem_body_iff.mpr (hall.sources hu), .inl heq⟩
  · exact ⟨u', hu', mem_body_iff.mpr (hall.sources hu'), .inr hpath⟩

theorem dominates_of_mem_body (hreducible : f.graph.Reducible) (hx : x ∈ f.body h) (hne : x ≠ h) :
    f.graph.Dominates h x := by
  intro n rest hg hpath
  obtain ⟨u, hu, -, heq | hskirts⟩ := exists_backEdge hloops hx
  · exact hne heq
  · exact hreducible u h hu n rest hg (hpath.trans hskirts)

/-- The entry is in no loop but its own. -/
theorem eq_of_entry_mem_body {n : Node} {rest : List Node} (hreducible : f.graph.Reducible)
    (hg : f.graph = n :: rest) (hn : n.label ∈ f.body h) : n.label = h := by
  by_contra hne
  exact dominates_of_mem_body hloops hreducible hn hne n rest hg (Graph.skirts_self hne)

/-- **No two headers of a reducible graph lie in the loops of each other.**  Each of them would
dominate the other one, so that no path from the entry could come to the first of the two. -/
theorem nested_of_reducible (hreducible : f.graph.Reducible) : f.Nested := by
  intro h h' hh hh'
  by_contra hne
  obtain ⟨u, hu, -⟩ := exists_backEdge hloops hh'
  obtain ⟨hreached, hleads⟩ := Graph.real_backEdges hu
  obtain ⟨n, rest, hg, hpath⟩ := hreached.tail hleads
  have hnot : ¬f.graph.Skirts h' n.label h :=
    dominates_of_mem_body hloops hreducible hh hne n rest hg
  have hnot' : ¬f.graph.Skirts h n.label h' :=
    dominates_of_mem_body hloops hreducible hh' (Ne.symm hne) n rest hg
  have hentry : n.label ≠ h := by
    intro heq
    rw [heq] at hnot
    exact hnot (Graph.skirts_self hne)
  have hentry' : n.label ≠ h' := by
    intro heq
    rw [heq] at hnot'
    exact hnot' (Graph.skirts_self (Ne.symm hne))
  -- a path from the entry comes to neither of them
  have hskirts : ∀ x, ReflTransGen f.graph.Leads n.label x →
      f.graph.Skirts h n.label x ∧ f.graph.Skirts h' n.label x := by
    intro x hx
    induction hx with
    | refl => exact ⟨Graph.skirts_self hentry, Graph.skirts_self hentry'⟩
    | @tail y x _ hstep ih =>
      have hx : x ≠ h := by
        rintro rfl
        exact hnot (ih.2.tail hstep hne)
      have hx' : x ≠ h' := by
        rintro rfl
        exact hnot' (ih.1.tail hstep (Ne.symm hne))
      exact ⟨ih.1.tail hstep hx, ih.2.tail hstep hx'⟩
  exact (hskirts h hpath).1.ne rfl

/-- **A loop whose header lies in another loop lies in it as a whole.**  The induction goes back
along the path to a back edge of the inner loop, which cannot come to the outer header. -/
theorem body_subset (hnested : f.Nested) (hl : l ∈ f.body h) (hne : l ≠ h) :
    f.body l ⊆ f.body h := by
  intro x hx
  obtain ⟨u, hu, hmem, rfl | ⟨-, hpath⟩⟩ := exists_backEdge hloops hx
  · exact hl
  · have hboth : x ∈ f.body l ∧ x ∈ f.body h := by
      clear hx
      induction hpath using ReflTransGen.head_induction_on with
      | refl => exact ⟨hmem, mem_body_of_leads hloops (Graph.real_backEdges hu).2 hl hne⟩
      | @head y z hstep _ ih =>
        have hz : z ≠ h := by
          rintro rfl
          exact hne (hnested l z hl ih.1)
        exact ⟨mem_body_of_leads hloops hstep.1 ih.1 hstep.2,
          mem_body_of_leads hloops hstep.1 ih.2 hz⟩
    exact hboth.2

end Flow

end Antecedent
