import Antecedent.Proofs.Dominance
import Antecedent.Proofs.Termination

/-!
# Cycles and their headers

On every graph, reducible or not, the loops that are found account for all cycles.

* `Graph.exists_owner` says that a closed walk passes through a header whose loop holds all of it.
* `loops_own_cycles` is the result.  Its last part asks for distinct labels, and
  `not_mem_loop_iff_of_replaced` is the reason.
-/

namespace Antecedent

open Relation (ReflTransGen)

namespace Graph

variable {g : Graph} {h u v x : Label} {body : List Label}

/-! ## §1 Closed walks -/

/-- **Every cycle has an owner**: of the blocks of a closed walk take one that comes first in the
order of the search.  The steps of the walk to it are back edges, and its loop holds whatever leads
to another block of the loop. -/
theorem exists_owner {n : Node} {rest : List Node} (hg : g = n :: rest) {xs : List Label}
    (hreached : ReflTransGen g.Goes n.label x) (hwalk : (x :: xs ++ [x]).IsChain g.Goes) :
    ∃ h ∈ x :: xs, ∃ body, g.loops.lookup h = some body ∧ x :: xs ⊆ body := by
  obtain ⟨seen, rank, hentry, hrank⟩ := exists_rank hg
  have hx : x ∈ seen :=
    hreached.rec hentry fun _ hstep ih => (hrank _ ih _ hstep).1
  have hseen : ∀ y ∈ x :: xs ++ [x], y ∈ seen :=
    hwalk.induction (· ∈ seen) _ (fun y z hstep hy => (hrank y hy z hstep).1) fun _ => hx
  obtain ⟨h, hh, hfirst⟩ : ∃ h ∈ x :: xs, ∀ y ∈ x :: xs ++ [x], rank h ≤ rank y := by
    refine ⟨(x :: xs).minOn rank (by simp), List.minOn_mem, fun y hy => ?_⟩
    exact List.apply_minOn_le_of_mem (by grind)
  have hback : ∀ y ∈ x :: xs ++ [x], g.Goes y h → (y, h) ∈ g.backEdges := fun y hy hstep =>
    (hrank y (hseen y hy) h hstep).2.resolve_right (Nat.not_lt.mpr (hfirst y hy))
  -- the walk comes to the owner, from which the first block is found again
  obtain ⟨before, after, hsplit⟩ : ∃ before after, x :: xs ++ [x] = x :: before ++ h :: after := by
    obtain ⟨before, after, hsplit⟩ := List.append_of_mem (show h ∈ xs ++ [x] by grind)
    exact ⟨before, after, by simp [hsplit]⟩
  obtain ⟨body, hbody, -⟩ : ∃ body, g.loops.lookup h = some body ∧ _ := by
    have hlast := (List.isChain_append.mp (hsplit ▸ hwalk)).2.2 _
      (List.getLast?_eq_some_getLast (List.cons_ne_nil x before)) h rfl
    refine hasLoops_loops.sources (hback _ ?_ hlast)
    exact hsplit ▸ List.mem_append_left _ (List.getLast_mem _)
  have hholds : (x :: xs ++ [x]).IsChain fun y z => z ∈ body → y ∈ body := by
    refine hwalk.imp_of_mem_imp fun y z hy _ hstep hz => ?_
    by_cases heq : z = h
    · obtain ⟨body', hbody', hy⟩ := hasLoops_loops.sources (hback y hy (heq ▸ hstep))
      exact Option.some.inj (hbody'.symm.trans hbody) ▸ hy
    · exact hasLoops_loops.closed hbody hz heq hstep.mem_predecessors
  have hfirst : x ∈ body := by
    have hpart : (x :: before ++ [h] ++ after).IsChain fun y z => z ∈ body → y ∈ body := by
      simpa [hsplit] using hholds
    refine hpart.left_of_append.backwards_induction (· ∈ body) _ (fun _ _ hstep => hstep)
      (fun _ => ?_) x (by simp)
    simpa using hasLoops_loops.header hbody
  refine ⟨h, hh, body, hbody, fun y hy => ?_⟩
  exact hholds.backwards_induction (· ∈ body) _ (fun _ _ hstep => hstep) (fun _ => by simpa) y
    (List.mem_append_left _ hy)

/-! ## §2 What is in a loop -/

/-- **A block is in a loop** if and only if it reaches the source of a back edge to the header on a
path that does not pass through the header. -/
theorem mem_loop_iff (hbody : g.loops.lookup h = some body) (hne : x ≠ h) :
    x ∈ body ↔ ∃ u, (u, h) ∈ g.backEdges ∧ g.Skirts h x u := by
  constructor
  · intro hx
    exact ((loopsReach_loops h body hbody).2.2 x hx).resolve_left hne
  · rintro ⟨u, hu, -, hpath⟩
    obtain ⟨body', hbody', hmem⟩ := hasLoops_loops.sources hu
    obtain rfl : body' = body := Option.some.inj (hbody'.symm.trans hbody)
    induction hpath using ReflTransGen.head_induction_on with
    | refl => exact hmem
    | head hstep _ ih => exact hasLoops_loops.closed hbody (ih hstep.2) hstep.2 hstep.1

theorem isSome_node? (hl : v ∈ g.map Node.label) : (g.node? v).isSome := by
  obtain ⟨n, hn, rfl⟩ := List.mem_map.mp hl
  simpa [node?, List.find?_isSome] using ⟨n, hn, rfl⟩

/-- With distinct labels, what leads to a block goes to it in the search too. -/
theorem goes_of_leads (hnodup : (g.map Node.label).Nodup) (hleads : g.Leads u v)
    (hv : (g.node? v).isSome) : g.Goes u v := by
  obtain ⟨n, hn, rfl⟩ := List.mem_map.mp hleads
  obtain ⟨hmem, hsucc⟩ := List.mem_filter.mp hn
  obtain ⟨m, hm⟩ := Option.isSome_iff_exists.mp (isSome_node? (List.mem_map_of_mem hmem))
  obtain ⟨hm', hlabel⟩ := mem_labels_of_node? hm
  obtain rfl : m = n := List.inj_on_of_nodup_map hnodup hm' hmem hlabel
  exact ⟨⟨m, hm, by simpa using hsucc⟩, hv⟩

theorem skirts_iff_goes (hnodup : (g.map Node.label).Nodup) (hu : (g.node? u).isSome)
    (hne : x ≠ h) : g.Skirts h x u ↔ ReflTransGen (fun a b => g.Goes a b ∧ b ≠ h) x u := by
  constructor
  · rintro ⟨-, hpath⟩
    clear hne
    induction hpath using ReflTransGen.head_induction_on with
    | refl => exact .refl
    | @head y z hstep hrest ih =>
      -- the next block is the last one, or has a block that follows it
      have hz : (g.node? z).isSome := by
        rcases hrest.cases_head with rfl | ⟨w, hw, -⟩
        · exact hu
        · exact isSome_node? (predecessors_subset hw.1)
      exact .head ⟨goes_of_leads hnodup hstep.1 hz, hstep.2⟩ ih
  · intro hpath
    exact ⟨hne, ReflTransGen.mono (fun _ _ hstep => ⟨hstep.1.mem_predecessors, hstep.2⟩) x u hpath⟩

end Graph

/-! ## §3 The loops of a subroutine -/

/-- **Every cycle is owned by a header**: a closed walk between blocks that can be reached passes
through a header whose loop holds all of its blocks.  A block other than the header is in a loop if
and only if it reaches the source of a back edge to the header without passing through the header,
where all listed blocks count.  If the labels of the blocks are distinct, then these are the paths
from block to block. -/
theorem loops_own_cycles {sub : Sub} {f : Flow} (hf : sub.flow = .ok f) :
    (∀ n rest x xs, f.graph = n :: rest → ReflTransGen f.graph.Goes n.label x →
      (x :: xs ++ [x]).IsChain f.graph.Goes →
      ∃ h ∈ x :: xs, ∃ body, f.loops.lookup h = some body ∧ x :: xs ⊆ body) ∧
    (∀ h body x, f.loops.lookup h = some body → x ≠ h →
      (x ∈ body ↔ ∃ u, (u, h) ∈ f.graph.backEdges ∧ f.graph.Skirts h x u)) ∧
    ((f.graph.map Node.label).Nodup → ∀ h body x, f.loops.lookup h = some body → x ≠ h →
      (x ∈ body ↔ ∃ u, (u, h) ∈ f.graph.backEdges ∧
        ReflTransGen (fun a b => f.graph.Goes a b ∧ b ≠ h) x u)) := by
  rw [Sub.loops_flow hf]
  refine ⟨fun n rest x xs hg => Graph.exists_owner hg, fun h body x => Graph.mem_loop_iff,
    fun hnodup h body x hbody hne => ?_⟩
  rw [Graph.mem_loop_iff hbody hne]
  refine exists_congr fun u => and_congr_right fun hu => ?_
  exact Graph.skirts_iff_goes hnodup
    (Graph.isSome_node? (Graph.mem_labels_of_mem_backEdges hu)) hne

/-- A closed walk through loops that can be entered at several blocks. -/
theorem loops_own_cycles_knot :
    (Sub.ofSteps knotSteps).flow = .ok knotFlow ∧
      (∃ h ∈ ["h", "b", "e"].map Label.text, ∃ body, knotFlow.loops.lookup h = some body ∧
        ["h", "b", "e"].map Label.text ⊆ body) ∧
      ∃ u, (u, .text "h") ∈ knotFlow.graph.backEdges ∧
        ReflTransGen (fun a b => knotFlow.graph.Goes a b ∧ b ≠ .text "h") (.text "d") u := by
  obtain ⟨howner, -, hmem⟩ := loops_own_cycles flow_knot
  refine ⟨flow_knot, ?_, ?_⟩
  · refine howner _ _ (.text "h") [.text "b", .text "e"] rfl ?_ ?_
    · exact .tail (.single ⟨⟨_, rfl, by decide⟩, rfl⟩) (b := .text "e") ⟨⟨_, rfl, by decide⟩, rfl⟩
    · exact .cons_cons ⟨⟨_, rfl, by decide⟩, rfl⟩ (.cons_cons ⟨⟨_, rfl, by decide⟩, rfl⟩
        (.cons_cons ⟨⟨_, rfl, by decide⟩, rfl⟩ (.singleton _)))
  · exact (hmem (by decide) (.text "h") _ (.text "d") rfl (by decide)).mp (by decide)

/-- The second block named `a` replaces the first one, which jumps into the loop. -/
def replacedSteps : Steps :=
  [("s", ["h", "a"]), ("h", ["b"]), ("b", ["h"]), ("a", ["b"]), ("a", [])]

/-- Without distinct labels a loop can hold a block that does not reach it: the jumps of a block
that another one of its label replaces count. -/
theorem not_mem_loop_iff_of_replaced :
    ¬∀ (sub : Sub) (f : Flow), sub.flow = .ok f → ∀ h body x, f.loops.lookup h = some body →
      x ≠ h → (x ∈ body ↔ ∃ u, (u, h) ∈ f.graph.backEdges ∧
        ReflTransGen (fun a b => f.graph.Goes a b ∧ b ≠ h) x u) := by
  intro hall
  have hflow : (Sub.ofSteps replacedSteps).flow =
      .ok (.ofSteps replacedSteps [("h", ["s", "a", "b", "h"])]) :=
    rfl
  obtain ⟨u, hu, hpath⟩ := (hall _ _ hflow (.text "h") _ (.text "a") rfl (by decide)).mp (by decide)
  rcases hpath.cases_head with rfl | ⟨b, ⟨⟨⟨n, hn, hb⟩, -⟩, -⟩, -⟩
  · exact absurd hu (by decide)
  · obtain rfl := Option.some.inj hn
    cases hb

end Antecedent
