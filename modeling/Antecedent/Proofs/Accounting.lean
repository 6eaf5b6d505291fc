import Mathlib.Order.Interval.Finset.Nat
import Antecedent.Proofs.Termination
import Antecedent.Proofs.Dominance

/-!
# What loop counts count

On a reducible graph the counts of a key say exactly how often the path to it has come to each
header on its present stay in the header's loop.

* `Flow.Accounts` says that the counts of a key are the visits of the loops around its block, the
  outermost first.
* `Flow.isCut_iff_visits` says which paths are cut, and `counts_of_reducible` puts this together.
-/

namespace Antecedent

open Build (Unrolls stable_unrolls)

namespace Flow

variable {f : Flow} {k : Key} {h l : Label} {path : List Label} {n : Nat}

/-! ## §1 Visits -/

/-- How often a path comes to a header on its last stay in the header's loop.  The block at which
the path ends stands first. -/
def visits (f : Flow) (h : Label) (path : List Label) : Nat :=
  (path.takeWhile fun l => (f.body h).contains l).count h

theorem visits_cons (hl : l ∈ f.body h) :
    f.visits h (l :: path) = f.visits h path + if l = h then 1 else 0 := by
  simp [visits, hl, List.count_cons]

/-- A path that ends outside of a loop is not on a stay in it. -/
theorem visits_of_notMem (hl : l ∉ f.body h) : f.visits h (l :: path) = 0 := by
  simp [visits, hl]

/-- Whether the loop of a header lies in the loop of another one and is smaller. -/
def Inside (f : Flow) (h h' : Label) : Prop :=
  f.body h ⊆ f.body h' ∧ ¬f.body h' ⊆ f.body h

theorem Inside.ne {h' : Label} (hin : f.Inside h h') : h ≠ h' := by
  rintro rfl
  exact hin.2 (List.Subset.refl _)

/-- Whether the counts of a key are the visits that a path to its block has made to the headers of
the loops around the block, from the outermost loop to the innermost. -/
structure Accounts (f : Flow) (k : Key) (path : List Label) : Prop where
  mem_iff : ∀ h n, (h, n) ∈ k.counts ↔ k.label ∈ f.body h ∧ n = f.visits h (k.label :: path)
  outermost : k.counts.Pairwise fun p q => f.Inside q.1 p.1
  pos : ∀ p ∈ k.counts, 0 < p.2

theorem Accounts.nodup (hacc : f.Accounts k path) : (k.counts.map Prod.fst).Nodup :=
  List.pairwise_map.mpr (hacc.outermost.imp fun hin => hin.ne.symm)

/-! ## §2 One step -/

section Step

variable (hloops : f.loops = f.graph.loops) (hnested : f.Nested)
include hloops hnested

theorem inside_of_mem_body (hl : l ∈ f.body h) (hne : l ≠ h) : f.Inside l h := by
  have hh : h ∈ f.body h := mem_body_self hloops (isHeader_of_mem_body hl)
  exact ⟨body_subset hloops hnested hl hne, fun hsub => hne (hnested l h hl (hsub hh))⟩

/-- **Entering a header** drops no count of a loop around it: the loops entered after it do not hold
it, so their counts are gone already. -/
theorem Accounts.exists_counts_key (hacc : f.Accounts k path) (hheader : f.isHeader l = true) :
    ∃ before, (f.key l k.counts).counts = before ++ [(l, f.visits l (k.label :: path) + 1)] ∧
      before.Sublist k.counts ∧
      ∀ p, p ∈ before ↔ p ∈ k.counts ∧ l ∈ f.body p.1 ∧ p.1 ≠ l := by
  have hself : l ∈ f.body l := mem_body_self hloops hheader
  obtain ⟨kept, hkept⟩ : ∃ kept, k.counts.filter (fun p => (f.body p.1).contains l) = kept :=
    ⟨_, rfl⟩
  have hmem : ∀ p, p ∈ kept ↔ p ∈ k.counts ∧ l ∈ f.body p.1 := by
    intro p
    rw [← hkept, List.mem_filter, List.contains_iff_mem]
  have hsub : kept.Sublist k.counts := hkept ▸ List.filter_sublist
  have hcounts : (f.key l k.counts).counts = enterLoop l kept := by
    simp only [key, hkept, if_pos hheader]
  by_cases hin : k.label ∈ f.body l
  · -- the header has a count, and it is the last one that is kept
    have hcount : (l, f.visits l (k.label :: path)) ∈ kept :=
      (hmem _).mpr ⟨(hacc.mem_iff l _).mpr ⟨hin, rfl⟩, hself⟩
    obtain ⟨before, after, heq⟩ := List.append_of_mem hcount
    have hpairs := hacc.outermost.sublist hsub
    rw [heq, List.pairwise_append, List.pairwise_cons] at hpairs
    obtain ⟨-, ⟨hafter, -⟩, hbefore⟩ := hpairs
    have hnil : after = [] := by
      refine List.eq_nil_iff_forall_not_mem.mpr fun q hq => ?_
      have hlq : l ∈ f.body q.1 := ((hmem q).mp (by simp [heq, hq])).2
      have hq' := (hafter q hq).1 (mem_body_self hloops (isHeader_of_mem_body hlq))
      exact (hafter q hq).ne (hnested q.1 l hq' hlq)
    have hne : ∀ p ∈ before, p.1 ≠ l := fun p hp =>
      (hbefore p hp _ List.mem_cons_self).ne.symm
    subst hnil
    refine ⟨before, ?_, ?_, fun p => ?_⟩
    · rw [hcounts, heq, enterLoop_append hne, enterLoop, if_pos rfl]
    · exact (heq ▸ List.sublist_append_left before _).trans hsub
    · rw [← and_assoc, ← hmem, heq]
      simp only [List.mem_append, List.mem_singleton]
      constructor
      · exact fun hp => ⟨.inl hp, hne p hp⟩
      · rintro ⟨hp | rfl, hpl⟩
        · exact hp
        · exact absurd rfl hpl
  · -- the header has no count yet
    have hne : ∀ p ∈ kept, p.1 ≠ l := by
      rintro p hp rfl
      exact hin ((hacc.mem_iff p.1 p.2).mp ((hmem p).mp hp).1).1
    refine ⟨kept, ?_, hsub, fun p => ?_⟩
    · have henter := enterLoop_append hne []
      rw [List.append_nil] at henter
      rw [hcounts, visits_of_notMem hin, henter, enterLoop]
    · rw [← and_assoc, ← hmem]
      exact ⟨fun hp => ⟨hp, hne p hp⟩, And.left⟩

/-- **A step of the walk keeps account.** -/
theorem Accounts.step (hacc : f.Accounts k path) (hleads : f.graph.Leads k.label l) :
    f.Accounts (f.key l k.counts) (k.label :: path) := by
  -- the visits to the header of another loop around the block are those of before
  have hother : ∀ h n, h ≠ l → ((h, n) ∈ k.counts ∧ l ∈ f.body h ↔
      l ∈ f.body h ∧ n = f.visits h (l :: k.label :: path)) := by
    intro h n hne
    rw [hacc.mem_iff]
    constructor
    · rintro ⟨⟨-, hn⟩, hl⟩
      exact ⟨hl, by rw [visits_cons hl, if_neg hne.symm, hn, Nat.add_zero]⟩
    · rintro ⟨hl, hn⟩
      rw [visits_cons hl, if_neg hne.symm, Nat.add_zero] at hn
      exact ⟨⟨mem_body_of_leads hloops hleads hl hne.symm, hn⟩, hl⟩
  by_cases hheader : f.isHeader l = true
  · obtain ⟨before, hcounts, hsub, hbefore⟩ := hacc.exists_counts_key hloops hnested hheader
    have hself : l ∈ f.body l := mem_body_self hloops hheader
    refine ⟨fun h n => ?_, ?_, ?_⟩
    · rw [hcounts, List.mem_append, List.mem_singleton, hbefore, label_key, Prod.mk.injEq]
      by_cases heq : h = l
      · subst heq
        simp [hself, visits_cons hself]
      · simpa [heq] using hother h n heq
    · rw [hcounts, List.pairwise_append]
      refine ⟨hacc.outermost.sublist hsub, List.pairwise_singleton .., fun p hp q hq => ?_⟩
      obtain rfl := List.mem_singleton.mp hq
      obtain ⟨-, hl, hne⟩ := (hbefore p).mp hp
      exact inside_of_mem_body hloops hnested hl hne.symm
    · rw [hcounts]
      exact List.forall_mem_append.mpr ⟨fun p hp => hacc.pos p (hsub.subset hp), by simp⟩
  · have hcounts : (f.key l k.counts).counts =
        k.counts.filter fun p => (f.body p.1).contains l := by simp only [key, if_neg hheader]
    refine ⟨fun h n => ?_, ?_, ?_⟩
    · rw [hcounts, List.mem_filter, List.contains_iff_mem, label_key]
      by_cases heq : h = l
      · -- a block that is no header is in no loop of its own
        subst heq
        have hnot : h ∉ f.body h := fun hh => hheader (isHeader_of_mem_body hh)
        simp [hnot]
      · exact hother h n heq
    · rw [hcounts]
      exact hacc.outermost.sublist List.filter_sublist
    · rw [hcounts]
      exact fun p hp => hacc.pos p (List.mem_of_mem_filter hp)

end Step

/-! ## §3 Whole paths -/

theorem Needs.leads {unroll : Json} {k' : Key} (hneeds : f.Needs unroll k k') :
    f.graph.Leads k.label k'.label ∧ k' = f.key k'.label k.counts := by
  obtain ⟨-, n, hn, l, hl, rfl⟩ := needs_iff.mp hneeds
  exact ⟨Graph.leads_of_node? hn hl, rfl⟩

theorem Reaches.exists_trail {unroll : Json} (hreach : f.Reaches unroll k) :
    ∃ ks, f.Trail unroll (k :: ks) := by
  obtain ⟨n, rest, hg, hpath⟩ := hreach
  induction hpath with
  | refl => exact ⟨[], .start hg⟩
  | tail _ hneeds ih =>
    obtain ⟨ks, htrail⟩ := ih
    exact ⟨_, htrail.step hneeds⟩

variable {unroll : Json} {ks : List Key} (hloops : f.loops = f.graph.loops)
  (hreducible : f.graph.Reducible)
include hloops hreducible

/-- **The counts of a path.**  At the entry there is at most the loop of the entry itself. -/
theorem Trail.accounts (htrail : f.Trail unroll (k :: ks)) :
    f.Accounts k (ks.map Key.label) := by
  generalize hpath : k :: ks = path at htrail
  -- a trail starts at the entry, which no loop but its own can hold
  induction htrail generalizing k ks with
  | @start n rest hg =>
    obtain ⟨rfl, rfl⟩ := List.cons.inj hpath
    have hentry : ∀ h, n.label ∈ f.body h → n.label = h := fun h =>
      eq_of_entry_mem_body hloops hreducible hg
    by_cases hheader : f.isHeader n.label = true
    · have hself : n.label ∈ f.body n.label := mem_body_self hloops hheader
      have hcounts : (f.key n.label []).counts = [(n.label, 1)] := by
        simp only [key, List.filter_nil, if_pos hheader, enterLoop]
      have hone : f.visits n.label [n.label] = 1 := by simp [visits, hself]
      refine ⟨fun h m => ?_, by simp [hcounts], by simp [hcounts]⟩
      rw [hcounts, List.mem_singleton, label_key, Prod.mk.injEq]
      constructor
      · rintro ⟨rfl, rfl⟩
        exact ⟨hself, hone.symm⟩
      · rintro ⟨hh, hm⟩
        obtain rfl := hentry h hh
        exact ⟨rfl, hm.trans hone⟩
    · have hcounts : (f.key n.label []).counts = [] := by
        simp only [key, List.filter_nil, if_neg hheader]
      refine ⟨fun h m => ?_, by simp [hcounts], by simp [hcounts]⟩
      have hnot : n.label ∉ f.body h := fun hh => hheader (hentry h hh ▸ isHeader_of_mem_body hh)
      simp [hcounts, hnot]
  | step htrail hneeds ih =>
    obtain ⟨rfl, rfl⟩ := List.cons.inj hpath
    obtain ⟨hleads, hkey⟩ := hneeds.leads
    rw [hkey]
    exact (ih rfl).step hloops (nested_of_reducible hloops hreducible) hleads

/-- **Every stay in a loop starts at its header and with a count of one**, whatever the path did in
the loop before. -/
theorem Trail.count_eq_one (htrail : f.Trail unroll (k :: ks)) (hk : k.label ∈ f.body h)
    (hbefore : ∀ k' ∈ ks.head?, k'.label ∉ f.body h) : k.label = h ∧ (h, 1) ∈ k.counts := by
  have hacc := htrail.accounts hloops hreducible
  have hlabel : k.label = h := by
    generalize hpath : k :: ks = path at htrail
    cases htrail with
    | start hg =>
      obtain ⟨rfl, rfl⟩ := List.cons.inj hpath
      exact eq_of_entry_mem_body hloops hreducible hg hk
    | step htrail hneeds =>
      obtain ⟨rfl, rfl⟩ := List.cons.inj hpath
      by_contra hne
      exact hbefore _ rfl (mem_body_of_leads hloops hneeds.leads.1 hk hne)
  have hnone : f.visits h (ks.map Key.label) = 0 := by
    cases ks with
    | nil => rfl
    | cons k' ks => exact visits_of_notMem (hbefore k' rfl)
  refine ⟨hlabel, (hacc.mem_iff h 1).mpr ⟨hk, ?_⟩⟩
  rw [visits_cons hk, hnone, if_pos hlabel]

variable {u : Nat}

/-- **A path is cut** when it comes to a header more often on one stay in its loop than the body may
be repeated, not counting the last test. -/
theorem isCut_iff_visits (htrail : f.Trail (.int u) (k :: ks)) :
    f.isCut (.int u) k = .ok true ↔
      ∃ h, f.isHeader h = true ∧ u + 1 < f.visits h ((k :: ks).map Key.label) := by
  have hacc := htrail.accounts hloops hreducible
  have hfits := (htrail.reaches k List.mem_cons_self).1.fits
  rw [List.map_cons]
  -- the path was not cut before, so only the header that it ends at counts
  have hother : ∀ h, h ≠ k.label → f.visits h (k.label :: ks.map Key.label) ≤ u + 1 := by
    intro h hne
    by_cases hk : k.label ∈ f.body h
    · exact hfits.inner _ ((hacc.mem_iff h _).mpr ⟨hk, rfl⟩) hne
    · rw [visits_of_notMem hk]
      omega
  by_cases hheader : f.isHeader k.label = true
  · have hcount := (hacc.mem_iff k.label _).mpr ⟨mem_body_self hloops hheader, rfl⟩
    rw [isCut, if_pos hheader, lookup_of_mem hacc.nodup hcount, Option.getD_some, boundBelow]
    simp only [Except.ok.injEq, decide_eq_true_eq]
    constructor
    · exact fun hlt => ⟨k.label, hheader, by omega⟩
    · rintro ⟨h, -, hlt⟩
      obtain rfl : h = k.label := by
        by_contra hne
        exact absurd (hother h hne) (by omega)
      omega
  · rw [isCut, if_neg hheader]
    refine ⟨fun heq => by simp at heq, ?_⟩
    rintro ⟨h, hh, hlt⟩
    have hne : h ≠ k.label := by
      rintro rfl
      exact hheader hh
    exact absurd (hother h hne) (by omega)

/-! ## §4 How many keys a block has -/

omit hloops hreducible

def around (f : Flow) (l : Label) : Finset Label :=
  f.headers.filter fun h => l ∈ f.body h

def countOf (k : Key) (h : Label) : Nat :=
  (k.counts.lookup h).getD 0

theorem Accounts.mem_iff_countOf (hacc : f.Accounts k path) :
    (h, n) ∈ k.counts ↔ k.label ∈ f.body h ∧ n = countOf k h := by
  have hcount : ∀ m, (h, m) ∈ k.counts → countOf k h = m := by
    intro m hm
    rw [countOf, lookup_of_mem hacc.nodup hm, Option.getD_some]
  constructor
  · exact fun hn => ⟨((hacc.mem_iff h n).mp hn).1, (hcount n hn).symm⟩
  · rintro ⟨hk, rfl⟩
    have hmem := (hacc.mem_iff h _).mpr ⟨hk, rfl⟩
    rwa [hcount _ hmem]

/-- A key is known by its block and the counts of the loops around it: their order is that of the
loops. -/
theorem Accounts.eq {k' : Key} {path' : List Label} (hacc : f.Accounts k path)
    (hacc' : f.Accounts k' path') (hlabel : k.label = k'.label)
    (hcounts : ∀ h, k.label ∈ f.body h → countOf k h = countOf k' h) : k = k' := by
  have hperm : k.counts.Perm k'.counts := by
    rw [List.perm_ext_iff_of_nodup (.of_map _ hacc.nodup) (.of_map _ hacc'.nodup)]
    rintro ⟨h, n⟩
    rw [hacc.mem_iff_countOf, hacc'.mem_iff_countOf, hlabel]
    exact and_congr_right fun hk => by rw [hcounts h (hlabel ▸ hk)]
  have heq : k.counts = k'.counts :=
    hperm.eq_of_pairwise (fun p q _ _ hpq hqp => absurd hqp.1 hpq.2) hacc.outermost hacc'.outermost
  obtain ⟨l, counts⟩ := k
  obtain ⟨l', counts'⟩ := k'
  rw [show l = l' from hlabel, show counts = counts' from heq]

/-- **The keys of a block that are not cut** are at most as many as there are ways to give each loop
around it a count from one up to the bound. -/
theorem card_keys_le {keys : Finset Key} (hloops : f.loops = f.graph.loops)
    (hreducible : f.graph.Reducible)
    (hkeys : ∀ k ∈ keys, k.label = l ∧ f.Reaches (.int u) k ∧ f.isCut (.int u) k = .ok false) :
    keys.card ≤ (u + 1) ^ (f.around l).card := by
  have hall : ∀ k ∈ keys, ∃ path, f.Accounts k path := by
    intro k hk
    obtain ⟨ks, htrail⟩ := (hkeys k hk).2.1.exists_trail
    exact ⟨_, htrail.accounts hloops hreducible⟩
  -- a key that is not cut gives counts between one and the bound to the loops around its block
  have hmaps : ∀ k ∈ keys, (fun h : f.around l => countOf k h) ∈
      Fintype.piFinset fun _ : f.around l => Finset.Icc 1 (u + 1) := by
    intro k hk
    obtain ⟨rfl, hreach, hcut⟩ := hkeys k hk
    obtain ⟨path, hacc⟩ := hall k hk
    refine Fintype.mem_piFinset.mpr fun h => ?_
    have hmem := hacc.mem_iff_countOf.mpr ⟨(Finset.mem_filter.mp h.2).2, rfl⟩
    have hle := hreach.fits.le_of_not_cut hcut _ hmem
    exact Finset.mem_Icc.mpr ⟨hacc.pos _ hmem, by simpa using hle⟩
  -- and a key is known by these counts
  have hinj : Set.InjOn (fun k (h : f.around l) => countOf k h) keys := by
    intro k hk k' hk' heq
    obtain ⟨path, hacc⟩ := hall k hk
    obtain ⟨path', hacc'⟩ := hall k' hk'
    refine hacc.eq hacc' ((hkeys k hk).1.trans (hkeys k' hk').1.symm) fun h hh => ?_
    have hmem : h ∈ f.around l :=
      Finset.mem_filter.mpr ⟨mem_headers (isHeader_of_mem_body hh), (hkeys k hk).1 ▸ hh⟩
    exact congrFun heq ⟨h, hmem⟩
  calc keys.card ≤ (Fintype.piFinset fun _ : f.around l => Finset.Icc 1 (u + 1)).card :=
        Finset.card_le_card_of_injOn _ hmaps hinj
    _ = (u + 1) ^ (f.around l).card := by simp

end Flow

/-! ## §5 Reducible graphs -/

/-- **Loop accounting on reducible graphs.**  On every path of the walk the counts are the visits to
the headers of the loops around the last block, each since the path last came into the loop, and the
outermost loop stands first.  So a path is cut exactly when it comes to a header too often on one
stay in its loop, and every stay starts over with a count of one.  A block has at most one key for
each choice of counts of the loops around it, the paths are of bounded length, and the walk gives up
only if the building of the condition of one block does. -/
theorem counts_of_reducible {sub : Sub} {f : Flow} (u : Nat) (hf : sub.flow = .ok f)
    (hreducible : f.graph.Reducible) :
    (∀ k ks, f.Trail (.int u) (k :: ks) → f.Accounts k (ks.map Key.label) ∧
      (f.isCut (.int u) k = .ok true ↔
        ∃ h, f.isHeader h = true ∧ u + 1 < f.visits h ((k :: ks).map Key.label)) ∧
      ∀ h, k.label ∈ f.body h → (∀ k' ∈ ks.head?, k'.label ∉ f.body h) →
        k.label = h ∧ (h, 1) ∈ k.counts) ∧
    (∀ l (keys : Finset Key), (∀ k ∈ keys, k.label = l ∧ f.Reaches (.int u) k ∧
      f.isCut (.int u) k = .ok false) → keys.card ≤ (u + 1) ^ (f.around l).card) ∧
    (∀ ks, f.Trail (.int u) ks → ks.length < f.keyBound (.int u)) ∧
    ∀ (bound : Nat) (post : Constraint),
      (∀ k, (Walker.build ⟨f, post, preconditionWithin bound⟩ k).Avoids (Unrolls (.int u))
        .endlessWalk) →
      (preconditionWithin (bound + 1) post sub).Avoids (Unrolls (.int u)) .endlessWalk := by
  have hloops := Sub.loops_flow hf
  have hnested := Flow.nested_of_reducible hloops hreducible
  exact ⟨fun k ks htrail => ⟨htrail.accounts hloops hreducible,
    Flow.isCut_iff_visits hloops hreducible htrail, fun h hk hbefore =>
      htrail.count_eq_one hloops hreducible hk hbefore⟩,
    fun l keys hkeys => Flow.card_keys_le hloops hreducible hkeys,
    fun ks htrail => htrail.length_lt_keyBound hloops hnested,
    fun bound post hbuild => avoids_preconditionWithin hf hnested hbuild⟩

/-- A loop in a loop is reducible: the outer header is the entry. -/
theorem reducible_nest : nestFlow.graph.Reducible := by
  intro u h hedge n rest hg hpath
  have hedges : nestFlow.graph.backEdges =
      [(.text "inner", .text "inner"), (.text "last", .text "outer")] := rfl
  have hentry : n.label = .text "outer" := by
    cases hg
    rfl
  rw [hedges] at hedge
  simp only [List.mem_cons, Prod.mk.injEq, List.not_mem_nil, or_false] at hedge
  rcases hedge with ⟨rfl, rfl⟩ | ⟨rfl, rfl⟩
  · exact hpath.ne rfl
  · exact hpath.1 hentry

/-- The path that comes to the inner header twice, with the bound one. -/
theorem counts_of_reducible_nest :
    nestFlow.graph.Reducible ∧
      nestFlow.Accounts (knotKey "inner" [("outer", 1), ("inner", 2)])
        [.text "inner", .text "outer"] ∧
      ∀ keys : Finset Key, (∀ k ∈ keys, k.label = .text "inner" ∧ nestFlow.Reaches (.int 1) k ∧
        nestFlow.isCut (.int 1) k = .ok false) → keys.card ≤ 4 := by
  obtain ⟨htrails, hkeys, -⟩ := counts_of_reducible 1 flow_nest reducible_nest
  refine ⟨reducible_nest, ?_, fun keys hall => ?_⟩
  · have hstart : nestFlow.Trail (.int (1 : Nat)) [nestFlow.key (Node.label _) []] := .start rfl
    have hfirst : nestFlow.Needs (.int (1 : Nat)) (knotKey "outer" [("outer", 1)])
        (knotKey "inner" [("outer", 1), ("inner", 1)]) := ⟨_, rfl, by decide⟩
    have hsecond : nestFlow.Needs (.int (1 : Nat)) (knotKey "inner" [("outer", 1), ("inner", 1)])
        (knotKey "inner" [("outer", 1), ("inner", 2)]) := ⟨_, rfl, by decide⟩
    exact (htrails _ _ ((hstart.step hfirst).step hsecond)).1
  · have hcard : (nestFlow.around (.text "inner")).card = 2 := by decide
    simpa [hcard] using hkeys (.text "inner") keys hall

end Antecedent
