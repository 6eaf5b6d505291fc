import Mathlib.Data.Finset.Option
import Mathlib.Data.Fintype.Pi
import Mathlib.Data.Fintype.BigOperators
import Antecedent.Proofs.Loops

/-!
# Unrolled loops

The walk of a subroutine comes to keys, which are blocks with loop counts, and a key needs the keys
of the blocks that may follow.  Counts go up on entering a header and are dropped on leaving its
loop, so it is not clear that a key does not come to need itself.

* `Flow.not_needs_self` says that there is no cycle if no two headers lie in the loops of each
  other.
* `Flow.Trail.length_lt` says that then no more keys than the bound are in the middle of a visit.
-/

namespace Antecedent

open Relation (ReflTransGen TransGen)

variable {l : Label} {n : Nat} {counts : Counts} {u : Int}

namespace Flow

variable {f : Flow} {unroll : Json} {k k' : Key} {r : Label}

/-! ## §1 Keys that need keys -/

def Needs (f : Flow) (unroll : Json) (k k' : Key) : Prop :=
  ∃ ks, f.needs unroll k = .ok ks ∧ k' ∈ ks

/-- A key that is not cut needs the keys of the blocks that may follow. -/
theorem needs_iff : f.Needs unroll k k' ↔ f.isCut unroll k = .ok false ∧
    ∃ n, f.graph.node? k.label = some n ∧ ∃ l ∈ f.graph.successors n, k' = f.key l k.counts := by
  unfold Needs needs node
  constructor
  · rintro ⟨ks, h, hk'⟩
    -- a key that is cut needs nothing, and one without a node is refused
    cases hcut : f.isCut unroll k with
    | error e => rw [hcut] at h; cases h
    | ok b =>
      rw [hcut] at h
      cases b with
      | true =>
        cases h
        cases hk'
      | false =>
        cases hnode : f.graph.node? k.label with
        | none => rw [hnode] at h; cases h
        | some n =>
          rw [hnode] at h
          cases h
          obtain ⟨l, hl, rfl⟩ := List.mem_map.mp hk'
          exact ⟨rfl, n, rfl, l, hl, rfl⟩
  · rintro ⟨hcut, n, hn, l, hl, rfl⟩
    rw [hcut, hn]
    exact ⟨_, rfl, List.mem_map_of_mem hl⟩

theorem mem_body_iff : l ∈ f.body r ↔ ∃ body, f.loops.lookup r = some body ∧ l ∈ body := by
  unfold body
  cases f.loops.lookup r <;> simp

/-- Whether no two headers lie in the loops of each other. -/
def Nested (f : Flow) : Prop :=
  ∀ h h', h ∈ f.body h' → h' ∈ f.body h → h = h'

theorem nested_iff : f.Nested ↔ ∀ h ∈ f.loops.map Prod.fst, ∀ h' ∈ f.loops.map Prod.fst,
    h ∈ f.body h' → h' ∈ f.body h → h = h' := by
  have hheader : ∀ {h l}, l ∈ f.body h → h ∈ f.loops.map Prod.fst := by
    intro h l hl
    obtain ⟨body, hbody, -⟩ := mem_body_iff.mp hl
    obtain ⟨before, after, heq, -⟩ := List.lookup_eq_some_iff.mp hbody
    simp [heq]
  exact ⟨fun hall h _ h' _ => hall h h', fun hall h h' hh hh' =>
    hall h (hheader hh') h' (hheader hh) hh hh'⟩

instance : Decidable f.Nested :=
  decidable_of_iff _ nested_iff.symm

def Reaches (f : Flow) (unroll : Json) (k : Key) : Prop :=
  ∃ n rest, f.graph = n :: rest ∧ ReflTransGen (f.Needs unroll) (f.key n.label []) k

@[simp] theorem label_key (l : Label) (counts : Counts) : (f.key l counts).label = l :=
  rfl

theorem Needs.goes {k'' : Key} (h : f.Needs unroll k k') (h' : f.Needs unroll k' k'') :
    f.graph.Goes k.label k'.label := by
  obtain ⟨-, n, hn, l, hl, rfl⟩ := needs_iff.mp h
  obtain ⟨-, n', hn', -⟩ := needs_iff.mp h'
  exact ⟨⟨n, hn, hl⟩, Option.isSome_iff_exists.mpr ⟨n', hn'⟩⟩

/-! ## §2 Cycles lie in loops -/

/-- The walk comes only to blocks that the search has seen. -/
theorem Reaches.mem_seen {seen : List Label} (hreach : f.Reaches unroll k)
    (hneeds : f.Needs unroll k k') (hentry : ∀ n rest, f.graph = n :: rest → n.label ∈ seen)
    (hseen : ∀ u ∈ seen, ∀ v, f.graph.Goes u v → v ∈ seen) : k.label ∈ seen := by
  obtain ⟨n, rest, hcons, hpath⟩ := hreach
  induction hpath generalizing k' with
  | refl => exact hentry n rest hcons
  | tail _ hstep ih => exact hseen _ (ih hstep) _ (hstep.goes hneeds)

/-- **A cycle lies in the loop of one of its blocks.** -/
theorem exists_loop (hloops : f.loops = f.graph.loops) (hreach : f.Reaches unroll k)
    (hcycle : TransGen (f.Needs unroll) k k) :
    ∃ x, TransGen (f.Needs unroll) x x ∧
      ∀ y, ReflTransGen (f.Needs unroll) x y → ReflTransGen (f.Needs unroll) y x →
        y.label ∈ f.body x.label := by
  obtain ⟨n, rest, hcons, hentry⟩ := hreach
  obtain ⟨seen, rank, hseen, hrank⟩ := Graph.exists_rank hcons
  -- of the keys on the cycle take one whose block comes lowest
  obtain ⟨x, ⟨hkx, hxk⟩, hmin⟩ := WellFounded.has_min (measure fun y : Key => rank y.label).wf
    {y | ReflTransGen (f.Needs unroll) k y ∧ ReflTransGen (f.Needs unroll) y k} ⟨k, .refl, .refl⟩
  have hxx : TransGen (f.Needs unroll) x x := (hcycle.trans_right hxk).trans_left hkx
  have hsteps : ∀ y z, f.Needs unroll y z → ReflTransGen (f.Needs unroll) x y →
      ReflTransGen (f.Needs unroll) z x → f.graph.Goes y.label z.label ∧
        ((y.label, z.label) ∈ f.graph.backEdges ∨ rank y.label < rank z.label) := by
    intro y z hyz hy hz
    obtain ⟨_, hnext, -⟩ := TransGen.head'_iff.mp (hxx.trans_right hz)
    have hgoes := hyz.goes hnext
    have hmem : y.label ∈ seen :=
      Reaches.mem_seen ⟨n, rest, hcons, (hentry.trans hkx).trans hy⟩ hyz
        (fun n' rest' hcons' => by cases hcons.symm.trans hcons'; exact hseen)
        fun u hu v hv => (hrank u hu v hv).1
    exact ⟨hgoes, (hrank _ hmem _ hgoes).2⟩
  -- every step to its block is a back edge
  have hback : ∀ y z, f.Needs unroll y z → ReflTransGen (f.Needs unroll) x y →
      ReflTransGen (f.Needs unroll) z x → z.label = x.label →
      (y.label, x.label) ∈ f.graph.backEdges := by
    intro y z hyz hy hz hlabel
    rw [← hlabel]
    refine (hsteps y z hyz hy hz).2.resolve_right fun hlt => ?_
    rw [hlabel] at hlt
    exact hmin y ⟨hkx.trans hy, (hz.head hyz).trans hxk⟩ hlt
  have hall := Graph.hasLoops_loops (g := f.graph)
  rw [← hloops] at hall
  refine ⟨x, hxx, fun y hxy hyx => mem_body_iff.mpr ?_⟩
  -- and the loop takes in what leads to it
  obtain ⟨z, hxz, hzx⟩ := TransGen.tail'_iff.mp hxx
  obtain ⟨body, hbody, -⟩ := hall.sources (hback z x hzx hxz .refl rfl)
  refine ⟨body, hbody, ?_⟩
  induction hyx using ReflTransGen.head_induction_on with
  | refl => exact hall.header hbody
  | @head y z hyz hzx ih =>
    by_cases hz : z.label = x.label
    · obtain ⟨body', hbody', hmem⟩ := hall.sources (hback y z hyz hxy hzx hz)
      cases hbody.symm.trans hbody'
      exact hmem
    · exact hall.closed hbody (ih (hxy.tail hyz)) hz (hsteps y z hyz hxy hzx).1.mem_predecessors

/-! ## §3 Counts rise on a cycle -/

/-- Whether some counts hold a number for a header, and before it none for a header in a given
loop. -/
def Carries (body : List Label) (r : Label) (n : Nat) (counts : Counts) : Prop :=
  ∃ before after, counts = before ++ (r, n) :: after ∧ ∀ p ∈ before, p.1 ∉ body

theorem Carries.lookup_eq {body : List Label} (h : Carries body r n counts) (hr : r ∈ body) :
    counts.lookup r = some n := by
  obtain ⟨before, after, rfl, hbefore⟩ := h
  refine List.lookup_eq_some_iff.mpr ⟨before, after, rfl, fun p hp => ?_⟩
  exact bne_iff_ne.mpr fun heq => hbefore p hp (heq ▸ hr)

theorem enterLoop_append {before : Counts} (h : ∀ p ∈ before, p.1 ≠ l) (counts : Counts) :
    enterLoop l (before ++ counts) = before ++ enterLoop l counts := by
  induction before with
  | nil => rfl
  | cons p before ih =>
    rw [List.forall_mem_cons] at h
    rw [List.cons_append, enterLoop, if_neg h.1, ih h.2, List.cons_append]

/-- A header that is entered comes last, after the counts that came before it. -/
theorem exists_enterLoop (l : Label) (counts : Counts) :
    ∃ before n, enterLoop l counts = before ++ [(l, n + 1)] ∧ before <+: counts ∧
      (∀ p ∈ before, p.1 ≠ l) ∧ (n = 0 ∨ (l, n) ∈ counts) := by
  induction counts with
  | nil => exact ⟨[], 0, rfl, List.nil_prefix, by simp, .inl rfl⟩
  | cons p rest ih =>
    obtain ⟨h, n⟩ := p
    rw [enterLoop]
    split
    · next heq => exact ⟨[], n, by simp [heq], List.nil_prefix, by simp, .inr (by simp [heq])⟩
    · next hne =>
      obtain ⟨before, m, heq, hbegins, hall, hm⟩ := ih
      exact ⟨(h, n) :: before, m, by rw [heq, List.cons_append],
        List.cons_prefix_cons.mpr ⟨rfl, hbegins⟩, List.forall_mem_cons.mpr ⟨hne, hall⟩,
        hm.imp_right (List.mem_cons_of_mem _)⟩

theorem isHeader_of_mem_body (h : l ∈ f.body r) : f.isHeader r = true := by
  obtain ⟨body, hbody, -⟩ := mem_body_iff.mp h
  simp [isHeader, hbody]

theorem exists_carries_key (hnested : f.Nested) (hr : r ∈ f.body r) (counts : Counts) :
    ∃ n, Carries (f.body r) r n (f.key r counts).counts := by
  have hcounts : (f.key r counts).counts =
      enterLoop r (counts.filter fun p => (f.body p.1).contains r) := by
    simp [key, isHeader_of_mem_body hr]
  obtain ⟨before, n, heq, hbegins, hall, -⟩ :=
    exists_enterLoop r (counts.filter fun p => (f.body p.1).contains r)
  refine ⟨n + 1, before, [], hcounts.trans heq, fun p hp hmem => hall p hp ?_⟩
  exact hnested _ _ hmem (by simpa using (List.mem_filter.mp (hbegins.subset hp)).2)

/-- **A step inside the loop of a header keeps its count, and a step to the header raises it.** -/
theorem Carries.key (h : Carries (f.body r) r n counts) (hl : l ∈ f.body r) :
    Carries (f.body r) r (if l = r then n + 1 else n) (f.key l counts).counts := by
  obtain ⟨before, after, rfl, hbefore⟩ := h
  -- the loop stays open, so what is dropped are counts before it or after it
  have hkept : (before ++ (r, n) :: after).filter (fun p => (f.body p.1).contains l) =
      before.filter (fun p => (f.body p.1).contains l) ++
        (r, n) :: after.filter (fun p => (f.body p.1).contains l) := by
    rw [List.filter_append, List.filter_cons_of_pos (by simpa using hl)]
  have hbefore' : ∀ p ∈ before.filter (fun p => (f.body p.1).contains l), p.1 ∉ f.body r :=
    fun p hp => hbefore p (List.mem_filter.mp hp).1
  simp only [Flow.key, hkept]
  by_cases hheader : f.isHeader l = true
  · -- the header is entered behind the loops around it
    rw [if_pos hheader, enterLoop_append fun p hp heq => hbefore' p hp (heq ▸ hl), enterLoop]
    by_cases heq : r = l
    · rw [if_pos heq, if_pos heq.symm]
      exact ⟨_, [], rfl, hbefore'⟩
    · rw [if_neg heq, if_neg (Ne.symm heq)]
      exact ⟨_, _, rfl, hbefore'⟩
  · have hne : l ≠ r := by
      rintro rfl
      exact hheader (isHeader_of_mem_body hl)
    rw [if_neg hheader, if_neg hne]
    exact ⟨_, _, rfl, hbefore'⟩

/-- **No key needs itself**, if no two headers lie in the loops of each other. -/
theorem not_needs_self (hloops : f.loops = f.graph.loops) (hnested : f.Nested)
    (hreach : f.Reaches unroll k) : ¬TransGen (f.Needs unroll) k k := by
  intro hcycle
  obtain ⟨x, hxx, hbody⟩ := exists_loop hloops hreach hcycle
  have hr : x.label ∈ f.body x.label := hbody x .refl .refl
  obtain ⟨z, hxz, hzx⟩ := TransGen.tail'_iff.mp hxx
  obtain ⟨-, -, -, l, -, hkey⟩ := needs_iff.mp hzx
  obtain ⟨n, hn⟩ : ∃ n, Carries (f.body x.label) x.label n x.counts := by
    obtain rfl : x.label = l := by rw [hkey, label_key]
    obtain ⟨n, hn⟩ := exists_carries_key hnested hr z.counts
    exact ⟨n, by rwa [← hkey] at hn⟩
  -- the count of the header does not fall on the way from its key to the key before it
  have hpath : ∀ y, ReflTransGen (f.Needs unroll) x y → ReflTransGen (f.Needs unroll) y x →
      ∃ m, n ≤ m ∧ Carries (f.body x.label) x.label m y.counts := by
    intro y hxy
    induction hxy with
    | refl => exact fun _ => ⟨n, le_rfl, hn⟩
    | @tail y y' hxy hstep ih =>
      intro hyx
      obtain ⟨m, hle, hm⟩ := ih (hyx.head hstep)
      obtain ⟨-, -, -, l', -, rfl⟩ := needs_iff.mp hstep
      refine ⟨_, ?_, hm.key (hbody _ (hxy.tail hstep) hyx)⟩
      split <;> omega
  -- and the last step raises it
  obtain ⟨m, hle, hm⟩ := hpath z hxz (.single hzx)
  have hlast := hm.key hr
  rw [if_pos rfl] at hlast
  obtain rfl : x.label = l := by rw [hkey, label_key]
  rw [← hkey] at hlast
  have hcount := (hlast.lookup_eq hr).symm.trans (hn.lookup_eq hr)
  simp at hcount
  omega

/-- No key that the walk comes to needs itself. -/
def Acyclic (f : Flow) (unroll : Json) : Prop :=
  ∀ k, f.Reaches unroll k → ¬TransGen (f.Needs unroll) k k

theorem acyclic_of_nested (hloops : f.loops = f.graph.loops) (hnested : f.Nested) :
    f.Acyclic unroll :=
  fun _ hreach => not_needs_self hloops hnested hreach

/-! ## §4 How many keys there are -/

/-- Whether the counts of a key are at most those that unrolling allows: one for each header, none
more than one above the bound and, the block of the key apart, none above it. -/
structure Fits (f : Flow) (u : Nat) (k : Key) : Prop where
  nodup : (k.counts.map Prod.fst).Nodup
  headers : ∀ p ∈ k.counts, f.isHeader p.1 = true
  within : ∀ p ∈ k.counts, p.2 ≤ u + 2
  inner : ∀ p ∈ k.counts, p.1 ≠ k.label → p.2 ≤ u + 1

theorem lookup_of_mem (hnodup : (counts.map Prod.fst).Nodup) (h : (l, n) ∈ counts) :
    counts.lookup l = some n := by
  obtain ⟨before, after, rfl⟩ := List.append_of_mem h
  refine List.lookup_eq_some_iff.mpr ⟨before, after, rfl, fun p hp => bne_iff_ne.mpr ?_⟩
  rw [List.map_append, List.nodup_append] at hnodup
  exact (hnodup.2.2 _ (List.mem_map_of_mem hp) _ (by simp)).symm

/-- A key that is not cut has no count above the bound. -/
theorem Fits.le_of_not_cut (h : f.Fits u.toNat k) (hcut : f.isCut (.int u) k = .ok false) :
    ∀ p ∈ k.counts, p.2 ≤ u.toNat + 1 := by
  intro p hp
  by_cases hlabel : p.1 = k.label
  · have hlookup : k.counts.lookup k.label = some p.2 := lookup_of_mem h.nodup (hlabel ▸ hp)
    have hheader : f.isHeader k.label = true := hlabel ▸ h.headers p hp
    rw [isCut, if_pos hheader, hlookup] at hcut
    simp only [boundBelow, Option.getD_some, Except.ok.injEq, decide_eq_false_iff_not] at hcut
    omega
  · exact h.inner p hp hlabel

/-- **The counts of the next key** are within the bound if those of a key that is not cut are. -/
theorem fits_key {u : Nat} (hnodup : (counts.map Prod.fst).Nodup)
    (hheaders : ∀ p ∈ counts, f.isHeader p.1 = true) (hle : ∀ p ∈ counts, p.2 ≤ u + 1) :
    f.Fits u (f.key l counts) := by
  obtain ⟨kept, hkept⟩ : ∃ kept, counts.filter (fun p => (f.body p.1).contains l) = kept := ⟨_, rfl⟩
  have hsub : kept.Sublist counts := hkept ▸ List.filter_sublist
  have hcounts : (f.key l counts).counts =
      if f.isHeader l = true then enterLoop l kept else kept := by
    simp only [key, hkept]
  by_cases hheader : f.isHeader l = true
  · -- one count comes last, one higher than it was, and those behind it are gone
    obtain ⟨before, n, heq, hbegins, hne, hn⟩ := exists_enterLoop l kept
    have hbefore : before.Sublist counts := hbegins.sublist.trans hsub
    rw [if_pos hheader, heq] at hcounts
    have hn' : n ≤ u + 1 := by
      rcases hn with rfl | hn
      · omega
      · exact hle _ (hsub.subset hn)
    refine ⟨?_, ?_, ?_, ?_⟩ <;> rw [hcounts]
    · rw [List.map_append, List.nodup_append]
      refine ⟨hnodup.sublist (hbefore.map _), by simp, ?_⟩
      simpa using fun a n hp => hne (a, n) hp
    · exact List.forall_mem_append.mpr ⟨fun p hp => hheaders p (hbefore.subset hp),
        by simpa using hheader⟩
    · refine List.forall_mem_append.mpr ⟨fun p hp => ?_, by simpa using hn'⟩
      exact (hle p (hbefore.subset hp)).trans (by omega)
    · refine List.forall_mem_append.mpr ⟨fun p hp _ => hle p (hbefore.subset hp), by simp⟩
  · rw [if_neg hheader] at hcounts
    refine ⟨?_, ?_, ?_, ?_⟩ <;> rw [hcounts]
    · exact hnodup.sublist (hsub.map _)
    · exact fun p hp => hheaders p (hsub.subset hp)
    · exact fun p hp => (hle p (hsub.subset hp)).trans (by omega)
    · exact fun p hp _ => hle p (hsub.subset hp)

theorem Reaches.fits (h : f.Reaches (.int u) k) : f.Fits u.toNat k := by
  obtain ⟨n, rest, -, hpath⟩ := h
  induction hpath with
  | refl => exact fits_key (by simp) (by simp) (by simp)
  | tail _ hstep ih =>
    obtain ⟨hcut, -, -, l, -, rfl⟩ := needs_iff.mp hstep
    exact fits_key ih.nodup ih.headers (ih.le_of_not_cut hcut)

def headers (f : Flow) : Finset Label :=
  (f.loops.map Prod.fst).toFinset

theorem card_headers_le (f : Flow) : f.headers.card ≤ f.loops.length :=
  (List.toFinset_card_le _).trans_eq (List.length_map _)

theorem mem_headers (h : f.isHeader l = true) : l ∈ f.headers := by
  obtain ⟨body, hbody⟩ := Option.isSome_iff_exists.mp h
  obtain ⟨before, after, heq, -⟩ := List.lookup_eq_some_iff.mp hbody
  simp [headers, heq]

/-- A key as its label and the counts at each place. -/
def code (f : Flow) (k : Key) : Label × (Fin f.loops.length → Option (Label × Nat)) :=
  (k.label, fun i => k.counts[i.val]?)

theorem Fits.length_le {u : Nat} (h : f.Fits u k) : k.counts.length ≤ f.loops.length := by
  have hsub : (k.counts.map Prod.fst).toFinset ⊆ f.headers := by
    intro l hl
    obtain ⟨p, hp, rfl⟩ := List.mem_map.mp (List.mem_toFinset.mp hl)
    exact mem_headers (h.headers p hp)
  calc k.counts.length = (k.counts.map Prod.fst).toFinset.card := by
        rw [List.toFinset_card_of_nodup h.nodup, List.length_map]
    _ ≤ f.headers.card := Finset.card_le_card hsub
    _ ≤ f.loops.length := f.card_headers_le

theorem code_injective {u : Nat} {k k' : Key} (h : f.Fits u k) (h' : f.Fits u k')
    (heq : f.code k = f.code k') : k = k' := by
  obtain ⟨l, counts⟩ := k
  obtain ⟨l', counts'⟩ := k'
  obtain ⟨rfl, hcounts⟩ := Prod.mk.inj heq
  have hall : counts = counts' := by
    refine List.ext_getElem? fun i => ?_
    by_cases hi : i < f.loops.length
    · exact congrFun hcounts ⟨i, hi⟩
    · have hlong : counts.length ≤ f.loops.length := h.length_le
      have hlong' : counts'.length ≤ f.loops.length := h'.length_le
      rw [List.getElem?_eq_none (by omega), List.getElem?_eq_none (by omega)]
  rw [hall]

/-- **There are fewer keys than the bound on them**: a list of keys that are within the bound, with
the blocks of the graph and one label more, is shorter. -/
theorem length_lt_keyBound {ks : List Key} (l : Label) (hnodup : ks.Nodup)
    (hfits : ∀ k ∈ ks, f.Fits u.toNat k)
    (hlabels : ∀ k ∈ ks, k.label = l ∨ k.label ∈ f.graph.map Node.label) :
    ks.length < f.keyBound (.int u) := by
  -- each place of the counts is empty or holds a header with a number
  let places : Finset (Option (Label × Nat)) :=
    Finset.insertNone (f.headers ×ˢ Finset.range (u.toNat + 3))
  let labels : Finset Label := insert l (f.graph.map Node.label).toFinset
  let codes := labels ×ˢ Fintype.piFinset fun _ : Fin f.loops.length => places
  have hmaps : ∀ k ∈ ks.toFinset, f.code k ∈ codes := by
    intro k hk
    rw [List.mem_toFinset] at hk
    have hfit := hfits k hk
    refine Finset.mem_product.mpr ⟨?_, Fintype.mem_piFinset.mpr fun i => ?_⟩
    · simpa [labels, code] using hlabels k hk
    · cases hget : k.counts[i.val]? with
      | none => simp [code, hget, places]
      | some p =>
        have hp := List.mem_of_getElem? hget
        have hle := hfit.within p hp
        simpa [code, hget, places] using ⟨mem_headers (hfit.headers p hp), by omega⟩
  have hplaces : places.card ≤ (f.loops.length + 1) * (u.toNat + 3) := by
    have hcard : places.card = f.headers.card * (u.toNat + 3) + 1 := by
      rw [Finset.card_insertNone, Finset.card_product, Finset.card_range]
    have hheaders := Nat.mul_le_mul_right (u.toNat + 3) f.card_headers_le
    rw [hcard, Nat.succ_mul]
    omega
  have hlabel : labels.card ≤ f.graph.length + 1 := by
    have hgraph := List.toFinset_card_le (f.graph.map Node.label)
    rw [List.length_map] at hgraph
    exact (Finset.card_insert_le _ _).trans (Nat.succ_le_succ hgraph)
  have hinj : Set.InjOn f.code ks.toFinset := fun k hk k' hk' =>
    code_injective (hfits k (by simpa using hk)) (hfits k' (by simpa using hk'))
  calc ks.length = ks.toFinset.card := (List.toFinset_card_of_nodup hnodup).symm
    _ ≤ codes.card := Finset.card_le_card_of_injOn f.code hmaps hinj
    _ = labels.card * places.card ^ f.loops.length := by
      rw [Finset.card_product, Fintype.card_piFinset_const]
    _ ≤ (f.graph.length + 1) * ((f.loops.length + 1) * (u.toNat + 3)) ^ f.loops.length :=
      Nat.mul_le_mul hlabel (Nat.pow_le_pow_left hplaces _)
    _ < f.keyBound (.int u) := Nat.lt_succ_self _

/-! ## §5 Keys in the middle of a visit -/

/-- The keys that a visit is in the middle of, the last one first: each is needed by the next. -/
inductive Trail (f : Flow) (unroll : Json) : List Key → Prop where
  /-- The walk starts at the first block. -/
  | start {n : Node} {rest : List Node} (hcons : f.graph = n :: rest) :
      Trail f unroll [f.key n.label []]
  /-- A visit goes on to a key that the last one needs. -/
  | step {k k' : Key} {path : List Key} (trail : Trail f unroll (k :: path))
      (hneeds : f.Needs unroll k k') : Trail f unroll (k' :: k :: path)

namespace Trail

variable {path : List Key}

theorem reaches (h : f.Trail unroll (k :: path)) :
    ∀ x ∈ k :: path, f.Reaches unroll x ∧ ReflTransGen (f.Needs unroll) x k := by
  generalize hks : k :: path = ks at h
  induction h generalizing k path with
  | start hcons =>
    obtain ⟨rfl, rfl⟩ := List.cons.inj hks
    simpa using ⟨⟨_, _, hcons, .refl⟩, .refl⟩
  | step trail hneeds ih =>
    obtain ⟨rfl, rfl⟩ := List.cons.inj hks
    have hall := ih rfl
    obtain ⟨⟨n, rest, hcons, hpath⟩, -⟩ := hall _ List.mem_cons_self
    refine List.forall_mem_cons.mpr ⟨⟨⟨n, rest, hcons, hpath.tail hneeds⟩, .refl⟩, fun x hx => ?_⟩
    exact ⟨(hall x hx).1, (hall x hx).2.tail hneeds⟩

theorem nodup (hacyclic : f.Acyclic unroll) {ks : List Key} (h : f.Trail unroll ks) :
    ks.Nodup := by
  induction h with
  | start hcons => simp
  | step trail hneeds ih =>
    refine List.nodup_cons.mpr ⟨fun hmem => ?_, ih⟩
    obtain ⟨hreach, hpath⟩ := trail.reaches _ hmem
    exact hacyclic _ hreach (TransGen.tail' hpath hneeds)

/-- All keys but the last are those of blocks. -/
theorem labels (h : f.Trail unroll (k :: path)) :
    ∀ x ∈ path, x.label ∈ f.graph.map Node.label := by
  generalize hks : k :: path = ks at h
  induction h generalizing k path with
  | start hcons =>
    obtain ⟨rfl, rfl⟩ := List.cons.inj hks
    simp
  | step trail hneeds ih =>
    obtain ⟨rfl, rfl⟩ := List.cons.inj hks
    obtain ⟨-, n, hn, -⟩ := needs_iff.mp hneeds
    exact List.forall_mem_cons.mpr ⟨Graph.mem_labels (by simp [hn]), ih rfl⟩

/-- **A trail is shorter than the bound on the number of keys.** -/
theorem length_lt_of_acyclic (hacyclic : f.Acyclic (.int u)) (h : f.Trail (.int u) (k :: path)) :
    (k :: path).length < f.keyBound (.int u) := by
  refine length_lt_keyBound k.label (h.nodup hacyclic)
    (fun x hx => (h.reaches x hx).1.fits) (List.forall_mem_cons.mpr ⟨.inl rfl, fun x hx => ?_⟩)
  exact .inr (h.labels x hx)

theorem length_lt (hloops : f.loops = f.graph.loops) (hnested : f.Nested)
    (h : f.Trail (.int u) (k :: path)) : (k :: path).length < f.keyBound (.int u) :=
  h.length_lt_of_acyclic (acyclic_of_nested hloops hnested)

end Trail

end Flow

end Antecedent
