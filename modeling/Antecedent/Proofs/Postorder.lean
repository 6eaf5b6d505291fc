import Antecedent.Proofs.Reading
import Mathlib.Logic.Relation

/-!
# Flattening with a stack

Flattening can be done with a stack of nodes instead of recursion, so that deep trees do no harm.  A
node is met twice: the first time the nodes below it that have no formula yet are put on the stack
above it, the second time its formula is made from theirs.

* `Constraint.Walk.Sound` is what every turn preserves: each node once, after all nodes below it.
* `Constraint.Walk.reaches_formula` says that the loop ends with the notes of the recursion.
-/

namespace Antecedent.Constraint

variable {w w' : Walk} {c : Constraint}

/-! ## §1 One turn of the loop -/

/-- The formula of a node, if the nodes below it have theirs. -/
def combined? (done : Std.HashMap Nat Term) : Constraint → Option Term
  | .goal _ _ f => some f
  | .ite _ _ cond yes no => do
    return .app .ite [cond, ← done[yes.id]?, ← done[no.id]?]
  | .clause _ hyps concls => do
    let cs ← concls.mapM fun c => done[c.id]?
    let hs ← hyps.mapM fun c => done[c.id]?
    return clauseFormula hs cs
  | .subst _ body pairs => do
    return (← done[body.id]?).subst pairs

/-- The size of a substitution; other nodes have none. -/
def substSize? : Constraint → Option Nat
  | .subst _ _ pairs => some pairs.length
  | _ => none

/-- Notes the formula of a node, and the size of its substitution. -/
def Progress.settle (p : Progress) (c : Constraint) (t : Term) : Progress where
  done := p.done.insert c.id t
  sizes := c.substSize?.toList ++ p.sizes

/-- The nodes still to be treated, each with a mark once the nodes below it are above it; the notes
made; and the nodes whose formulas were made, last first. -/
structure Walk where
  stack : List (Constraint × Bool)
  notes : Progress := {}
  order : List Constraint := []

namespace Walk

def start (c : Constraint) : Walk :=
  { stack := [(c, false)] }

/-- One turn of the loop.  There is none when the stack is empty, or when a formula is missing. -/
def step (w : Walk) : Option Walk :=
  match w.stack with
  | [] => none
  | (c, ready) :: rest =>
    if w.notes.done.contains c.id then some { w with stack := rest }
    else
      let pending := c.children.filter fun k => !w.notes.done.contains k.id
      if !ready && !pending.isEmpty then
        some { w with stack := (pending.map (·, false)).reverse ++ (c, true) :: rest }
      else
        (c.combined? w.notes.done).map fun t =>
          { stack := rest, notes := w.notes.settle c t, order := c :: w.order }

abbrev Reaches : Walk → Walk → Prop :=
  Relation.ReflTransGen fun w w' => w.step = some w'

/-- What a turn can do: drop a node that has its formula, put the nodes below a node above it, or
make the formula of a node. -/
theorem step_cases (h : w.step = some w') : ∃ c ready rest, w.stack = (c, ready) :: rest ∧
      (w' = { w with stack := rest } ∨
        w' = { w with
          stack := ((c.children.filter fun k => !w.notes.done.contains k.id).map
            (·, false)).reverse ++ (c, true) :: rest } ∨
        c.id ∉ w.notes.done ∧ ∃ t, c.combined? w.notes.done = some t ∧
          w' = { stack := rest, notes := w.notes.settle c t, order := c :: w.order }) := by
  unfold step at h
  split at h
  · cases h
  · next c ready rest hstack =>
    refine ⟨c, ready, rest, hstack, ?_⟩
    split at h
    · exact .inl (Option.some.inj h).symm
    · next hdone =>
      dsimp only at h
      split at h
      · exact .inr (.inl (Option.some.inj h).symm)
      · obtain ⟨t, ht, hw⟩ := Option.map_eq_some_iff.mp h
        exact .inr (.inr ⟨by simpa using hdone, t, ht, hw.symm⟩)

end Walk

/-- A formula can be made only where all nodes below have theirs. -/
theorem mem_of_combined? {done : Std.HashMap Nat Term} {t : Term} (h : c.combined? done = some t) :
    ∀ k ∈ c.children, k.id ∈ done := by
  have hmem : ∀ {i : Nat} {u : Term}, done[i]? = some u → i ∈ done := by
    intro i u hu
    rw [Std.HashMap.mem_iff_isSome_getElem?, hu, Option.isSome_some]
  have hall : ∀ {cs : List Constraint} {ts : List Term},
      (cs.mapM fun c => done[c.id]?) = some ts → ∀ k ∈ cs, k.id ∈ done := by
    intro cs
    induction cs with
    | nil => simp
    | cons c cs ih =>
      intro ts hts
      simp only [List.mapM_cons, Option.bind_eq_bind, Option.bind_eq_some_iff] at hts
      obtain ⟨u, hu, us, hus, -⟩ := hts
      exact List.forall_mem_cons.mpr ⟨hmem hu, ih hus⟩
  -- a node is put together from notes of all its children, or not at all
  cases c with
  | goal i name f => simp [children]
  | ite i name cond yes no =>
    simp only [combined?, Option.bind_eq_bind, Option.bind_eq_some_iff] at h
    obtain ⟨y, hy, n, hn, -⟩ := h
    simp [children, hmem hy, hmem hn]
  | clause i hyps concls =>
    simp only [combined?, Option.bind_eq_bind, Option.bind_eq_some_iff] at h
    obtain ⟨cs, hcs, hs, hhs, -⟩ := h
    exact List.forall_mem_append.mpr ⟨hall hhs, hall hcs⟩
  | subst i body pairs =>
    simp only [combined?, Option.bind_eq_bind, Option.bind_eq_some_iff] at h
    obtain ⟨u, hu, -⟩ := h
    simp [children, hmem hu]

/-! ## §2 What every turn preserves -/

namespace Walk

/-- The nodes of a tree that have a formula are those in the order, no node comes twice, and every
node comes after all nodes below it. -/
structure Sound (c : Constraint) (w : Walk) : Prop where
  stack : ∀ p ∈ w.stack, p.1 ∈ c.subtrees
  order : ∀ d ∈ w.order, d ∈ c.subtrees
  done : ∀ i, i ∈ w.notes.done ↔ ∃ d ∈ w.order, d.id = i
  nodup : w.order.Nodup
  below : ∀ later d earlier, w.order = later ++ d :: earlier → ∀ k ∈ d.children, k ∈ earlier
  sizes : w.notes.sizes = w.order.filterMap substSize?

theorem sound_start (c : Constraint) : (start c).Sound c where
  stack := by simp [start, mem_subtrees_self]
  order := by simp [start]
  done := by simp [start]
  nodup := .nil
  below := by simp [start]
  sizes := rfl

/-- **Every turn of the loop keeps the order sound.** -/
theorem Sound.step (hc : c.Coherent) (h : w.Sound c) (hstep : w.step = some w') : w'.Sound c := by
  obtain ⟨d, ready, rest, hstack, hcases⟩ := step_cases hstep
  have htop : d ∈ c.subtrees ∧ ∀ p ∈ rest, p.1 ∈ c.subtrees := by
    have := h.stack
    rwa [hstack, List.forall_mem_cons] at this
  obtain ⟨hd, hrest⟩ := htop
  rcases hcases with rfl | rfl | ⟨hdone, t, ht, rfl⟩
  · exact { h with stack := hrest }
  · refine { h with stack := fun p hp => ?_ }
    simp only [List.mem_append, List.mem_reverse, List.mem_map, List.mem_filter,
      List.mem_cons] at hp
    rcases hp with ⟨k, ⟨hk, -⟩, rfl⟩ | rfl | hp
    · exact mem_subtrees_of_child hd hk
    · exact hd
    · exact hrest p hp
  · have hfresh : d ∉ w.order := fun hm => hdone ((h.done d.id).mpr ⟨d, hm, rfl⟩)
    exact {
      stack := hrest
      order := List.forall_mem_cons.mpr ⟨hd, h.order⟩
      done := fun i => by
        simp only [Progress.settle, Std.HashMap.mem_insert, beq_iff_eq, h.done, List.mem_cons,
          exists_eq_or_imp]
      nodup := List.nodup_cons.mpr ⟨hfresh, h.nodup⟩
      below := fun later x earlier hsplit k hk => by
        cases later with
        | nil =>
          -- the node just treated: what lies below it has formulas, so it is in the order
          obtain ⟨rfl, rfl⟩ := List.cons.inj hsplit
          obtain ⟨k', hk', hid⟩ := (h.done k.id).mp (mem_of_combined? ht k hk)
          rwa [hc k' (h.order k' hk') k (mem_subtrees_of_child hd hk) hid] at hk'
        | cons y later =>
          exact h.below later x earlier (List.cons.inj hsplit).2 k hk
      sizes := by
        cases hsize : d.substSize? with
        | none => simp [Progress.settle, hsize, h.sizes]
        | some n => simp [Progress.settle, hsize, h.sizes] }

theorem Sound.reaches (hc : c.Coherent) (h : w.Sound c) (hrun : w.Reaches w') : w'.Sound c := by
  induction hrun with
  | refl => exact h
  | tail _ hstep ih => exact ih.step hc hstep

/-- Once the tree has its formula, all its nodes have theirs. -/
theorem Sound.mem_order (h : w.Sound c) (hc : c ∈ w.order) (d : Constraint) :
    d ∈ w.order ↔ d ∈ c.subtrees := by
  refine ⟨h.order d, fun hd => ?_⟩
  -- the order is closed below, so a node in it brings its whole tree
  have hclosed : ∀ x, x ∈ w.order → ∀ k ∈ x.children, k ∈ w.order := by
    intro x hx k hk
    obtain ⟨later, earlier, hsplit⟩ := List.append_of_mem hx
    have hbelow := h.below later x earlier hsplit k hk
    rw [hsplit]
    exact List.mem_append_right _ (List.mem_cons_of_mem _ hbelow)
  exact Everywhere.of_children hclosed hc d hd

end Walk

/-! ## §3 The recursion, node by node -/

section Recursion

variable {ν : Nat → Constraint} {n : Nat} {p : Progress}

theorem formula_of_mem (h : c.id ∈ p.done) : (formula c p).2 = p := by
  obtain ⟨t, ht⟩ := Option.isSome_iff_exists.mp (Std.HashMap.mem_iff_isSome_getElem?.mp h)
  rw [formula.eq_def, ht]

theorem formulas_cons (c : Constraint) (cs : List Constraint) (p : Progress) :
    (formulas (c :: cs) p).2 = (formula c (formulas cs p).2).2 := by
  rw [formulas]

theorem formulas_append (xs ys : List Constraint) (p : Progress) :
    formulas (xs ++ ys) p =
      ((formulas xs (formulas ys p).2).1 ++ (formulas ys p).1,
        (formulas xs (formulas ys p).2).2) := by
  induction xs with
  | nil => simp [formulas]
  | cons x xs ih => simp only [List.cons_append, formulas, ih]

/-- A node that has no formula yet is settled after the nodes below it, the last one first. -/
theorem formula_of_not_mem (h : c.id ∉ p.done) :
    (formula c p).2 = (formulas c.children p).2.settle c (formula c p).1 := by
  have hnone : p.done[c.id]? = none := Std.HashMap.getElem?_eq_none h
  rw [formula.eq_def, hnone]
  cases c with
  | goal i name f => rfl
  | ite i name cond yes no => rfl
  | clause i hyps concls =>
    simp only [children, formulas_append]
    rfl
  | subst i body pairs => rfl

/-- The numbers noted when a tree is flattened: those noted before, and some of its nodes. -/
structure Adds (p p' : Progress) (ds : List Constraint) : Prop where
  mono : ∀ i ∈ p.done, i ∈ p'.done
  only : ∀ i ∈ p'.done, i ∈ p.done ∨ ∃ d ∈ ds, d.id = i

/-- What is noted when the trees of a list are flattened one after another. -/
theorem formulas_adds {cs : List Constraint} (p : Progress)
    (h : ∀ c ∈ cs, ∀ p, Adds p (formula c p).2 c.subtrees ∧ c.id ∈ (formula c p).2.done) :
    Adds p (formulas cs p).2 (cs.flatMap subtrees) ∧ ∀ c ∈ cs, c.id ∈ (formulas cs p).2.done := by
  induction cs with
  | nil => exact ⟨⟨fun _ hi => hi, fun _ hi => .inl hi⟩, by simp⟩
  | cons c cs ih =>
    obtain ⟨hc, hcs⟩ := List.forall_mem_cons.mp h
    obtain ⟨⟨hmono, honly⟩, hmem⟩ := ih hcs
    obtain ⟨⟨hmono', honly'⟩, hmem'⟩ := hc (formulas cs p).2
    rw [formulas_cons]
    refine ⟨⟨fun i hi => hmono' i (hmono i hi), fun i hi => ?_⟩,
      List.forall_mem_cons.mpr ⟨hmem', fun d hd => hmono' _ (hmem d hd)⟩⟩
    rw [List.flatMap_cons]
    rcases honly' i hi with hi | ⟨d, hd, rfl⟩
    · rcases honly i hi with hi | ⟨d, hd, rfl⟩
      · exact .inl hi
      · exact .inr ⟨d, List.mem_append_right _ hd, rfl⟩
    · exact .inr ⟨d, List.mem_append_left _ hd, rfl⟩

/-- What is noted when a tree is flattened. -/
theorem formula_adds (c : Constraint) (p : Progress) :
    Adds p (formula c p).2 c.subtrees ∧ c.id ∈ (formula c p).2.done := by
  induction c using byChildren generalizing p with
  | step c ih =>
    by_cases hc : c.id ∈ p.done
    · rw [formula_of_mem hc]
      exact ⟨⟨fun _ hi => hi, fun _ hi => .inl hi⟩, hc⟩
    · obtain ⟨⟨hmono, honly⟩, -⟩ := formulas_adds p ih
      rw [formula_of_not_mem hc]
      refine ⟨⟨fun i hi => ?_, fun i hi => ?_⟩, Std.HashMap.mem_insert_self⟩
      · exact Std.HashMap.mem_insert.mpr (.inr (hmono i hi))
      · rcases Std.HashMap.mem_insert.mp hi with hi | hi
        · exact .inr ⟨c, c.mem_subtrees_self, beq_iff_eq.mp hi⟩
        · rcases honly i hi with hi | ⟨d, hd, rfl⟩
          · exact .inl hi
          · obtain ⟨k, hk, hd⟩ := List.mem_flatMap.mp hd
            exact .inr ⟨d, subtrees_trans (mem_subtrees_of_child c.mem_subtrees_self hk) hd, rfl⟩

theorem sizeOf_lt_of_child {k d : Constraint} (hk : k ∈ c.children) (hd : d ∈ k.subtrees) :
    sizeOf d < sizeOf c := by
  have hchild : ∀ {c k : Constraint}, k ∈ c.children → sizeOf k < sizeOf c := by
    intro c k hk
    cases c with
    | goal i name f => simp [children] at hk
    | ite i name cond yes no =>
      rcases (by simpa [children] using hk : k = yes ∨ k = no) with rfl | rfl
      · simp +arith
      · simp +arith
    | clause i hyps concls =>
      rcases List.mem_append.mp hk with hk | hk
      · have := List.sizeOf_lt_of_mem hk
        simp +arith
        omega
      · have := List.sizeOf_lt_of_mem hk
        simp +arith
        omega
    | subst i body pairs =>
      obtain rfl : k = body := by simpa [children] using hk
      simp +arith
  -- sizes go down along every path
  have hle : k.Everywhere fun d => sizeOf d ≤ sizeOf k :=
    Everywhere.of_children (fun d hd e he => (hchild he).le.trans hd) le_rfl
  exact (hle d hd).trans_lt (hchild hk)

/-- Flattening the nodes below a node does not settle the node. -/
theorem not_mem_formulas_children (hc : c.Listed ν n) (h : c.id ∉ p.done) :
    c.id ∉ (formulas c.children p).2.done := by
  intro hmem
  obtain ⟨⟨-, honly⟩, -⟩ := formulas_adds p fun k (_ : k ∈ c.children) => formula_adds k
  rcases honly _ hmem with hold | ⟨d, hd, hid⟩
  · exact h hold
  · obtain ⟨k, hk, hd⟩ := List.mem_flatMap.mp hd
    have hdc : d = c := by
      have hsub : d ∈ c.subtrees :=
        subtrees_trans (mem_subtrees_of_child c.mem_subtrees_self hk) hd
      rw [← (hc d hsub).2, hid, hc.self.2]
    exact absurd (sizeOf_lt_of_child hk hd) (by rw [hdc]; exact lt_irrefl _)

theorem combined?_eq_plain (hc : c.Listed ν n) (hp : p.Right ν)
    (hbelow : ∀ k ∈ c.children, k.id ∈ p.done) : c.combined? p.done = some c.plain := by
  -- the note of a child is its formula, as the table has no other node of its number
  have hget : ∀ k ∈ c.children, p.done[k.id]? = some k.plain := by
    intro k hk
    obtain ⟨t, ht⟩ :=
      Option.isSome_iff_exists.mp (Std.HashMap.mem_iff_isSome_getElem?.mp (hbelow k hk))
    have hν : ν k.id = k := (hc k (mem_subtrees_of_child c.mem_subtrees_self hk)).2
    rw [ht, hp _ t ht, hν]
  have hall : ∀ cs : List Constraint, cs ⊆ c.children →
      (cs.mapM fun k => p.done[k.id]?) = some (plainList cs) := by
    intro cs hcs
    induction cs with
    | nil => rfl
    | cons k cs ih =>
      obtain ⟨hk, hcs⟩ := List.cons_subset.mp hcs
      simp [plainList, hget k hk, ih hcs]
  cases c with
  | goal i name f => simp [combined?, plain]
  | ite i name cond yes no =>
    have hy := hget yes (by simp [children])
    have hn := hget no (by simp [children])
    simp [combined?, plain, hy, hn]
  | clause i hyps concls =>
    have hh := hall hyps (List.subset_append_left hyps concls)
    have hc := hall concls (List.subset_append_right hyps concls)
    simp [combined?, plain, hh, hc]
  | subst i body pairs =>
    have hb := hget body (by simp [children])
    simp [combined?, plain, hb]

end Recursion

/-! ## §4 The loop does what the recursion does -/

namespace Walk

variable {ν : Nat → Constraint} {n : Nat}

/-- The loop treats a node as the recursion does, and leaves the rest of the stack alone. -/
def Treats (ν : Nat → Constraint) (c : Constraint) : Prop :=
  ∀ (p : Progress) (rest : List (Constraint × Bool)) (order : List Constraint), p.Right ν →
    ∃ order', Reaches ⟨(c, false) :: rest, p, order⟩ ⟨rest, (formula c p).2, order'⟩

/-- The nodes of a list that had no formula when they were put on the stack are treated from the
last to the first; the others need nothing. -/
theorem reaches_pending {cs : List Constraint} (hcs : ∀ c ∈ cs, c.Listed ν n ∧ Treats ν c)
    {old p : Progress} (hold : ∀ i ∈ old.done, i ∈ p.done) (hp : p.Right ν)
    (rest : List (Constraint × Bool)) (order : List Constraint) :
    ∃ order', Reaches
      ⟨((cs.filter fun k => !old.done.contains k.id).map (·, false)).reverse ++ rest, p, order⟩
      ⟨rest, (formulas cs p).2, order'⟩ := by
  induction cs generalizing rest with
  | nil => exact ⟨order, .refl⟩
  | cons c cs ih =>
    obtain ⟨⟨hlisted, htreats⟩, hcs⟩ := List.forall_mem_cons.mp hcs
    have hright : (formulas cs p).2.Right ν :=
      (formulas_right (fun d hd => formula_right (hcs d hd).1) p hp).2
    rw [formulas_cons]
    by_cases hc : c.id ∈ old.done
    · -- it had its formula and still has it
      have hmono := (formulas_adds p fun k (_ : k ∈ cs) => formula_adds k).1.mono
      rw [formula_of_mem (hmono _ (hold _ hc))]
      simpa [hc] using ih hcs rest
    · obtain ⟨order1, hrun1⟩ := ih hcs ((c, false) :: rest)
      obtain ⟨order2, hrun2⟩ := htreats (formulas cs p).2 rest order1 hright
      refine ⟨order2, .trans ?_ hrun2⟩
      simpa [hc] using hrun1

/-- **The loop treats every tree as the recursion does.** -/
theorem treats (h : c.Listed ν n) : Treats ν c := by
  induction c using byChildren with
  | step c ih =>
    intro p rest order hp
    by_cases hc : c.id ∈ p.done
    · refine ⟨order, .single ?_⟩
      rw [formula_of_mem hc]
      simp [step, hc]
    · have hbelow : ∀ k ∈ c.children, k.Listed ν n ∧ Treats ν k := fun k hk => by
        have hk' := Everywhere.of_mem h (mem_subtrees_of_child c.mem_subtrees_self hk)
        exact ⟨hk', ih k hk hk'⟩
      have hdone := (formulas_adds p fun k (_ : k ∈ c.children) => formula_adds k).2
      have hright : (formulas c.children p).2.Right ν :=
        (formulas_right (fun k hk => formula_right (hbelow k hk).1) p hp).2
      -- once the nodes below have their formulas, marked or not, the node gets its own
      have hlast : ∀ ready order, step ⟨(c, ready) :: rest, (formulas c.children p).2, order⟩ =
          some ⟨rest, (formula c p).2, c :: order⟩ := by
        intro ready order
        have hnone : (c.children.filter fun k =>
            !(formulas c.children p).2.done.contains k.id) = [] :=
          List.filter_eq_nil_iff.mpr fun k hk => by simp [hdone k hk]
        rw [formula_of_not_mem hc, (formula_right h p hp).1]
        simp [step, not_mem_formulas_children h hc, hnone,
          combined?_eq_plain h hright hdone]
      by_cases hnil : (c.children.filter fun k => !p.done.contains k.id) = []
      · -- nothing is missing below
        have hsame : (formulas c.children p).2 = p := by
          have hall : ∀ k ∈ c.children, k.id ∈ p.done := by
            simpa [List.filter_eq_nil_iff] using hnil
          generalize c.children = cs at hall
          induction cs with
          | nil => rfl
          | cons k cs ih =>
            obtain ⟨hk, hcs⟩ := List.forall_mem_cons.mp hall
            rw [formulas_cons, ih hcs, formula_of_mem hk]
        exact ⟨c :: order, .single (by rw [← hlast false order, hsame])⟩
      · obtain ⟨order', hrun⟩ :=
          reaches_pending hbelow (fun _ hi => hi) hp ((c, true) :: rest) order
        refine ⟨c :: order', .head ?_ (hrun.tail (hlast true order'))⟩
        simp [step, hc, hnil]

end Walk

/-! ## §5 The whole walk -/

theorem substs_foldl_count (ds : List Constraint) (k : Stats) :
    (ds.foldl Stats.count k).substs = k.substs + (ds.filterMap substSize?).length := by
  induction ds generalizing k with
  | nil => rfl
  | cons d ds ih =>
    rw [List.foldl_cons, ih]
    cases d with
    | subst i body pairs => simp +arith [Stats.count, substSize?]
    | _ => simp [Stats.count, List.filterMap_cons, substSize?]

/-- **Flattening keeps the meaning of every tree, however its nodes are shared**: the formula is
true exactly if the reading of the tree is.  The loop with a stack ends with this formula, having
made the formula of each node once and after those of all nodes below it, and one size is noted for
each substitution. -/
theorem flatten?_holds_eq_reading {c : Constraint} (hc : c.Coherent) (hs : c.Substitutes) :
    (∀ b, ∃ φ, c.flatten? b = .ok φ ∧ ∀ s, φ.holds s = c.reading b s) ∧
      ∃ w, (Walk.start c).Reaches w ∧ w.stack = [] ∧
        (∀ b, w.notes.done[c.id]?.map (resolveCuts b) = some (c.flatten b)) ∧
        w.order.Nodup ∧ (∀ d, d ∈ w.order ↔ d ∈ c.subtrees) ∧
        (∀ later d earlier, w.order = later ++ d :: earlier → ∀ k ∈ d.children, k ∈ earlier) ∧
        c.substSizes = w.order.reverse.filterMap substSize? ∧
        c.substSizes.length = c.stats.substs := by
  obtain ⟨ν, n, hν⟩ := hc.exists_listed
  have hempty : Progress.Right ν {} := by
    intro i t ht
    simp at ht
  constructor
  · intro b
    refine ⟨_, hν.flatten?_eq_ok.mpr ⟨hs.sorted, rfl⟩, fun s => ?_⟩
    rw [Bool.eq_iff_iff, hν.holds_flatten, reading_iff hs]
  · obtain ⟨order, hrun⟩ := Walk.treats hν {} [] [] hempty
    have hsound := (Walk.sound_start c).reaches hc hrun
    obtain ⟨hplain, hright⟩ := formula_right hν {} hempty
    have hdone : c.id ∈ (formula c {}).2.done := (formula_adds c {}).2
    have htop : c ∈ order := by
      obtain ⟨d, hd, hid⟩ := (hsound.done c.id).mp hdone
      rwa [hc d (hsound.order d hd) c c.mem_subtrees_self hid] at hd
    have hmem := hsound.mem_order htop
    have hsizes : c.substSizes = order.reverse.filterMap substSize? := by
      rw [substSizes, hsound.sizes, List.filterMap_reverse]
    -- both lists hold each node of the tree once
    have hperm : order.Perm c.nodes :=
      (List.perm_ext_iff_of_nodup hsound.nodup hν.nodup_nodes).mpr fun d =>
        (hmem d).trans (hν.mem_nodes d).symm
    refine ⟨_, hrun, rfl, fun b => ?_, hsound.nodup, hmem, hsound.below, hsizes, ?_⟩
    · obtain ⟨t, ht⟩ :=
        Option.isSome_iff_exists.mp (Std.HashMap.mem_iff_isSome_getElem?.mp hdone)
      rw [ht, Option.map_some, hright _ t ht, hν.self.2, hν.flatten_eq]
    · rw [hsizes, stats, substs_foldl_count, Nat.zero_add, List.filterMap_reverse,
        List.length_reverse]
      exact (hperm.filterMap _).length_eq

/-- The walk over a tree in which one node stands in two places. -/
theorem flatten?_holds_eq_reading_resetTree :
    resetTree.Coherent ∧ resetTree.Substitutes ∧
      (∃ φ, resetTree.flatten? true = .ok φ ∧
        φ.holds (State.zero.set (.text "now") (.bits 8) (.bits 8 1)) = false) ∧
      resetTree.substSizes.length = resetTree.stats.substs := by
  obtain ⟨hflat, -, -, -, -, -, -, -, -, hcount⟩ :=
    flatten?_holds_eq_reading coherent_resetTree substitutes_resetTree
  obtain ⟨φ, hφ, hholds⟩ := hflat true
  exact ⟨coherent_resetTree, substitutes_resetTree, ⟨φ, hφ, (hholds _).trans reading_resetTree⟩,
    hcount⟩

end Antecedent.Constraint
