import Antecedent.Constraint.Flatten
import Antecedent.Proofs.Evaluation
import Mathlib.Algebra.Order.BigOperators.Group.List
import Mathlib.Data.List.Nodup

/-!
# What a constraint says

Flattening treats every different node of a constraint once, in an order of its own.  On a tree
whose numbers are used properly the result is the formula read off the tree node by node, and its
truth follows the shape of the tree.

* `Constraint.Listed` says that a table of nodes gives every node of a tree at its number.
* `Constraint.Holds` is the truth of a tree in a state.
-/

namespace Antecedent

variable {c d yes no body : Constraint} {i n : Nat} {name : String} {f cond t : Term}
  {hyps concls : List Constraint} {ν : Nat → Constraint}

namespace Constraint

/-! ## §1 Nodes of a tree -/

/-- Induction over the nodes of a tree, with every member of a clause at hand. -/
@[elab_as_elim]
theorem byNodes {motive : Constraint → Prop}
    (goal : ∀ i name f, motive (.goal i name f))
    (ite : ∀ i name cond yes no, motive yes → motive no → motive (.ite i name cond yes no))
    (clause : ∀ i hyps concls, (∀ c ∈ hyps, motive c) → (∀ c ∈ concls, motive c) →
      motive (.clause i hyps concls))
    (subst : ∀ i body pairs, motive body → motive (.subst i body pairs)) :
    ∀ c, motive c
  | .goal i name f => goal i name f
  | .ite i name cond yes no =>
    ite i name cond yes no (byNodes goal ite clause subst yes) (byNodes goal ite clause subst no)
  | .clause i hyps concls =>
    clause i hyps concls (fun c _ => byNodes goal ite clause subst c)
      (fun c _ => byNodes goal ite clause subst c)
  | .subst i body pairs => subst i body pairs (byNodes goal ite clause subst body)

/-- Induction over the nodes of a tree, all nodes right below a node at once. -/
@[elab_as_elim]
theorem byChildren {motive : Constraint → Prop}
    (step : ∀ c, (∀ k ∈ c.children, motive k) → motive c) (c : Constraint) : motive c := by
  induction c using byNodes with
  | goal i name f => exact step _ (by simp [children])
  | ite i name cond yes no ihy ihn => exact step _ (by simp [children, ihy, ihn])
  | clause i hyps concls ihh ihc => exact step _ (List.forall_mem_append.mpr ⟨ihh, ihc⟩)
  | subst i body pairs ih => exact step _ (by simp [children, ih])

theorem subtreesList_eq (cs : List Constraint) : subtreesList cs = cs.flatMap subtrees := by
  induction cs with
  | nil => simp [subtreesList]
  | cons c cs ih => simp [subtreesList, ih]

theorem mem_subtrees_self (c : Constraint) : c ∈ c.subtrees := by
  cases c <;> simp [subtrees]

theorem subtrees_trans {x : Constraint} (hd : d ∈ c.subtrees) (hx : x ∈ d.subtrees) :
    x ∈ c.subtrees := by
  induction c using byNodes with
  | goal i name f =>
    obtain rfl : d = .goal i name f := by simpa [subtrees] using hd
    exact hx
  | ite i name cond yes no ihy ihn =>
    simp only [subtrees, List.mem_cons, List.mem_append] at hd ⊢
    rcases hd with rfl | hd | hd
    · simpa [subtrees] using hx
    · exact .inr (.inl (ihy hd))
    · exact .inr (.inr (ihn hd))
  | clause i hyps concls ihh ihc =>
    simp only [subtrees, subtreesList_eq, List.mem_cons, List.mem_append, List.mem_flatMap] at hd ⊢
    rcases hd with rfl | ⟨c, hc, hd⟩ | ⟨c, hc, hd⟩
    · simpa [subtrees, subtreesList_eq] using hx
    · exact .inr (.inl ⟨c, hc, ihh c hc hd⟩)
    · exact .inr (.inr ⟨c, hc, ihc c hc hd⟩)
  | subst i body pairs ih =>
    simp only [subtrees, List.mem_cons] at hd ⊢
    rcases hd with rfl | hd
    · simpa [subtrees] using hx
    · exact .inr (ih hd)

def Everywhere (P : Constraint → Prop) (c : Constraint) : Prop :=
  ∀ d ∈ c.subtrees, P d

section Everywhere

variable {P Q : Constraint → Prop}

theorem Everywhere.self (h : c.Everywhere P) : P c :=
  h c c.mem_subtrees_self

theorem Everywhere.of_mem (h : c.Everywhere P) (hd : d ∈ c.subtrees) : d.Everywhere P :=
  fun x hx => h x (subtrees_trans hd hx)

theorem Everywhere.mono (h : c.Everywhere P) (hPQ : ∀ d, P d → Q d) : c.Everywhere Q :=
  fun d hd => hPQ d (h d hd)

@[simp] theorem everywhere_goal : (Constraint.goal i name f).Everywhere P ↔ P (.goal i name f) := by
  simp [Everywhere, subtrees]

@[simp] theorem everywhere_ite {name : Json} : (Constraint.ite i name cond yes no).Everywhere P ↔
      P (.ite i name cond yes no) ∧ yes.Everywhere P ∧ no.Everywhere P := by
  simp only [Everywhere, subtrees, List.forall_mem_cons, List.forall_mem_append]

@[simp] theorem everywhere_clause : (Constraint.clause i hyps concls).Everywhere P ↔
      P (.clause i hyps concls) ∧ (∀ c ∈ hyps, c.Everywhere P) ∧ ∀ c ∈ concls, c.Everywhere P := by
  simp only [Everywhere, subtrees, subtreesList_eq, List.forall_mem_cons, List.forall_mem_append,
    List.forall_mem_flatMap]

@[simp] theorem everywhere_subst {pairs : Replacement} :
    (Constraint.subst i body pairs).Everywhere P ↔
      P (.subst i body pairs) ∧ body.Everywhere P := by
  simp only [Everywhere, subtrees, List.forall_mem_cons]

/-- A predicate holds everywhere in a tree if it holds at the top and everywhere below. -/
theorem everywhere_iff : c.Everywhere P ↔ P c ∧ ∀ d ∈ c.children, d.Everywhere P := by
  cases c with
  | goal i name f => simp [children]
  | ite i name cond yes no => simp [children]
  | clause i hyps concls => simp [children, or_imp, forall_and]
  | subst i body pairs => simp [children]

theorem mem_subtrees_of_child {k : Constraint} (hd : d ∈ c.subtrees) (hk : k ∈ d.children) :
    k ∈ c.subtrees := by
  have hself : d.Everywhere (· ∈ d.subtrees) := fun x hx => hx
  exact subtrees_trans hd ((everywhere_iff.mp hself).2 k hk).self

/-- A predicate that goes down from every node holds everywhere if it holds at the top. -/
theorem Everywhere.of_children (h : ∀ d, P d → ∀ k ∈ d.children, P k) (hc : P c) :
    c.Everywhere P := by
  induction c using byChildren with
  | step c ih => exact everywhere_iff.mpr ⟨hc, fun k hk => ih k hk (h c hc k hk)⟩

end Everywhere

/-! ## §2 Tables of nodes -/

/-- A table of nodes gives every node of a tree at its number, below a bound. -/
def Listed (ν : Nat → Constraint) (n : Nat) : Constraint → Prop :=
  Everywhere fun d => d.id < n ∧ ν d.id = d

section Listed

theorem Coherent.listed (h : c.Coherent) (hn : ∀ d ∈ c.subtrees, d.id < n) : ∃ ν, c.Listed ν n := by
  refine ⟨fun i => (c.subtrees.find? (·.id == i)).getD default, fun d hd => ⟨hn d hd, ?_⟩⟩
  cases hf : c.subtrees.find? (·.id == d.id) with
  | none =>
    have := List.find?_eq_none.mp hf d hd
    simp at this
  | some e =>
    have hid : e.id = d.id := by simpa using List.find?_some hf
    simpa [hf] using h e (List.mem_of_find?_eq_some hf) d hd hid

theorem Coherent.exists_listed (h : c.Coherent) : ∃ ν n, c.Listed ν n := by
  obtain ⟨ν, hν⟩ := h.listed (n := (c.subtrees.map id).sum + 1) fun d hd =>
    Nat.lt_succ_of_le (List.le_sum_of_mem (List.mem_map_of_mem hd))
  exact ⟨ν, _, hν⟩

/-- A tree is coherent if no number is used twice. -/
theorem Coherent.of_nodup (h : (c.subtrees.map id).Nodup) : c.Coherent :=
  fun _ ha _ hb => List.inj_on_of_nodup_map h ha hb

theorem Listed.mono {ν' : Nat → Constraint} {n' : Nat} (h : c.Listed ν n) (hn : n ≤ n')
    (hν : ∀ i < n, ν' i = ν i) : c.Listed ν' n' := by
  refine Everywhere.mono h ?_
  rintro d ⟨hlt, hd⟩
  exact ⟨hlt.trans_le hn, by rw [hν _ hlt, hd]⟩

end Listed

/-! ## §3 Formulas without a table -/

mutual
/-- The formula read off a tree, node by node. -/
def plain : Constraint → Term
  | .goal _ _ f => f
  | .ite _ _ cond yes no => .app .ite [cond, plain yes, plain no]
  | .clause _ hyps concls => clauseFormula (plainList hyps) (plainList concls)
  | .subst _ body pairs => (plain body).subst pairs
def plainList : List Constraint → List Term
  | [] => []
  | c :: cs => plain c :: plainList cs
end

theorem plainList_eq_map (cs : List Constraint) : plainList cs = cs.map plain := by
  induction cs with
  | nil => simp [plainList]
  | cons c cs ih => simp [plainList, ih]

/-- The formulas noted so far are those of the listed nodes. -/
def Progress.Right (ν : Nat → Constraint) (p : Progress) : Prop :=
  ∀ i t, p.done[i]? = some t → t = (ν i).plain

theorem Progress.Right.note {p : Progress} (h : p.Right ν) (ht : t = (ν i).plain) :
    (p.note i t).Right ν := by
  intro j u hu
  simp only [Progress.note, Std.HashMap.getElem?_insert] at hu
  split at hu
  · next hij =>
    obtain rfl : i = j := by simpa using hij
    obtain rfl : t = u := by simpa using hu
    exact ht
  · exact h j u hu

section Formula

/-- What flattening a tree with right notes gives: its formula, and right notes again. -/
def FormulaRight (ν : Nat → Constraint) (c : Constraint) : Prop :=
  ∀ p : Progress, p.Right ν → (formula c p).1 = c.plain ∧ (formula c p).2.Right ν

/-- What flattening a list of trees gives when it gives the right thing on its members. -/
theorem formulas_right {cs : List Constraint} (h : ∀ c ∈ cs, FormulaRight ν c)
    (p : Progress) (hp : p.Right ν) :
    (formulas cs p).1 = plainList cs ∧ (formulas cs p).2.Right ν := by
  induction cs with
  | nil => simpa [formulas, plainList] using hp
  | cons c cs ih =>
    obtain ⟨h1, h2⟩ := ih fun d hd => h d (List.mem_cons_of_mem _ hd)
    obtain ⟨h3, h4⟩ := h c (List.mem_cons_self ..) _ h2
    simp only [formulas, plainList]
    exact ⟨by rw [h3, h1], h4⟩

/-- **Sharing does not change the formula**: a listed tree flattens to the formula read off it. -/
theorem formula_right (h : c.Listed ν n) : FormulaRight ν c := by
  induction c using byNodes with
  | goal i name f =>
    intro p hp
    obtain ⟨-, (hν : ν i = _)⟩ := everywhere_goal.mp h
    rw [formula]
    cases hd : p.done[(Constraint.goal i name f).id]? with
    | some t => exact ⟨by simpa [id, hν, plain] using hp i t hd, hp⟩
    | none => exact ⟨by simp [plain], hp.note (by simp [hν, plain])⟩
  | ite i name cond yes no ihy ihn =>
    intro p hp
    obtain ⟨⟨-, (hν : ν i = _)⟩, hy, hn⟩ := everywhere_ite.mp h
    rw [formula]
    cases hd : p.done[(Constraint.ite i name cond yes no).id]? with
    | some t => exact ⟨by simpa [id, hν] using hp i t hd, hp⟩
    | none =>
      -- the second branch is treated first, and its notes are at hand for the other
      obtain ⟨hn1, hn2⟩ := ihn hn p hp
      obtain ⟨hy1, hy2⟩ := ihy hy _ hn2
      simp only [plain]
      rw [hy1, hn1]
      exact ⟨rfl, hy2.note (by rw [hν, plain])⟩
  | clause i hyps concls ihh ihc =>
    intro p hp
    obtain ⟨⟨-, (hν : ν i = _)⟩, hh, hc⟩ := everywhere_clause.mp h
    rw [formula]
    cases hd : p.done[(Constraint.clause i hyps concls).id]? with
    | some t => exact ⟨by simpa [id, hν] using hp i t hd, hp⟩
    | none =>
      obtain ⟨hc1, hc2⟩ := formulas_right (fun c hm => ihc c hm (hc c hm)) p hp
      obtain ⟨hh1, hh2⟩ := formulas_right (fun c hm => ihh c hm (hh c hm)) _ hc2
      simp only [plain]
      rw [hh1, hc1]
      exact ⟨rfl, hh2.note (by rw [hν, plain])⟩
  | subst i body pairs ih =>
    intro p hp
    obtain ⟨⟨-, (hν : ν i = _)⟩, hb⟩ := everywhere_subst.mp h
    rw [formula]
    cases hd : p.done[(Constraint.subst i body pairs).id]? with
    | some t => exact ⟨by simpa [id, hν] using hp i t hd, hp⟩
    | none =>
      obtain ⟨hb1, hb2⟩ := ih hb p hp
      simp only [plain]
      rw [hb1]
      exact ⟨rfl, hb2.note (by rw [hν, plain])⟩

theorem flatten_goal (i : Nat) (name : String) (f : Term) (b : Bool) :
    (goal i name f).flatten b = resolveCuts b f := by
  simp [flatten, formula]

theorem Listed.flatten_eq (h : c.Listed ν n) (b : Bool) : c.flatten b = resolveCuts b c.plain := by
  rw [flatten, (formula_right h {} (by intro i t ht; simp at ht)).1]

end Formula

/-! ## §4 The different nodes -/

section Census

/-- The numbers seen are those of the nodes seen, all of them listed, and none seen twice. -/
private structure Census.Right (ν : Nat → Constraint) (k : Census) : Prop where
  seen : ∀ i, k.seen.contains i = true ↔ ∃ d ∈ k.nodes, d.id = i
  listed : ∀ d ∈ k.nodes, ν d.id = d
  nodup : k.nodes.Nodup

private def Census.Full (k : Census) (size : Nat) : Prop :=
  ∀ x ∈ k.nodes, sizeOf x < size → ∀ d ∈ x.subtrees, d ∈ k.nodes

/-- A census went over some nodes: they are what was added. -/
private def Census.Adds (k k' : Census) (ds : List Constraint) : Prop :=
  ∀ d, d ∈ k'.nodes ↔ d ∈ k.nodes ∨ d ∈ ds

/-- Noting a node that was not seen. -/
private theorem Census.Right.insert {k : Census} (h : k.Right ν) (hc : ν c.id = c)
    (hs : ¬k.seen.contains c.id = true) :
    Census.Right ν { seen := k.seen.insert c.id, nodes := c :: k.nodes } where
  seen i := by
    simp only [Std.HashSet.contains_insert, Bool.or_eq_true, beq_iff_eq, h.seen, List.mem_cons,
      exists_eq_or_imp]
  listed d hd := by
    rcases List.mem_cons.mp hd with rfl | hd
    · exact hc
    · exact h.listed d hd
  nodup := List.nodup_cons.mpr ⟨fun hm => hs ((h.seen _).mpr ⟨c, hm, rfl⟩), h.nodup⟩

private theorem Census.Full.adds {k k' : Census} {size : Nat} {ds : List Constraint}
    (h : k.Full size) (ha : k.Adds k' ds) (hds : ∀ x ∈ ds, ∀ d ∈ x.subtrees, d ∈ ds) :
    k'.Full size := by
  intro x hx hlt d hd
  rcases (ha x).mp hx with hx | hx
  · exact (ha d).mpr (.inl (h x hx hlt d hd))
  · exact (ha d).mpr (.inr (hds x hx d hd))

/-- What a census of a tree does when the tree is small enough. -/
private def CensusRight (ν : Nat → Constraint) (c : Constraint) : Prop :=
  ∀ (k : Census) (size : Nat), k.Right ν → k.Full size → sizeOf c < size →
    (census k c).Right ν ∧ k.Adds (census k c) c.subtrees

private theorem censusList_right {cs : List Constraint} (h : ∀ c ∈ cs, CensusRight ν c)
    (k : Census) {size : Nat} (hk : k.Right ν) (hf : k.Full size)
    (hsize : ∀ c ∈ cs, sizeOf c < size) :
    (censusList k cs).Right ν ∧ k.Adds (censusList k cs) (subtreesList cs) := by
  induction cs generalizing k with
  | nil => exact ⟨hk, fun d => by simp [censusList, subtreesList]⟩
  | cons c cs ih =>
    obtain ⟨h1, h2⟩ := h c (List.mem_cons_self ..) k size hk hf (hsize c (List.mem_cons_self ..))
    have hf1 := hf.adds h2 fun x hx d hd => subtrees_trans hx hd
    obtain ⟨h3, h4⟩ := ih (fun d hd => h d (List.mem_cons_of_mem _ hd)) _ h1 hf1
      fun d hd => hsize d (List.mem_cons_of_mem _ hd)
    simp only [censusList]
    refine ⟨h3, fun d => ?_⟩
    rw [h4 d, h2 d, subtreesList, List.mem_append, or_assoc]

private theorem census_right (h : c.Listed ν n) : CensusRight ν c := by
  -- the node itself is noted first; the nodes below it are smaller, so what is full below the size
  -- of the node stays so
  have start : ∀ {c : Constraint} {k : Census} {size : Nat}, k.Full size → sizeOf c < size →
      Census.Full { seen := k.seen.insert c.id, nodes := c :: k.nodes } (sizeOf c) := by
    intro c k size hf hlt x hx hxc d hd
    rcases List.mem_cons.mp hx with rfl | hx
    · exact absurd hxc (lt_irrefl _)
    · exact List.mem_cons_of_mem _ (hf x hx (hxc.trans hlt) d hd)
  have seen : ∀ {c : Constraint} {k : Census} {size : Nat}, c.Listed ν n → k.Right ν →
      k.Full size → sizeOf c < size → k.seen.contains c.id = true →
      k.Right ν ∧ k.Adds k c.subtrees := by
    intro c k size h hk hf hlt hs
    obtain ⟨d, hd, hid⟩ := (hk.seen _).mp hs
    have hdc : d = c := by rw [← hk.listed d hd, hid, h.self.2]
    exact ⟨hk, fun x => ⟨.inl, fun hx => hx.elim (fun hx => hx) (hf c (hdc ▸ hd) hlt x)⟩⟩
  induction c using byNodes with
  | goal i name f =>
    intro k size hk hf hlt
    rw [census]
    split
    · next hs => exact seen h hk hf hlt hs
    · next hs =>
      refine ⟨hk.insert h.self.2 hs, fun d => ?_⟩
      simp [subtrees, or_comm]
  | ite i name cond yes no ihy ihn =>
    intro k size hk hf hlt
    rw [census]
    split
    · next hs => exact seen h hk hf hlt hs
    · next hs =>
      obtain ⟨⟨-, hν⟩, hy, hn⟩ := everywhere_ite.mp h
      have hf1 := start hf hlt
      obtain ⟨h1, h2⟩ := ihy hy _ _ (hk.insert hν hs) hf1 (by simp +arith)
      have hf2 := hf1.adds h2 fun x hx d hd => subtrees_trans hx hd
      obtain ⟨h3, h4⟩ := ihn hn _ _ h1 hf2 (by simp +arith)
      refine ⟨h3, fun d => (h4 d).trans ?_⟩
      rw [h2 d]
      simp only [subtrees, List.mem_cons, List.mem_append]
      tauto
  | clause i hyps concls ihh ihc =>
    intro k size hk hf hlt
    rw [census]
    split
    · next hs => exact seen h hk hf hlt hs
    · next hs =>
      obtain ⟨⟨-, hν⟩, hh, hc⟩ := everywhere_clause.mp h
      have hf1 := start hf hlt
      obtain ⟨h1, h2⟩ := censusList_right (fun c hm => ihh c hm (hh c hm)) _ (hk.insert hν hs) hf1
        fun c hm => by have := List.sizeOf_lt_of_mem hm; simp +arith; omega
      have hf2 := hf1.adds h2 fun x hx d hd => by
        rw [subtreesList_eq, List.mem_flatMap] at hx ⊢
        obtain ⟨c, hc, hx⟩ := hx
        exact ⟨c, hc, subtrees_trans hx hd⟩
      obtain ⟨h3, h4⟩ := censusList_right (fun c hm => ihc c hm (hc c hm)) _ h1 hf2
        fun c hm => by have := List.sizeOf_lt_of_mem hm; simp +arith; omega
      refine ⟨h3, fun d => (h4 d).trans ?_⟩
      rw [h2 d]
      simp only [subtrees, List.mem_cons, List.mem_append]
      tauto
  | subst i body pairs ih =>
    intro k size hk hf hlt
    rw [census]
    split
    · next hs => exact seen h hk hf hlt hs
    · next hs =>
      obtain ⟨⟨-, hν⟩, hb⟩ := everywhere_subst.mp h
      obtain ⟨h1, h2⟩ := ih hb _ _ (hk.insert hν hs) (start hf hlt) (by simp +arith)
      refine ⟨h1, fun d => (h2 d).trans ?_⟩
      simp only [subtrees, List.mem_cons]
      tauto

private theorem nodes_right (h : c.Listed ν n) :
    (census {} c).Right ν ∧ Census.Adds {} (census {} c) c.subtrees := by
  have hstart : Census.Right ν {} := ⟨by simp, by simp, .nil⟩
  have hfull : Census.Full {} (sizeOf c + 1) := by simp [Census.Full]
  exact census_right h {} _ hstart hfull (Nat.lt_succ_self _)

theorem Listed.mem_nodes (h : c.Listed ν n) (d : Constraint) : d ∈ c.nodes ↔ d ∈ c.subtrees := by
  obtain ⟨-, hadds⟩ := nodes_right h
  simpa [nodes] using hadds d

theorem Listed.nodup_nodes (h : c.Listed ν n) : c.nodes.Nodup :=
  (nodes_right h).1.nodup

end Census

/-- Whether the substitution of a node keeps the sorts of what it replaces. -/
def keepsOwnSorts : Constraint → Prop
  | .subst _ _ pairs => pairs.keepsSorts = true
  | _ => True

/-- Whether all substitutions of a tree keep the sorts of what they replace. -/
def Sorted (c : Constraint) : Prop :=
  c.Everywhere keepsOwnSorts

section Sorted

@[simp] theorem sorted_goal : (Constraint.goal i name f).Sorted := by
  simp [Sorted, keepsOwnSorts]

@[simp] theorem sorted_ite {name : Json} :
    (Constraint.ite i name cond yes no).Sorted ↔ yes.Sorted ∧ no.Sorted := by
  simp [Sorted, keepsOwnSorts]

@[simp] theorem sorted_clause : (Constraint.clause i hyps concls).Sorted ↔
      (∀ c ∈ hyps, c.Sorted) ∧ ∀ c ∈ concls, c.Sorted := by
  simp [Sorted, keepsOwnSorts]

@[simp] theorem sorted_subst {pairs : Replacement} :
    (Constraint.subst i body pairs).Sorted ↔ pairs.keepsSorts = true ∧ body.Sorted := by
  simp [Sorted, keepsOwnSorts]

end Sorted

/-- A listed tree flattens without a fault exactly if all its substitutions keep sorts. -/
theorem Listed.keepsSorts_iff (h : c.Listed ν n) : c.keepsSorts = true ↔ c.Sorted := by
  rw [keepsSorts, List.all_eq_true]
  refine forall_congr' fun d => ?_
  rw [h.mem_nodes d]
  cases d <;> simp [keepsOwnSorts]

end Constraint

/-! ## §5 Truth -/

/-- The symbol of the constant that stands for cut paths. -/
def cutSymbol : Symbol := .text "__binwp_loop_cut"

/-- The state in which cut paths count as true or as false. -/
def State.cutAs (s : State) (b : Bool) : State :=
  s.set cutSymbol .bool (.bool b)

/-- A term without Boolean constants does not see the cuts. -/
theorem Term.eval_cutAs (h : t.Over fun _ srt => srt ≠ .bool) (s : State) (b : Bool) :
    t.eval (s.cutAs b) = t.eval s :=
  Term.eval_congr h fun _ _ hsrt => s.const_set_ne (.inr hsrt)

/-- Resolving the cuts in a formula is reading it where they are resolved. -/
theorem Constraint.eval_resolveCuts (t : Term) (b : Bool) (s : State) :
    (resolveCuts b t).eval s = t.eval (s.cutAs b) := by
  have hfits : Replacement.FitsAt [(Term.loopCut, .lit b)] s := by
    intro p hp
    obtain rfl := List.mem_singleton.mp hp
    exact ⟨_, _, rfl, by simp [Term.eval, Value.Fits]⟩
  rw [resolveCuts, Term.eval_subst hfits, Term.loopCut, State.replaced_single]
  simp only [Term.eval]
  rfl

namespace Constraint

/-- Whether a constraint is true in a state, with cut paths true or false. -/
def Holds (b : Bool) (s : State) (c : Constraint) : Prop :=
  c.plain.holds (s.cutAs b) = true

/-- **Flattening says what the tree says.** -/
theorem Listed.holds_flatten (h : c.Listed ν n) (b : Bool) (s : State) :
    (c.flatten b).holds s = true ↔ c.Holds b s := by
  rw [h.flatten_eq, Term.holds, eval_resolveCuts, Holds, Term.holds]

/-- Flattening succeeds exactly if every substitution keeps sorts. -/
theorem Listed.flatten?_eq_ok {b : Bool} {φ : Term} (h : c.Listed ν n) :
    c.flatten? b = .ok φ ↔ c.Sorted ∧ c.flatten b = φ := by
  rw [flatten?, ← h.keepsSorts_iff]
  split
  · next hk => simp [hk]
  · next hk => simp [hk]

/-- A coherent tree whose substitutions keep sorts has a formula, which says what the tree says. -/
theorem Coherent.flatten?_eq (h : c.Coherent) (hs : c.Sorted) (b : Bool) :
    c.flatten? b = .ok (c.flatten b) ∧ ∀ s, (c.flatten b).holds s = true ↔ c.Holds b s := by
  obtain ⟨ν, n, hl⟩ := h.exists_listed
  exact ⟨hl.flatten?_eq_ok.mpr ⟨hs, rfl⟩, hl.holds_flatten b⟩

section Holds

variable {b : Bool} {s : State}

theorem holds_flatten_goal :
    ((Constraint.goal i name f).flatten b).holds s = f.holds (s.cutAs b) := by
  rw [flatten_goal, Term.holds, eval_resolveCuts, Term.holds]

@[simp] theorem holds_goal : (Constraint.goal i name f).Holds b s ↔ f.holds (s.cutAs b) = true := by
  rw [Holds, plain]

@[simp] theorem holds_ite {name : Json} : (Constraint.ite i name cond yes no).Holds b s ↔
      if cond.holds (s.cutAs b) = true then yes.Holds b s else no.Holds b s := by
  rw [Holds, plain, Term.holds_ite]
  by_cases h : cond.holds (s.cutAs b) = true
  · rw [if_pos h, if_pos h, Holds]
  · rw [if_neg h, if_neg h, Holds]

/-- A conjunction is true when its members are. -/
theorem holds_conjunction (ts : List Term) (s : State) :
    (conjunction ts).holds s = ts.all (Term.holds s) := by
  cases ts with
  | nil => rw [conjunction, Term.holds_lit, List.all_nil]
  | cons t ts => rw [conjunction, Term.holds_and]; simp

@[simp] theorem holds_clause : (Constraint.clause i hyps concls).Holds b s ↔
      ((∀ c ∈ hyps, c.Holds b s) → ∀ c ∈ concls, c.Holds b s) := by
  have hall : ∀ cs : List Constraint,
      (cs.map plain).all (Term.holds (s.cutAs b)) = true ↔ ∀ c ∈ cs, c.Holds b s := by
    intro cs
    simp [Holds]
  rw [Holds, plain, plainList_eq_map, plainList_eq_map, ← hall hyps, ← hall concls]
  cases hyps with
  | nil => simp [clauseFormula, holds_conjunction]
  | cons h hs =>
    rw [List.map_cons, clauseFormula, Term.holds_implies, Term.holds_and, holds_conjunction]
    · cases (h.plain :: hs.map plain).all (Term.holds (s.cutAs b)) <;> simp
    · simp

/-- A waiting substitution of one constant, not that for cut paths, is a write. -/
theorem holds_subst {name : Symbol} {srt : Srt} (hcut : name ≠ cutSymbol ∨ srt ≠ .bool)
    (ht : t.Over fun _ srt => srt ≠ .bool) (hfits : (t.eval s).Fits srt) :
    (Constraint.subst i body [(.const name srt, t)]).Holds b s ↔
      body.Holds b (s.set name srt (t.eval s)) := by
  have heval := Term.eval_cutAs ht s b
  have hσ : Replacement.FitsAt [(.const name srt, t)] (s.cutAs b) := by
    intro p hp
    obtain rfl := List.mem_singleton.mp hp
    exact ⟨name, srt, rfl, heval ▸ hfits⟩
  simp only [Holds, plain, Term.holds]
  rw [Term.eval_subst hσ, State.replaced_single, heval, State.cutAs, State.set_comm _ hcut]
  rfl

end Holds

/-- What a constraint says, once all its substitutions keep sorts. -/
def Means (c : Constraint) (Q : Bool → State → Prop) : Prop :=
  c.Sorted → ∀ b s, c.Holds b s ↔ Q b s

end Constraint

end Antecedent
