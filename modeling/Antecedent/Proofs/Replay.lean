import Antecedent.Proofs.Entry
import Antecedent.Proofs.Reading
import Antecedent.Proofs.Sameness
import Antecedent.Report

/-!
# Replaying counterexamples

A counterexample lists the registers and the memory bytes that a model fixes one by one.  The byte
that the model puts everywhere else in memory is not listed, so a state that holds all that is
listed may still differ from the model where the condition reads.

* `Constraint.SpeaksOf` says which constants a tree speaks of.
* `Counterexample.flatten?_false_of_agrees`: states that hold what is listed falsify what the model
  falsifies, if the rest of their memory is filled as in the model.
-/

namespace Antecedent

/-! ## §1 The constants of a tree -/

/-- Some constants and the one that stands for cut paths. -/
def OrCut (P : Symbol → Srt → Prop) (name : Symbol) (srt : Srt) : Prop :=
  P name srt ∨ name = cutSymbol ∧ srt = .bool

/-- Two states give the same values to some constants. -/
def State.SameOn (s s' : State) (P : Symbol → Srt → Prop) : Prop :=
  ∀ name srt, P name srt → (s.const name srt).same (s'.const name srt) = true

namespace State.SameOn

variable {s s' : State} {P : Symbol → Srt → Prop} {b : Bool}

/-- Cut paths count the same where they are told to. -/
theorem cutAs (h : s.SameOn s' P) (b : Bool) : (s.cutAs b).SameOn (s'.cutAs b) (OrCut P) := by
  intro name srt hP
  by_cases hcut : name = cutSymbol ∧ srt = .bool
  · obtain ⟨rfl, rfl⟩ := hcut
    simp [State.const, Value.same]
  · have hne : name ≠ cutSymbol ∨ srt ≠ .bool := by tauto
    rw [State.cutAs, State.cutAs, const_set_ne _ hne, const_set_ne _ hne]
    exact h name srt (hP.resolve_right hcut)

/-- Constants that are written with terms over the same constants stay the same. -/
theorem replaced (h : s.SameOn s' (OrCut P)) {pairs : Replacement} (hwrites : pairs.Writes)
    (hpairs : ∀ p ∈ pairs, p.2.Proper (OrCut P)) :
    (s.replaced pairs).SameOn (s'.replaced pairs) P := by
  intro name srt hP
  rw [(hwrites.fitsAt s).const_replaced, (hwrites.fitsAt s').const_replaced]
  cases hfind : pairs.find? (.const name srt) with
  | none => exact h name srt (.inl hP)
  | some u => exact Term.eval_same (hpairs _ (Replacement.mem_of_find? hfind)) h

end State.SameOn

namespace Constraint

variable {P : Symbol → Srt → Prop} {c : Constraint} {b : Bool} {s s' : State}

/-- Whether the terms of a node speak of some constants only and its substitution writes
constants. -/
def SpeaksOwn (P : Symbol → Srt → Prop) : Constraint → Prop
  | .goal _ _ f => f.Proper (OrCut P)
  | .ite _ _ cond _ _ => cond.Proper (OrCut P)
  | .clause .. => True
  | .subst _ _ pairs => pairs.Writes ∧ ∀ p ∈ pairs, p.2.Proper (OrCut P)

/-- Whether a tree speaks of some constants and of cut paths, and of nothing else. -/
def SpeaksOf (P : Symbol → Srt → Prop) (c : Constraint) : Prop :=
  c.Everywhere (SpeaksOwn P)

theorem SpeaksOf.substitutes (h : c.SpeaksOf P) : c.Substitutes := by
  refine Everywhere.mono h fun d hd => ?_
  cases d with
  | subst i body pairs => exact hd.1
  | _ => trivial

/-- **A tree depends on the constants that it speaks of** and on nothing else. -/
theorem SpeaksOf.holds_same (h : c.SpeaksOf P) (hs : s.SameOn s' P) :
    c.Holds b s ↔ c.Holds b s' := by
  -- the states are general, since a substitution has its body read in another state
  induction c using byNodes generalizing s s' with
  | goal i name f =>
    have hf : f.Proper (OrCut P) := everywhere_goal.mp h
    rw [holds_goal, holds_goal, Term.holds_same hf (hs.cutAs b)]
  | ite i name cond yes no ihy ihn =>
    obtain ⟨hcond, hy, hn⟩ := everywhere_ite.mp h
    have hcond : cond.Proper (OrCut P) := hcond
    rw [holds_ite, holds_ite, Term.holds_same hcond (hs.cutAs b)]
    split
    · exact ihy hy hs
    · exact ihn hn hs
  | clause i hyps concls ihh ihc =>
    obtain ⟨-, hh, hc⟩ := everywhere_clause.mp h
    rw [holds_clause, holds_clause]
    exact imp_congr (forall₂_congr fun c hm => ihh c hm (hh c hm) hs)
      (forall₂_congr fun c hm => ihc c hm (hc c hm) hs)
  | subst i body pairs ih =>
    obtain ⟨⟨hwrites, hpairs⟩, hbody⟩ := everywhere_subst.mp h
    rw [holds_subst_of_writes hwrites, holds_subst_of_writes hwrites]
    exact ih hbody ((hs.cutAs b).replaced hwrites hpairs)

end Constraint

/-! ## §2 What is listed -/

namespace Counterexample

section Entries

variable {α β : Type} [BEq α] [LawfulBEq α] {le : α → α → Bool} {entries : List (α × β)}

/-- The last entry of each key. -/
def latest (entries : List (α × β)) : List (α × β) :=
  entries.foldr (fun e kept => if kept.any (·.1 == e.1) then kept else e :: kept) []

omit [LawfulBEq α] in
theorem latest_subset : latest entries ⊆ entries := by
  induction entries with
  | nil => exact List.Subset.refl _
  | cons e es ih =>
    rw [latest, List.foldr_cons, ← latest]
    split
    · exact List.subset_cons_of_subset _ ih
    · exact List.cons_subset_cons _ ih

theorem exists_mem_latest {q : α × β} (h : q ∈ entries) : ∃ r ∈ latest entries, r.1 = q.1 := by
  induction entries with
  | nil => cases h
  | cons e es ih =>
    rw [latest, List.foldr_cons, ← latest]
    split
    · next hany =>
      rcases List.mem_cons.mp h with rfl | h
      · simpa using hany
      · exact ih h
    · rcases List.mem_cons.mp h with rfl | h
      · exact ⟨q, List.mem_cons_self .., rfl⟩
      · obtain ⟨r, hr, heq⟩ := ih h
        exact ⟨r, List.mem_cons_of_mem _ hr, heq⟩

/-- An entry is listed if no later one has its key. -/
theorem mem_sortEntries {p : α × β} : p ∈ sortEntries le entries ↔
    ∃ before after, entries = before ++ p :: after ∧ ∀ q ∈ after, q.1 ≠ p.1 := by
  rw [show sortEntries le entries = (latest entries).mergeSort fun a b => le a.1 b.1 from rfl,
    List.mem_mergeSort]
  -- an entry is kept if no later one has its key
  induction entries with
  | nil => simp [latest]
  | cons e es ih =>
    rw [latest, List.foldr_cons, ← latest]
    constructor
    · intro h
      split at h
      · obtain ⟨before, after, rfl, hlast⟩ := ih.mp h
        exact ⟨e :: before, after, rfl, hlast⟩
      · next hnone =>
        rcases List.mem_cons.mp h with rfl | h
        · refine ⟨[], es, rfl, fun q hq heq => hnone ?_⟩
          obtain ⟨r, hr, hkey⟩ := exists_mem_latest hq
          exact List.any_eq_true.mpr ⟨r, hr, beq_iff_eq.mpr (hkey.trans heq)⟩
        · obtain ⟨before, after, rfl, hlast⟩ := ih.mp h
          exact ⟨e :: before, after, rfl, hlast⟩
    · rintro ⟨before, after, heq, hlast⟩
      cases before with
      | nil =>
        obtain ⟨rfl, rfl⟩ := List.cons.inj heq
        split
        · next hany =>
          obtain ⟨q, hq, hkey⟩ := List.any_eq_true.mp hany
          exact absurd (beq_iff_eq.mp hkey) (hlast q (latest_subset hq))
        · exact List.mem_cons_self ..
      | cons d ds =>
        obtain ⟨rfl, rfl⟩ := List.cons.inj heq
        have hp := ih.mpr ⟨ds, after, rfl, hlast⟩
        split
        · exact hp
        · exact List.mem_cons_of_mem _ hp

theorem mem_of_mem_sortEntries {p : α × β} (h : p ∈ sortEntries le entries) : p ∈ entries := by
  obtain ⟨before, after, rfl, -⟩ := mem_sortEntries.mp h
  simp

theorem mem_sortEntries_of_nodup (h : (entries.map (·.1)).Nodup) {p : α × β} (hp : p ∈ entries) :
    p ∈ sortEntries le entries := by
  obtain ⟨before, after, rfl⟩ := List.append_of_mem hp
  refine mem_sortEntries.mpr ⟨before, after, rfl, fun q hq heq => ?_⟩
  rw [List.map_append, List.map_cons, List.nodup_append] at h
  exact (List.nodup_cons.mp h.2.1).1 (heq ▸ List.mem_map_of_mem hq)

end Entries

section Memories

variable {a k byte : Nat} {m : Memory} {le : Int → Int → Bool}
  (hcells : ∀ p ∈ m.cells, p.1 < 2 ^ a)
include hcells

theorem memoryEntries_eq : memoryEntries a m =
    m.cells.reverse.map fun p => ((p.1 : Int), ((p.2 % 256 : Nat) : Int)) := by
  refine List.map_congr_left fun p hp => ?_
  have hword : p.1 % Nat.pow 2 a = p.1 := Nat.mod_eq_of_lt (hcells p (List.mem_reverse.mp hp))
  simp only [hword]

theorem mem_sorted_memoryEntries (h : m.cells.lookup k = some byte) :
    ((k : Int), ((byte % 256 : Nat) : Int)) ∈ sortEntries le (memoryEntries a m) := by
  -- the cells are listed in reverse, so the cell that counts is the last entry of its address
  obtain ⟨later, earlier, heq, hlater⟩ := List.lookup_eq_some_iff.mp h
  rw [memoryEntries_eq hcells, heq, List.reverse_append, List.reverse_cons, List.append_assoc,
    List.map_append, List.singleton_append, List.map_cons]
  refine mem_sortEntries.mpr ⟨_, _, rfl, fun q hq hkey => ?_⟩
  obtain ⟨r, hr, rfl⟩ := List.mem_map.mp hq
  have hne : k ≠ r.1 := by simpa using hlater r (List.mem_reverse.mp hr)
  exact hne (Int.ofNat.inj hkey).symm

theorem ne_of_mem_sorted_memoryEntries (h : m.cells.lookup k = none) :
    ∀ p ∈ sortEntries le (memoryEntries a m), p.1 ≠ k := by
  intro p hp hkey
  have hmem := mem_of_mem_sortEntries hp
  rw [memoryEntries_eq hcells] at hmem
  obtain ⟨r, hr, rfl⟩ := List.mem_map.mp hmem
  have hne : k ≠ r.1 := by simpa using List.lookup_eq_none_iff.mp h r (List.mem_reverse.mp hr)
  exact hne (Int.ofNat.inj hkey).symm

end Memories

end Counterexample

/-! ## §3 States that hold what is listed -/

/-- The names of variables are texts, and each stands once. -/
structure Environment.NamedOnce (e : Environment) : Prop where
  texts : ∀ p ∈ e.vars, ∃ l, p.1 = .text l
  once : (e.vars.map (·.1)).Nodup

/-- The constants of the registers and of the memory. -/
def Environment.Observes (e : Environment) (name : Symbol) : Srt → Prop
  | .bool => False
  | .bits w => ∃ l, l ≠ e.arch.memoryName ∧ e.findVar? (.text l) = some (.const name (.bits w))
  | .memory a => e.findVar? e.arch.memoryName = some (.const name (.memory a))

namespace Counterexample

/-- A state holds all that a counterexample lists. -/
structure Agrees (cex : Counterexample) (e : Environment) (s : State) : Prop where
  regs : ∀ p ∈ cex.sortedRegs, ∀ t, e.findVar? (.text p.1) = some t → ((t.eval s).toNat : Int) = p.2
  mem : ∀ p ∈ cex.sortedMem, ∀ name a,
    e.findVar? e.arch.memoryName = some (.const name (.memory a)) →
      ((s.memory name a).get p.1.toNat : Int) = p.2

variable {e : Environment} {m : Model} {cex : Counterexample} {name : Symbol}

theorem exists_ofModel (he : e.NamedOnce) (m : Model) : ∃ cex, ofModel m e = .ok cex := by
  have hsort : ∃ vars, Label.sortBy (fun a b => a.1.before b.1) e.vars = .ok vars := by
    refine Label.sortBy_ok fun x hx y hy => ?_
    obtain ⟨k, hk⟩ := he.texts x hx
    obtain ⟨l, hl⟩ := he.texts y hy
    exact ⟨_, by rw [hk, hl, Label.before]⟩
  obtain ⟨vars, hvars⟩ := hsort
  rw [ofModel, hvars]
  exact ⟨_, rfl⟩

theorem nodup_filterMap_names {f : Label × Term → Option (String × Int)}
    {vars : List (Label × Term)} (hf : ∀ p q, f p = some q → p.1 = .text q.1)
    (h : (vars.map (·.1)).Nodup) :
    ((vars.filterMap f).map (·.1)).Nodup := by
  induction vars with
  | nil => exact .nil
  | cons v vars ih =>
    obtain ⟨hv, hvars⟩ := List.nodup_cons.mp h
    rw [List.filterMap_cons]
    cases hfv : f v with
    | none => exact ih hvars
    | some q =>
      refine List.nodup_cons.mpr ⟨fun hq => hv ?_, ih hvars⟩
      obtain ⟨r, hr, hkey⟩ := List.mem_map.mp hq
      obtain ⟨u, hu, hfu⟩ := List.mem_filterMap.mp hr
      have hkeys : v.1 = u.1 := by rw [hf v q hfv, hf u r hfu, hkey]
      exact List.mem_map.mpr ⟨u, hu, hkeys.symm⟩

/-- The value of a declared register is listed under the register's name. -/
theorem mem_sortedRegs {w : Nat} {l : String} (he : e.NamedOnce) (h : ofModel m e = .ok cex)
    (hl : l ≠ e.arch.memoryName) (hvar : e.findVar? (.text l) = some (.const name (.bits w)))
    (hdecl : name.shown ∈ m.declared) :
    (l, ((m.state.const name (.bits w)).toNat : Int)) ∈ cex.sortedRegs := by
  simp only [ofModel, bind_eq_ok, pure_eq_ok] at h
  obtain ⟨vars, hvars, rfl⟩ := h
  have hperm := Label.sortBy_perm hvars
  obtain ⟨p, hfind, hp⟩ := Option.map_eq_some_iff.mp hvar
  -- the variable is the first one with its label, and the only one
  obtain ⟨hmem, hsame⟩ : p ∈ e.vars ∧ p.1 = .text l :=
    ⟨List.mem_of_find?_eq_some hfind, Label.eq_of_same_text
      (List.find?_some (p := fun q : Label × Term => q.1.same (.text l)) hfind)⟩
  obtain ⟨label, t⟩ := p
  subst hp hsame
  refine mem_sortEntries_of_nodup ?_ (List.mem_filterMap.mpr ⟨_, hperm.mem_iff.mpr hmem, ?_⟩)
  · refine nodup_filterMap_names (fun p q hpq => ?_) ((hperm.map _).nodup_iff.mpr he.once)
    split at hpq
    · split at hpq
      · cases hpq
        assumption
      · cases hpq
    · cases hpq
  · simp [hl, hdecl]

theorem mem_eq_memoryEntries {a : Nat} (h : ofModel m e = .ok cex)
    (hvar : e.findVar? e.arch.memoryName = some (.const name (.memory a)))
    (hdecl : name.shown ∈ m.declared) : cex.mem = memoryEntries a (m.state.memory name a) := by
  simp only [ofModel, bind_eq_ok, pure_eq_ok] at h
  obtain ⟨vars, -, rfl⟩ := h
  simp only [hvar, List.contains_eq_mem, hdecl, decide_true, if_true]

/-- A state that holds what is listed, and whose memory is filled as that of the model, has the
values of the model. -/
theorem Agrees.sameOn {P : Symbol → Srt → Prop} {s : State} (hs : cex.Agrees e s) (he : e.NamedOnce)
    (h : ofModel m e = .ok cex)
    (hP : ∀ name srt, P name srt → e.Observes name srt ∧ name.shown ∈ m.declared)
    (hcells : ∀ name a, P name (.memory a) → ∀ p ∈ (m.state.memory name a).cells, p.1 < 2 ^ a)
    (hfill : ∀ name a, P name (.memory a) → ∀ k : Nat, k < 2 ^ a → (∀ p ∈ cex.sortedMem, p.1 ≠ k) →
      (s.memory name a).get k = (m.state.memory name a).fill % 256) :
    m.state.SameOn s P := by
  intro name srt hname
  obtain ⟨hobs, hdecl⟩ := hP name srt hname
  cases srt with
  | bool => exact hobs.elim
  | bits w =>
    obtain ⟨l, hl, hvar⟩ := hobs
    have hvalue := hs.regs _ (mem_sortedRegs he h hl hvar hdecl) _ hvar
    rw [Term.eval_const] at hvalue
    refine Value.same_iff.mpr (.inl ?_)
    simp only [State.const, Value.toNat, Nat.cast_inj] at hvalue ⊢
    rw [hvalue]
  | memory a =>
    refine Value.same_iff.mpr (.inr ⟨a, _, _, rfl, rfl, fun k hk => ?_⟩)
    have hmem : cex.sortedMem = sortEntries (fun a b => decide (a ≤ b))
        (memoryEntries a (m.state.memory name a)) := by
      rw [sortedMem, mem_eq_memoryEntries h hobs hdecl]
    -- an address with a cell is listed, and the others are filled
    cases hcell : (m.state.memory name a).cells.lookup k with
    | some byte =>
      have hlisted : ((k : Int), ((byte % 256 : Nat) : Int)) ∈ cex.sortedMem := by
        rw [hmem]
        exact mem_sorted_memoryEntries (hcells name a hname) hcell
      have hbyte := hs.mem _ hlisted name a hobs
      rw [Int.toNat_natCast, Nat.cast_inj] at hbyte
      rw [hbyte, Memory.get, hcell, Option.getD_some]
    | none =>
      rw [hfill name a hname k hk
        (hmem ▸ ne_of_mem_sorted_memoryEntries (hcells name a hname) hcell), Memory.get, hcell,
        Option.getD_none]

/-- **Counterexamples determine the failure, but for the filling of the memory.**  Let a tree speak
of registers and of the memory only, and let a model give values to all constants that the tree
speaks of.  The model gives a counterexample, and the tree has a formula.  If the formula is false
in the model, it is false in every state that holds the listed registers and bytes, and in which
the addresses that are not listed hold the byte that fills the memory of the model.  The last
condition matters only to trees that speak of the memory. -/
theorem flatten?_false_of_agrees {P : Symbol → Srt → Prop} {c : Constraint} (he : e.NamedOnce)
    (hc : c.Coherent) (hover : c.SpeaksOf P)
    (hP : ∀ name srt, P name srt → e.Observes name srt ∧ name.shown ∈ m.declared)
    (hcells : ∀ name a, P name (.memory a) → ∀ p ∈ (m.state.memory name a).cells, p.1 < 2 ^ a) :
    ∃ cex, ofModel m e = .ok cex ∧ ∀ cuts, ∃ φ, c.flatten? cuts = .ok φ ∧
      (φ.holds m.state = false → ∀ s, cex.Agrees e s →
        (∀ name a, P name (.memory a) → ∀ k : Nat, k < 2 ^ a → (∀ p ∈ cex.sortedMem, p.1 ≠ k) →
          (s.memory name a).get k = (m.state.memory name a).fill % 256) →
        φ.holds s = false) := by
  obtain ⟨cex, hcex⟩ := exists_ofModel he m
  obtain ⟨ν, n, hν⟩ := hc.exists_listed
  refine ⟨cex, hcex, fun cuts => ⟨_, hν.flatten?_eq_ok.mpr ⟨hover.substitutes.sorted, rfl⟩, ?_⟩⟩
  intro hfalse s hs hfill
  have hsame := hs.sameOn he hcex hP hcells hfill
  rw [← Bool.not_eq_true, hν.holds_flatten] at hfalse ⊢
  exact fun hholds => hfalse ((hover.holds_same hsame).mpr hholds)

def probeEnv : Environment where
  arch := .x8664
  vars := [(.text "RAX", .const (.text "RAX") (.bits 64)),
    (.text "mem", .const (.text "mem") (.memory 64))]

/-- The byte that the register points to is not one. -/
def probe : Constraint :=
  .goal 0 "byte" (.app .not [.app .eq [.app .select [.const (.text "mem") (.memory 64),
    .const (.text "RAX") (.bits 64)], .num 8 1]])

def probed (n : Nat) (memory : Memory) : State where
  flag _ := false
  word _ _ := n
  memory _ _ := memory
  apply _ _ _ _ := 0

theorem named_probeEnv : probeEnv.NamedOnce where
  texts := by simp [probeEnv]
  once := by simp [probeEnv]

theorem coherent_probe : probe.Coherent := by
  simp [probe, Constraint.Coherent, Constraint.subtrees]

theorem speaksOf_probe : probe.SpeaksOf fun name srt =>
    name = .text "RAX" ∧ srt = .bits 64 ∨ name = .text "mem" ∧ srt = .memory 64 := by
  refine Constraint.everywhere_goal.mpr ⟨?_, ?_⟩
  · have hbyte : (Term.app .select [.const (.text "mem") (.memory 64),
        .const (.text "RAX") (.bits 64)]).WellSorted :=
      .app (by simp [Term.WellSorted.const]) (rfl : _ = some (Srt.bits 8))
    have hone : (Term.num 8 1).WellSorted := .num (by decide)
    refine .app (List.forall_mem_singleton.mpr (.app ?_ (rfl : _ = some Srt.bool)))
      (rfl : _ = some Srt.bool)
    simp [hbyte, hone]
  · refine .app (by simp) (List.forall_mem_singleton.mpr (.app (by simp) ?_))
    refine List.forall_mem_cons.mpr ⟨.app (by simp) ?_, List.forall_mem_singleton.mpr (.num 8 1)⟩
    refine List.forall_mem_cons.mpr ⟨?_, List.forall_mem_singleton.mpr ?_⟩
    · exact .const (.inl (.inr ⟨rfl, rfl⟩))
    · exact .const (.inl (.inl ⟨rfl, rfl⟩))

theorem observes_probeEnv {name : Symbol} {srt : Srt}
    (h : name = .text "RAX" ∧ srt = .bits 64 ∨ name = .text "mem" ∧ srt = .memory 64) :
    probeEnv.Observes name srt ∧ name.shown ∈ ["RAX", "mem"] := by
  rcases h with ⟨rfl, rfl⟩ | ⟨rfl, rfl⟩
  · exact ⟨⟨"RAX", by decide, rfl⟩, by simp [Symbol.shown]⟩
  · exact ⟨rfl, by simp [Symbol.shown]⟩

theorem ofModel_probed (n : Nat) (memory : Memory) :
    ofModel ⟨probed n memory, ["RAX", "mem"]⟩ probeEnv =
      .ok ⟨[("RAX", (n % 2 ^ 64 : Nat))], memoryEntries 64 memory⟩ :=
  rfl

theorem holds_probe (n : Nat) (memory : Memory) (cuts : Bool) :
    (probe.flatten cuts).holds (probed n memory) = (memory.get (n % 2 ^ 64) != 1) := by
  rw [probe, Constraint.flatten_goal, Term.holds, Constraint.eval_resolveCuts]
  simp [Op.eval, State.const, State.cutAs, State.set, probed, Value.same, Value.isTrue, bne]

theorem flatten?_probe (cuts : Bool) : probe.flatten? cuts = .ok (probe.flatten cuts) := by
  obtain ⟨ν, n, hν⟩ := coherent_probe.exists_listed
  exact hν.flatten?_eq_ok.mpr ⟨speaksOf_probe.substitutes.sorted, rfl⟩

theorem agrees_probed {n : Nat} {memory memory' : Memory}
    (h : ∀ p ∈ memoryEntries 64 memory, (memory'.get p.1.toNat : Int) = p.2) :
    Agrees ⟨[("RAX", (n % 2 ^ 64 : Nat))], memoryEntries 64 memory⟩ probeEnv
      (probed n memory') where
  regs := by
    rintro p hp t ht
    obtain rfl := List.mem_singleton.mp (mem_of_mem_sortEntries hp)
    cases ht
    simp [State.const, probed, Value.toNat]
  mem := by
    rintro p hp name a -
    exact h p (mem_of_mem_sortEntries hp)

/-- The byte is fixed by a cell, and another way to write the memory down fails too. -/
theorem flatten?_false_of_agrees_probe :
    (probe.flatten true).holds (probed 3 ⟨7, [(3, 1)]⟩) = false ∧
      (probe.flatten true).holds (probed 3 ⟨263, [(4, 7), (3, 257)]⟩) = false := by
  obtain ⟨cex, hcex, hall⟩ := flatten?_false_of_agrees
    (m := ⟨probed 3 ⟨7, [(3, 1)]⟩, ["RAX", "mem"]⟩) named_probeEnv coherent_probe
    speaksOf_probe (fun _ _ => observes_probeEnv) (by simp [probed])
  obtain ⟨φ, hφ, hfalse⟩ := hall true
  cases (flatten?_probe true).symm.trans hφ
  cases (ofModel_probed 3 ⟨7, [(3, 1)]⟩).symm.trans hcex
  -- the second memory differs from the model in cells that are not listed
  refine ⟨by rw [holds_probe]; decide, hfalse (by rw [holds_probe]; decide) _ (agrees_probed ?_) ?_⟩
  · intro p hp
    obtain rfl := List.mem_singleton.mp hp
    rfl
  · intro name a hmem k hk hlisted
    obtain ⟨rfl, rfl⟩ : name = .text "mem" ∧ a = 64 := by simpa using hmem
    have hne : k ≠ 3 := by
      rintro rfl
      exact hlisted (3, 1) (mem_sorted_memoryEntries (m := ⟨7, [(3, 1)]⟩) (by simp)
        (show List.lookup 3 [(3, 1)] = some 1 from rfl)) rfl
    by_cases hfour : k = 4
    · rw [hfour]
      rfl
    · simp [probed, Memory.get, List.lookup_cons, hne, hfour, beq_false_of_ne]

/-- **What is listed does not determine the failure**: if the byte is fixed only by what fills the
memory, nothing is listed for it. -/
theorem not_flatten?_false_of_listed :
    ¬∀ (e : Environment) (m : Model) (c : Constraint) (P : Symbol → Srt → Prop), e.NamedOnce →
      c.Coherent → c.SpeaksOf P →
      (∀ name srt, P name srt → e.Observes name srt ∧ name.shown ∈ m.declared) →
      (∀ name a, P name (.memory a) → ∀ p ∈ (m.state.memory name a).cells, p.1 < 2 ^ a) →
      ∀ cex cuts φ, ofModel m e = .ok cex → c.flatten? cuts = .ok φ → φ.holds m.state = false →
        ∀ s, cex.Agrees e s → φ.holds s = false := by
  intro hall
  have hfalse := hall probeEnv ⟨probed 3 ⟨1, []⟩, ["RAX", "mem"]⟩ probe _ named_probeEnv
    coherent_probe speaksOf_probe (fun _ _ => observes_probeEnv) (by simp [probed]) _ true _
    (ofModel_probed _ _) (flatten?_probe true) (by rw [holds_probe]; decide) (probed 3 ⟨0, []⟩)
    (agrees_probed (by simp [memoryEntries]))
  rw [holds_probe] at hfalse
  exact absurd hfalse (by decide)

end Counterexample

end Antecedent
