import Mathlib.Data.Finset.Card
import Mathlib.Data.Finset.Range
import Antecedent.Proofs.Translation

/-!
# Memories that hold the same bytes

A memory can be written down in many ways, and two ways are the same if they hold the same byte at
every address.  No formula without function symbols tells them apart.

* `Memory.agree_iff` says what the comparison of two memories finds out.
-/

namespace Antecedent

/-! ## §1 Memories -/

namespace Memory

variable {m n o : Memory} {a k : Nat}

/-- An address without a cell holds the fill byte. -/
theorem get_of_not_mem (h : k ∉ m.cells.map (·.1)) : m.get k = m.fill % 256 := by
  have hnone : m.cells.lookup k = none := by
    rw [List.lookup_eq_none_iff]
    intro p hp
    rw [bne_iff_ne]
    rintro rfl
    exact h (List.mem_map_of_mem hp)
  rw [get, hnone, Option.getD_none]

private theorem nodup_eraseDups (ks : List Nat) : ks.eraseDups.Nodup := by
  induction hlen : ks.length using Nat.strong_induction_on generalizing ks with
  | _ len ih =>
    cases ks with
    | nil => simp
    | cons k ks =>
      have hshort : (ks.filter fun b => !b == k).length < len := by
        have hle := List.length_filter_le (fun b => !b == k) ks
        rw [List.length_cons] at hlen
        omega
      rw [List.eraseDups_cons, List.nodup_cons]
      exact ⟨by simp, ih _ hshort _ rfl⟩

private theorem mem_of_length_eq {ks : List Nat} {b : Nat} (hks : ks.Nodup) (hlt : ∀ k ∈ ks, k < b)
    (hlen : ks.length = b) (hk : k < b) : k ∈ ks := by
  have hsub : ks.toFinset ⊆ Finset.range b := by
    intro x hx
    exact Finset.mem_range.mpr (hlt x (List.mem_toFinset.mp hx))
  have hcard : (Finset.range b).card ≤ ks.toFinset.card := by
    rw [Finset.card_range, List.toFinset_card_of_nodup hks, hlen]
  have hall := Finset.eq_of_subset_of_card_le hsub hcard
  exact List.mem_toFinset.mp (hall ▸ Finset.mem_range.mpr hk)

/-- **The comparison of memories is exact**: it finds out whether they hold the same byte at every
address of the width. -/
theorem agree_iff : m.agree a n = true ↔ ∀ k < 2 ^ a, m.get k = n.get k := by
  -- outside of the cells of both the fill bytes decide
  have hfill : ∀ k, k < 2 ^ a →
      k ∉ ((m.cells ++ n.cells).map (·.1)).filter (· < 2 ^ a) →
      m.get k = m.fill % 256 ∧ n.get k = n.fill % 256 := by
    intro k hk hkeys
    simp only [List.mem_filter, List.map_append, List.mem_append, decide_eq_true_eq, hk, and_true,
      not_or] at hkeys
    exact ⟨get_of_not_mem hkeys.1, get_of_not_mem hkeys.2⟩
  rw [agree, Nat.pow_eq]
  set keys := ((m.cells ++ n.cells).map (·.1)).filter (· < 2 ^ a) with hkeys
  have hlt : ∀ k ∈ keys.eraseDups, k < 2 ^ a := by
    intro k hk
    simpa using List.of_mem_filter (List.mem_eraseDups.mp hk)
  simp only [Bool.and_eq_true, List.all_eq_true, beq_iff_eq, Bool.or_eq_true]
  constructor
  · rintro ⟨hcells, hrest⟩ k hk
    by_cases hmem : k ∈ keys
    · exact hcells k hmem
    · obtain ⟨hm, hn⟩ := hfill k hk hmem
      rcases hrest with heq | hlen
      · rw [hm, hn, heq]
      · have hin := mem_of_length_eq (nodup_eraseDups keys) hlt hlen hk
        exact absurd (List.mem_eraseDups.mp hin) hmem
  · intro hall
    refine ⟨fun k hk => hall k (by simpa using List.of_mem_filter hk), ?_⟩
    by_cases hfree : ∃ k < 2 ^ a, k ∉ keys
    · obtain ⟨k, hk, hmem⟩ := hfree
      obtain ⟨hm, hn⟩ := hfill k hk hmem
      exact .inl (by rw [← hm, ← hn, hall k hk])
    · right
      have hfull : ∀ k < 2 ^ a, k ∈ keys := by simpa using hfree
      have hset : keys.eraseDups.toFinset = Finset.range (2 ^ a) := by
        ext k
        rw [List.mem_toFinset, Finset.mem_range]
        exact ⟨hlt k, fun hk => List.mem_eraseDups.mpr (hfull k hk)⟩
      rw [← List.toFinset_card_of_nodup (nodup_eraseDups keys), hset, Finset.card_range]

/-- Memories that hold the same bytes do so after a write of the same byte. -/
theorem agree_set (h : m.agree a n = true) (i b : Nat) :
    (m.set i b).agree a (n.set i b) = true := by
  rw [agree_iff] at h ⊢
  intro k hk
  by_cases hki : k = i
  · rw [hki, get_set_self, get_set_self]
  · rw [get_set_ne m b hki, get_set_ne n b hki, h k hk]

end Memory

/-! ## §2 Values -/

namespace Value

variable {u v x y : Value} {s : Srt}

theorem same_refl (v : Value) : v.same v = true := by
  cases v with
  | bool b => simp [same]
  | bits w n => simp [same]
  | memory a m => simp [same, Memory.agree_iff]

/-- Values are the same if they are equal, or memories that hold the same bytes. -/
theorem same_iff : u.same v = true ↔
    u = v ∨ ∃ a m n, u = .memory a m ∧ v = .memory a n ∧ ∀ k < 2 ^ a, m.get k = n.get k := by
  constructor
  · intro h
    cases u <;> cases v <;> simp only [same, Bool.false_eq_true, Bool.and_eq_true, beq_iff_eq] at h
    · exact .inl (by rw [h])
    · exact .inl (by rw [h.1, h.2])
    · obtain ⟨rfl, hagree⟩ := h
      exact .inr ⟨_, _, _, rfl, rfl, Memory.agree_iff.mp hagree⟩
  · rintro (rfl | ⟨a, m, n, rfl, rfl, h⟩)
    · exact same_refl u
    · simpa [same] using Memory.agree_iff.mpr h

theorem same_symm (h : u.same v = true) : v.same u = true := by
  rw [same_iff] at h ⊢
  rcases h with rfl | ⟨a, m, n, rfl, rfl, h⟩
  · exact .inl rfl
  · exact .inr ⟨a, n, m, rfl, rfl, fun k hk => (h k hk).symm⟩

theorem same_trans (h : u.same v = true) (h' : v.same x = true) : u.same x = true := by
  rw [same_iff] at h h' ⊢
  rcases h with rfl | ⟨a, m, n, rfl, rfl, h⟩
  · exact h'
  · rcases h' with rfl | ⟨a', n', o, heq, rfl, h'⟩
    · exact .inr ⟨a, m, n, rfl, rfl, h⟩
    · cases heq
      exact .inr ⟨a, m, o, rfl, rfl, fun k hk => (h k hk).trans (h' k hk)⟩

/-- Comparison does not tell the same values apart. -/
theorem same_congr (hu : u.same x = true) (hv : v.same y = true) : u.same v = x.same y := by
  rw [Bool.eq_iff_iff]
  exact ⟨fun h => same_trans (same_trans (same_symm hu) h) hv,
    fun h => same_trans (same_trans hu h) (same_symm hv)⟩

theorem isTrue_of_same (h : u.same v = true) : u.isTrue = v.isTrue := by
  rcases same_iff.mp h with rfl | ⟨a, m, n, rfl, rfl, -⟩ <;> rfl

end Value

/-- Values of one list are the same as those of another, one by one. -/
def SameAll : List Value → List Value → Prop :=
  List.Forall₂ fun u v => u.same v = true

section SameAll

variable {us vs : List Value} {ss : List Srt}

/-- Values that are no memories are the same only if they are equal. -/
theorem SameAll.eq (h : SameAll us vs) (hfit : FitAll us ss)
    (hss : ∀ s ∈ ss, ∀ a, s ≠ .memory a) : us = vs := by
  induction h generalizing ss with
  | nil => rfl
  | @cons u v us vs huv _ ih =>
    obtain ⟨s, rest, hu, hus, rfl⟩ := List.forall₂_cons_left_iff.mp hfit
    obtain ⟨hs, hrest⟩ := List.forall_mem_cons.mp hss
    rcases Value.same_iff.mp huv with rfl | ⟨a, m, n, rfl, rfl, -⟩
    · rw [ih hus hrest]
    · cases s with
      | bool => exact hu.elim
      | bits w => exact hu.elim
      | memory b => exact absurd rfl (hs b)

/-- Whether values are pairwise different does not depend on which of the same values they are. -/
theorem SameAll.allDistinct_eq (h : SameAll us vs) : allDistinct us = allDistinct vs := by
  induction h with
  | nil => rfl
  | @cons u v us vs huv hall ih =>
    have hothers : us.all (fun x => !u.same x) = vs.all (fun y => !v.same y) := by
      clear ih
      induction hall with
      | nil => rfl
      | cons hxy _ ih => rw [List.all_cons, List.all_cons, ih, Value.same_congr huv hxy]
    rw [allDistinct, allDistinct, hothers, ih]

/-- Concatenation takes no memories. -/
private theorem concatWidth?_ne_memory {w : Nat} (h : concatWidth? ss = some w) :
    ∀ s ∈ ss, ∀ a, s ≠ .memory a := by
  induction ss generalizing w with
  | nil => simp
  | cons s ss ih =>
    cases s with
    | bool => simp [concatWidth?] at h
    | memory a => simp [concatWidth?] at h
    | bits v =>
      rw [concatWidth?, Option.map_eq_some_iff] at h
      obtain ⟨w', hw', -⟩ := h
      exact List.forall_mem_cons.mpr ⟨by simp, ih hw'⟩

end SameAll

/-! ## §3 Terms -/

/-- **Operators do not tell the same values apart**, unless they are function symbols. -/
theorem Op.eval_same {op : Op} (hop : ∀ f ss w, op ≠ .apply f ss w) {us vs : List Value}
    {ss : List Srt} {srt : Srt} (hu : FitAll us ss) (hv : FitAll vs ss) (h : SameAll us vs)
    (hs : op.sort? ss = some srt) (s s' : State) :
    (op.eval s us).same (op.eval s' vs) = true := by
  -- without memories among the arguments nothing is left to show
  have hplain : (∀ r ∈ ss, ∀ a, r ≠ .memory a) → (op.eval s us).same (op.eval s' vs) = true := by
    intro hss
    rw [h.eq hu hss, Op.eval_congr hop s s']
    exact Value.same_refl _
  unfold Op.sort? at hs
  split at hs
  case h_1 | h_4 | h_5 | h_6 | h_10 | h_11 | h_13 | h_14 | h_16 | h_17 | h_18 =>
    exact hplain (by simp)
  case h_2 | h_3 =>
    obtain ⟨hbool, -⟩ : (_ = Srt.bool ∧ ∀ r ∈ _, r = Srt.bool) ∧ Srt.bool = srt := by simpa using hs
    refine hplain (List.forall_mem_cons.mpr ⟨?_, fun r hr a => ?_⟩)
    · simp [hbool.1]
    · simp [hbool.2 r hr]
  case h_7 =>
    obtain ⟨u, v, rfl, -, -⟩ := hu.two
    obtain ⟨x, y, rfl, -, -⟩ := hv.two
    obtain ⟨hux, hvy⟩ : u.same x = true ∧ v.same y = true := by simpa [SameAll] using h
    simp only [Op.eval, Value.same_congr hux hvy]
    exact Value.same_refl _
  case h_8 => simp [Op.eval, h.allDistinct_eq, Value.same]
  case h_9 =>
    obtain ⟨c, u, v, rfl, -, -, -⟩ := hu.three
    obtain ⟨d, x, y, rfl, -, -, -⟩ := hv.three
    obtain ⟨hcd, hux, hvy⟩ : c.same d = true ∧ u.same x = true ∧ v.same y = true := by
      simpa [SameAll] using h
    simp only [Op.eval, Value.isTrue_of_same hcd]
    split
    · exact hux
    · exact hvy
  case h_12 w rest =>
    obtain ⟨⟨hrest, -⟩, -⟩ : ((∀ r ∈ rest, r = Srt.bits w) ∧ _) ∧ _ = srt := by simpa using hs
    refine hplain (List.forall_mem_cons.mpr ⟨by simp, fun r hr a => ?_⟩)
    simp [hrest r hr]
  case h_15 =>
    obtain ⟨w, hw, -⟩ := Option.map_eq_some_iff.mp hs
    exact hplain (concatWidth?_ne_memory hw)
  case h_19 =>
    obtain ⟨u, v, rfl, hu1, hu2⟩ := hu.two
    obtain ⟨x, y, rfl, -, -⟩ := hv.two
    obtain ⟨hux, hvy⟩ : u.same x = true ∧ v.same y = true := by simpa [SameAll] using h
    obtain ⟨hwidth, -⟩ : _ = _ ∧ _ = srt := by simpa using hs
    subst hwidth
    obtain ⟨m, rfl⟩ := hu1.memory_inv
    obtain ⟨i, rfl, hi⟩ := hu2.bits_inv
    obtain rfl : .bits _ i = y := by simpa [Value.same_iff] using hvy
    rcases Value.same_iff.mp hux with rfl | ⟨a, m', n, heq, rfl, hall⟩
    · exact Value.same_refl _
    · cases heq
      simp [Op.eval, Value.same, hall i hi]
  case h_20 =>
    obtain ⟨c, u, v, rfl, hu1, hu2, hu3⟩ := hu.three
    obtain ⟨d, x, y, rfl, -, -, -⟩ := hv.three
    obtain ⟨hcd, hux, hvy⟩ : c.same d = true ∧ u.same x = true ∧ v.same y = true := by
      simpa [SameAll] using h
    obtain ⟨m, rfl⟩ := hu1.memory_inv
    obtain ⟨i, rfl, -⟩ := hu2.bits_inv
    obtain ⟨b, rfl, -⟩ := hu3.bits_inv
    obtain rfl : .bits _ i = x := by simpa [Value.same_iff] using hux
    obtain rfl : .bits _ b = y := by simpa [Value.same_iff] using hvy
    rcases Value.same_iff.mp hcd with rfl | ⟨a, m', n, heq, rfl, hall⟩
    · exact Value.same_refl _
    · cases heq
      simpa [Op.eval, Value.same] using Memory.agree_set (Memory.agree_iff.mpr hall) i b
  case h_21 f ss w => exact absurd rfl (hop f ss w)
  case h_22 => cases hs

/-- **Terms do not tell the same values apart**: a term without function symbols has the same value
in two states whose constants have the same values. -/
theorem Term.eval_same {P : Symbol → Srt → Prop} {t : Term} (h : t.Proper P) {s s' : State}
    (hs : ∀ name srt, P name srt → (s.const name srt).same (s'.const name srt) = true) :
    (t.eval s).same (t.eval s') = true := by
  obtain ⟨hsorted, hover⟩ := h
  induction hover with
  | lit b => simp [Value.same_refl]
  | num w n => simp [Value.same_refl]
  | const hP => simpa using hs _ _ hP
  | @app op args hop _ ih =>
    cases hsorted with
    | app hargs hsrt =>
      have hfit : ∀ s, FitAll (args.map (Term.eval s)) (args.map Term.sort) := by
        intro s
        rw [FitAll, List.forall₂_map_left_iff, List.forall₂_map_right_iff, List.forall₂_same]
        exact fun t ht => eval_fits (hargs t ht) s
      have hsame : SameAll (args.map (Term.eval s)) (args.map (Term.eval s')) := by
        rw [SameAll, List.forall₂_map_left_iff, List.forall₂_map_right_iff, List.forall₂_same]
        exact fun t ht => ih t ht (hargs t ht)
      rw [eval_app, eval_app]
      exact Op.eval_same hop (hfit s) (hfit s') hsame hsrt s s'

/-- A formula is true in both of two states whose constants have the same values, or in none. -/
theorem Term.holds_same {P : Symbol → Srt → Prop} {t : Term} (h : t.Proper P) {s s' : State}
    (hs : ∀ name srt, P name srt → (s.const name srt).same (s'.const name srt) = true) :
    t.holds s = t.holds s' :=
  Value.isTrue_of_same (t.eval_same h hs)

end Antecedent
