import Antecedent.Term.Simplifier
import Mathlib.Data.List.Forall2
import Mathlib.Tactic.Ring

/-!
# Sorts and values of terms

What the value of a term depends on.

* `Term.eval_fits` says that the value of a well-sorted term is one of its sort.
* `Term.eval_subst` says that a substitution of constants is an update of the state.
-/

namespace Antecedent

variable {w : Nat} {s : State} {op : Op} {t : Term}

/-! ## §1 Values of a sort -/

/-- Whether a value is one of a sort: a bit vector has the width of the sort and lies in range. -/
def Value.Fits : Value → Srt → Prop
  | .bool _, .bool => True
  | .bits v n, .bits w => v = w ∧ n < 2 ^ w
  | .memory a _, .memory b => a = b
  | _, _ => False

namespace Value

variable {v : Value} {a : Nat}

theorem Fits.bool_inv (h : v.Fits .bool) : ∃ b, v = .bool b := by
  cases v with
  | bool b => exact ⟨b, rfl⟩
  | bits _ _ => exact h.elim
  | memory _ _ => exact h.elim

theorem Fits.bits_inv (h : v.Fits (.bits w)) : ∃ n, v = .bits w n ∧ n < 2 ^ w := by
  cases v with
  | bool _ => exact h.elim
  | bits x n =>
    obtain ⟨rfl, hn⟩ := h
    exact ⟨n, rfl, hn⟩
  | memory _ _ => exact h.elim

theorem Fits.memory_inv (h : v.Fits (.memory a)) : ∃ m, v = .memory a m := by
  cases v with
  | bool _ => exact h.elim
  | bits _ _ => exact h.elim
  | memory b m =>
    have hb : b = a := h
    exact ⟨m, by rw [hb]⟩

theorem fits_ofBitVec (x : BitVec w) : (Value.ofBitVec x).Fits (.bits w) :=
  ⟨rfl, x.isLt⟩

/-- The memory of a value, the empty one for the others. -/
def toMemory : Value → Memory
  | .memory _ m => m
  | _ => {}

end Value

theorem State.fits_const (s : State) (name : Symbol) (srt : Srt) :
    (s.const name srt).Fits srt := by
  cases srt with
  | bool => exact trivial
  | bits w => exact ⟨rfl, Nat.mod_lt _ (Nat.two_pow_pos _)⟩
  | memory a => exact rfl

/-- Whether a list of values fits a list of sorts, one by one. -/
def FitAll : List Value → List Srt → Prop :=
  List.Forall₂ Value.Fits

theorem concatValues_fits {vs : List Value} {ss : List Srt} (h : FitAll vs ss)
    (hw : concatWidth? ss = some w) : (concatValues vs).1 = w ∧ (concatValues vs).2 < 2 ^ w := by
  induction h generalizing w with
  | nil =>
    obtain rfl : 0 = w := by simpa [concatWidth?] using hw
    simp [concatValues]
  | @cons v s vs ss hv _ ih =>
    cases s with
    | bool => simp [concatWidth?] at hw
    | memory a => simp [concatWidth?] at hw
    | bits x =>
      simp only [concatWidth?, Option.map_eq_some_iff] at hw
      obtain ⟨y, hy, rfl⟩ := hw
      obtain ⟨n, rfl, hn⟩ := hv.bits_inv
      obtain ⟨h1, h2⟩ := ih hy
      simp only [concatValues]
      rw [h1]
      refine ⟨rfl, ?_⟩
      calc n * 2 ^ y + (concatValues vs).2 < n * 2 ^ y + 2 ^ y := by omega
        _ = (n + 1) * 2 ^ y := by ring
        _ ≤ 2 ^ x * 2 ^ y := Nat.mul_le_mul_right _ hn
        _ = 2 ^ (x + y) := by rw [Nat.pow_add]

namespace FitAll

variable {vs : List Value} {r s t : Srt}

theorem one (h : FitAll vs [s]) : ∃ v, vs = [v] ∧ v.Fits s := by
  obtain ⟨v, _, hv, hrest, rfl⟩ := List.forall₂_cons_right_iff.mp h
  obtain rfl := List.forall₂_nil_right_iff.mp hrest
  exact ⟨v, rfl, hv⟩

theorem two (h : FitAll vs [s, t]) : ∃ u v, vs = [u, v] ∧ u.Fits s ∧ v.Fits t := by
  obtain ⟨u, _, hu, hrest, rfl⟩ := List.forall₂_cons_right_iff.mp h
  obtain ⟨v, rfl, hv⟩ := one hrest
  exact ⟨u, v, rfl, hu, hv⟩

theorem three (h : FitAll vs [r, s, t]) :
    ∃ c u v, vs = [c, u, v] ∧ c.Fits r ∧ u.Fits s ∧ v.Fits t := by
  obtain ⟨c, _, hc, hrest, rfl⟩ := List.forall₂_cons_right_iff.mp h
  obtain ⟨u, v, rfl, hu, hv⟩ := two hrest
  exact ⟨c, u, v, rfl, hc, hu, hv⟩

end FitAll

/-- **Operators keep their sorts**: on arguments that fit an operator, the value of an application
is one of the sort that the operator gives. -/
theorem Op.eval_fits {vs : List Value} {ss : List Srt} {srt : Srt} (h : FitAll vs ss)
    (hs : op.sort? ss = some srt) : (op.eval s vs).Fits srt := by
  -- one case for each row of the table of operators, in its order
  unfold Op.sort? at hs
  split at hs
  case h_1 =>
    obtain ⟨v, rfl, -⟩ := h.one
    cases hs
    exact trivial
  case h_2 | h_3 | h_8 =>
    obtain ⟨-, rfl⟩ : _ ∧ Srt.bool = srt := by simpa using hs
    exact trivial
  case h_4 =>
    obtain ⟨v, rfl, hv⟩ := h.one
    cases hs
    exact hv
  case h_5 | h_6 =>
    obtain ⟨u, v, rfl, -, -⟩ := h.two
    cases hs
    exact trivial
  case h_7 =>
    obtain ⟨u, v, rfl, -, -⟩ := h.two
    obtain ⟨-, rfl⟩ : _ ∧ Srt.bool = srt := by simpa using hs
    exact trivial
  case h_9 =>
    -- the branches of a choice have one sort
    obtain ⟨c, u, v, rfl, -, hu, hv⟩ := h.three
    obtain ⟨rfl, rfl⟩ : _ = _ ∧ _ = srt := by simpa using hs
    simp only [Op.eval]
    split
    · exact hu
    · exact hv
  case h_10 | h_11 =>
    obtain ⟨v, rfl, hv⟩ := h.one
    obtain ⟨n, rfl, -⟩ := hv.bits_inv
    cases hs
    exact Value.fits_ofBitVec _
  case h_12 =>
    obtain ⟨v, rest, hv, -, rfl⟩ := List.forall₂_cons_right_iff.mp h
    obtain ⟨n, rfl, -⟩ := hv.bits_inv
    obtain ⟨-, rfl⟩ : _ ∧ _ = srt := by simpa using hs
    exact Value.fits_ofBitVec _
  case h_13 =>
    obtain ⟨u, v, rfl, hu, hv⟩ := h.two
    obtain ⟨m, rfl, -⟩ := hu.bits_inv
    obtain ⟨n, rfl, -⟩ := hv.bits_inv
    obtain ⟨-, rfl⟩ : _ ∧ _ = srt := by simpa using hs
    exact trivial
  case h_14 =>
    obtain ⟨u, v, rfl, -, -⟩ := h.two
    obtain ⟨-, rfl⟩ : _ ∧ _ = srt := by simpa using hs
    refine ⟨rfl, ?_⟩
    split <;> decide
  case h_15 =>
    -- the widths of the parts add up
    obtain ⟨w, hw, rfl⟩ := Option.map_eq_some_iff.mp hs
    exact concatValues_fits h hw
  case h_16 =>
    obtain ⟨v, rfl, hv⟩ := h.one
    obtain ⟨n, rfl, -⟩ := hv.bits_inv
    obtain ⟨-, rfl⟩ : _ ∧ _ = srt := by simpa using hs
    exact ⟨rfl, Nat.mod_lt _ (Nat.two_pow_pos _)⟩
  case h_17 =>
    -- a word is below the power of the larger width too
    obtain ⟨v, rfl, hv⟩ := h.one
    obtain ⟨n, rfl, hn⟩ := hv.bits_inv
    cases hs
    exact ⟨rfl, hn.trans_le (Nat.pow_le_pow_right (by decide) (Nat.le_add_right _ _))⟩
  case h_18 =>
    obtain ⟨v, rfl, hv⟩ := h.one
    obtain ⟨n, rfl, -⟩ := hv.bits_inv
    cases hs
    exact Value.fits_ofBitVec _
  case h_19 =>
    obtain ⟨u, v, rfl, hu, hv⟩ := h.two
    obtain ⟨m, rfl⟩ := hu.memory_inv
    obtain ⟨i, rfl, -⟩ := hv.bits_inv
    obtain ⟨-, rfl⟩ : _ ∧ _ = srt := by simpa using hs
    exact ⟨rfl, Nat.mod_lt _ (by decide)⟩
  case h_20 =>
    -- a write keeps the sort of the memory
    obtain ⟨c, u, v, rfl, hc, hu, hv⟩ := h.three
    obtain ⟨m, rfl⟩ := hc.memory_inv
    obtain ⟨i, rfl, -⟩ := hu.bits_inv
    obtain ⟨b, rfl, -⟩ := hv.bits_inv
    obtain ⟨-, rfl⟩ : _ ∧ _ = srt := by simpa using hs
    exact rfl
  case h_21 =>
    obtain ⟨-, rfl⟩ : _ ∧ _ = srt := by simpa using hs
    exact ⟨rfl, Nat.mod_lt _ (Nat.two_pow_pos _)⟩
  case h_22 => cases hs

/-! ## §2 Well-sorted terms -/

/-- The sum of the widths, where all arguments are bit vectors. -/
private theorem concatWidth_eq {ts : List Term} (h : concatWidth? (ts.map Term.sort) = some w) :
    Term.sort.concatWidth ts = w := by
  induction ts generalizing w with
  | nil => simpa [concatWidth?, Term.sort.concatWidth] using h
  | cons t ts ih =>
    rw [List.map_cons] at h
    cases hs : t.sort with
    | bool => simp [hs, concatWidth?] at h
    | memory a => simp [hs, concatWidth?] at h
    | bits x =>
      rw [hs, concatWidth?, Option.map_eq_some_iff] at h
      obtain ⟨y, hy, rfl⟩ := h
      simp [Term.sort.concatWidth, hs, ih hy]

theorem Term.sort_app {args : List Term} {srt : Srt} (h : op.sort? (args.map Term.sort) = some srt)
    : (Term.app op args).sort = srt := by
  generalize hm : args.map Term.sort = ss at h
  unfold Op.sort? at h
  split at h
  -- the operators whose sort does not depend on the arguments
  case h_1 | h_4 | h_5 | h_6 =>
    cases h
    simp [Term.sort]
  case h_2 | h_3 | h_7 | h_8 | h_13 | h_14 | h_16 | h_19 | h_21 =>
    obtain ⟨-, rfl⟩ : _ ∧ _ = srt := by simpa using h
    simp [Term.sort]
  -- those whose sort is that of an argument
  case h_9 =>
    obtain ⟨c, _, rfl, -, hm⟩ := List.map_eq_cons_iff.mp hm
    obtain ⟨t, _, rfl, ht, -⟩ := List.map_eq_cons_iff.mp hm
    obtain ⟨-, rfl⟩ : _ ∧ _ = srt := by simpa using h
    simp [Term.sort, ht]
  case h_10 | h_11 =>
    obtain ⟨t, _, rfl, ht, -⟩ := List.map_eq_cons_iff.mp hm
    cases h
    simp [Term.sort, ht]
  case h_12 | h_20 =>
    obtain ⟨t, _, rfl, ht, -⟩ := List.map_eq_cons_iff.mp hm
    obtain ⟨-, rfl⟩ : _ ∧ _ = srt := by simpa using h
    simp [Term.sort, ht]
  case h_17 | h_18 =>
    obtain ⟨t, _, rfl, ht, -⟩ := List.map_eq_cons_iff.mp hm
    cases h
    simp [Term.sort, ht]
  case h_15 =>
    obtain ⟨w, hw, rfl⟩ := Option.map_eq_some_iff.mp h
    rw [← hm] at hw
    simp [Term.sort, concatWidth_eq hw]
  case h_22 => cases h

namespace Term

/-- **The value of a well-sorted term is one of its sort.** -/
theorem eval_fits (h : t.WellSorted) (s : State) : (t.eval s).Fits t.sort := by
  induction h with
  | lit b => simp [Term.sort, Value.Fits]
  | num h => simpa [Term.sort, Value.Fits] using h
  | const name srt => simpa [Term.sort] using s.fits_const name srt
  | @app op args srt _ hs ih =>
    rw [sort_app hs, eval_app]
    refine Op.eval_fits ?_ hs
    rw [FitAll, List.forall₂_map_left_iff, List.forall₂_map_right_iff, List.forall₂_same]
    exact ih

theorem eval_bits (h : t.WellSorted) (hs : t.sort = .bits w) (s : State) :
    ∃ n, t.eval s = .bits w n ∧ n < 2 ^ w :=
  (hs ▸ eval_fits h s).bits_inv

theorem eval_memory {a : Nat} (h : t.WellSorted) (hs : t.sort = .memory a) (s : State) :
    ∃ m, t.eval s = .memory a m :=
  (hs ▸ eval_fits h s).memory_inv

@[simp] theorem holds_lit (b : Bool) (s : State) : (Term.lit b).holds s = b := by
  rw [Term.holds, eval_lit, Value.isTrue]

@[simp] theorem holds_and (ts : List Term) (s : State) :
    (Term.app .and ts).holds s = ts.all (Term.holds s) := by
  rw [Term.holds, eval_app, Op.eval, Value.isTrue, List.all_map]
  rfl

@[simp] theorem holds_implies (t u : Term) (s : State) :
    (Term.app .implies [t, u]).holds s = (!t.holds s || u.holds s) := by
  rw [Term.holds, eval_app]
  rfl

@[simp] theorem holds_ite (c t u : Term) (s : State) :
    (Term.app .ite [c, t, u]).holds s = if c.holds s then t.holds s else u.holds s := by
  rw [Term.holds, eval_app]
  simp only [List.map_cons, List.map_nil, Op.eval]
  cases h : (c.eval s).isTrue <;> simp [Term.holds, h]

end Term

/-! ## §3 Writing a constant -/

namespace State

/-- The state with one constant written; the value should be one of the sort. -/
def set (s : State) (name : Symbol) (srt : Srt) (v : Value) : State where
  flag n := if n = name ∧ srt = .bool then v.isTrue else s.flag n
  word n w := if n = name ∧ srt = .bits w then v.toNat else s.word n w
  memory n a := if n = name ∧ srt = .memory a then v.toMemory else s.memory n a
  apply := s.apply

variable (s : State) {name name' : Symbol} {srt srt' : Srt} {v u : Value}

theorem const_set_self (h : v.Fits srt) : (s.set name srt v).const name srt = v := by
  cases srt with
  | bool =>
    obtain ⟨b, rfl⟩ := h.bool_inv
    simp [const, set, Value.isTrue]
  | bits w =>
    obtain ⟨n, rfl, hn⟩ := h.bits_inv
    simp [const, set, Value.toNat, Nat.mod_eq_of_lt hn]
  | memory a =>
    obtain ⟨m, rfl⟩ := h.memory_inv
    simp [const, set, Value.toMemory]

theorem const_set_ne (h : name' ≠ name ∨ srt' ≠ srt) :
    (s.set name srt v).const name' srt' = s.const name' srt' := by
  have h' : ¬(name' = name ∧ srt = srt') := by
    rintro ⟨rfl, rfl⟩
    simp at h
  cases srt' with
  | bool => simp [const, set, h']
  | bits w => simp [const, set, h']
  | memory a => simp [const, set, h']

theorem set_comm (h : name' ≠ name ∨ srt' ≠ srt) :
    (s.set name srt v).set name' srt' u = (s.set name' srt' u).set name srt v := by
  have h' : ∀ n t, (n = name ∧ srt = t) → (n = name' ∧ srt' = t) → False := by
    rintro n t ⟨rfl, rfl⟩ ⟨rfl, rfl⟩
    simp at h
  simp only [set, mk.injEq, and_true]
  refine ⟨?_, ?_, ?_⟩ <;> funext n <;> try funext t
  all_goals split <;> split <;> first | rfl | exact absurd ‹_› (fun hh => h' _ _ ‹_› hh)

end State

/-! ## §4 Substitution is an update -/

/-- The state in which the old constants of a replacement hold the values of the new terms. -/
def State.replaced (s : State) (σ : Replacement) : State where
  flag n := ((σ.find? (.const n .bool)).map fun t => (t.eval s).isTrue).getD (s.flag n)
  word n w := ((σ.find? (.const n (.bits w))).map fun t => (t.eval s).toNat).getD (s.word n w)
  memory n a :=
    ((σ.find? (.const n (.memory a))).map fun t => (t.eval s).toMemory).getD (s.memory n a)
  apply := s.apply

/-- Whether a replacement is of constants, by terms whose values in a state are of the right
sorts. -/
def Replacement.FitsAt (σ : Replacement) (s : State) : Prop :=
  ∀ p ∈ σ, ∃ name srt, p.1 = .const name srt ∧ (p.2.eval s).Fits srt

namespace Replacement

variable {σ : Replacement}

theorem mem_of_find? {u : Term} (h : σ.find? t = some u) : (t, u) ∈ σ := by
  obtain ⟨p, hp, rfl⟩ := Option.map_eq_some_iff.mp h
  obtain rfl : p.1 = t := by simpa using List.find?_some hp
  exact List.mem_of_find?_eq_some hp

theorem FitsAt.find?_eq_none (h : σ.FitsAt s) (ht : ∀ name srt, t ≠ .const name srt) :
    σ.find? t = none := by
  rw [Option.eq_none_iff_forall_ne_some]
  intro u hu
  obtain ⟨name, srt, hc, -⟩ := h _ (mem_of_find? hu)
  exact ht name srt hc

/-- The value of a constant after a replacement. -/
theorem FitsAt.const_replaced (h : σ.FitsAt s) (name : Symbol) (srt : Srt) :
    (s.replaced σ).const name srt =
      ((σ.find? (.const name srt)).map (Term.eval s)).getD (s.const name srt) := by
  cases hf : σ.find? (.const name srt) with
  | none => cases srt <;> simp [State.const, State.replaced, hf]
  | some u =>
    obtain ⟨name', srt', hc, hfits⟩ := h _ (mem_of_find? hf)
    obtain ⟨rfl, rfl⟩ : name = name' ∧ srt = srt' := by simpa using hc
    simp only [Option.map_some, Option.getD_some]
    cases srt with
    | bool =>
      obtain ⟨b, hb⟩ := hfits.bool_inv
      simp only at hb
      simp [State.const, State.replaced, hf, hb, Value.isTrue]
    | bits w =>
      obtain ⟨n, hn, hlt⟩ := hfits.bits_inv
      simp only at hn
      simp [State.const, State.replaced, hf, hn, Value.toNat, Nat.mod_eq_of_lt hlt]
    | memory a =>
      obtain ⟨m, hm⟩ := hfits.memory_inv
      simp only at hm
      simp [State.const, State.replaced, hf, hm, Value.toMemory]

end Replacement

/-- **Substitution lemma**: the value of a term after a substitution of constants is its value in
the updated state. -/
theorem Term.eval_subst {σ : Replacement} (h : σ.FitsAt s) (t : Term) :
    (t.subst σ).eval s = t.eval (s.replaced σ) := by
  rw [Term.subst, Term.foldShared_eq]
  induction t using Term.induction with
  | lit b => simp [Term.fold, Replacement.step, h.find?_eq_none]
  | num w n => simp [Term.fold, Replacement.step, h.find?_eq_none]
  | const name srt =>
    rw [Term.eval_const, h.const_replaced, Term.fold, Replacement.step]
    · cases σ.find? (.const name srt) with
      | none => simp
      | some u => simp
    · simp
  | app op args ih =>
    have hargs : args.map (Term.eval s ∘ Term.fold σ.step) = args.map (Term.eval (s.replaced σ)) :=
      List.map_congr_left ih
    rw [Term.fold, Replacement.step, h.find?_eq_none (by simp), Term.foldList_eq_map]
    simp only [Term.eval_app, List.map_map, hargs]
    -- the function symbols are read in a state with the same meanings
    cases op <;> rfl

theorem State.replaced_single (s : State) (name : Symbol) (srt : Srt) (t : Term) :
    s.replaced [(.const name srt, t)] = s.set name srt (t.eval s) := by
  have hfind : ∀ n r, Replacement.find? [(.const name srt, t)] (.const n r)
      = if n = name ∧ srt = r then some t else none := by
    intro n r
    rw [Replacement.find?, List.find?_singleton]
    by_cases h : n = name ∧ srt = r
    · obtain ⟨rfl, rfl⟩ := h
      simp
    · have hne : (Term.const name srt == Term.const n r) = false := by
        rw [beq_eq_false_iff_ne]
        intro he
        obtain ⟨rfl, rfl⟩ := Term.const.inj he
        exact h ⟨rfl, rfl⟩
      simp [h, hne]
  simp only [State.replaced, State.set, State.mk.injEq, and_true, hfind]
  refine ⟨?_, ?_, ?_⟩ <;> funext n <;> try funext r
  all_goals split <;> rfl

end Antecedent
