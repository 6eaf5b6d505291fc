import Antecedent.Json.Writer
import Antecedent.Proofs.Documents

/-!
# Documents with sorted keys

Entries of the cache are written with the members of every object in the order of their keys.
Sorting keys is a rewriting, so a program that is read from such a document is the program with the
objects in its fields sorted, and a second time nothing changes.

* `Json.eq_sorted` says that what is written is sorted.
* `Program.sorted_sorted` and `Encode.sorted_program` are laws of sorting.
-/

namespace Antecedent

/-! ## §1 Sorting -/

namespace Label

section SortBy

variable {α : Type} {before : α → α → Except Fault Bool}

/-- Whether no value comes before the one in front of it. -/
def Ascends (before : α → α → Except Fault Bool) : List α → Prop
  | x :: y :: rest => before y x = .ok false ∧ Ascends before (y :: rest)
  | _ => True

theorem Ascends.sortBy {xs : List α} (h : Ascends before xs) : sortBy before xs = .ok xs := by
  induction xs with
  | nil => rfl
  | cons x xs ih =>
    cases xs with
    | nil => rfl
    | cons y rest =>
      obtain ⟨hxy, hrest⟩ := h
      rw [Label.sortBy, bind_eq_ok]
      exact ⟨_, ih hrest, by simp [insertBy, hxy]⟩

theorem Ascends.insertBy (hb : ∀ x y, before x y = .ok true → before y x = .ok false) {x : α}
    {xs ys : List α} (h : Ascends before xs) (hys : insertBy before x xs = .ok ys) :
    Ascends before ys := by
  induction xs generalizing ys with
  | nil =>
    obtain rfl := Except.ok.inj hys
    trivial
  | cons y xs ih =>
    rw [Label.insertBy, bind_eq_ok] at hys
    obtain ⟨b, hyx, hys⟩ := hys
    cases b with
    | false =>
      obtain rfl := pure_eq_ok.mp hys
      exact ⟨hyx, h⟩
    | true =>
      simp only [if_true, bind_eq_ok, pure_eq_ok] at hys
      obtain ⟨zs, hzs, rfl⟩ := hys
      -- what follows `y` now is the new value or what followed before
      cases xs with
      | nil =>
        obtain rfl := Except.ok.inj hzs
        exact ⟨hb _ _ hyx, trivial⟩
      | cons z xs =>
        have hz := ih h.2 hzs
        rw [Label.insertBy, bind_eq_ok] at hzs
        obtain ⟨b, -, hzs⟩ := hzs
        cases b with
        | false =>
          obtain rfl := pure_eq_ok.mp hzs
          exact ⟨hb _ _ hyx, hz⟩
        | true =>
          simp only [if_true, bind_eq_ok, pure_eq_ok] at hzs
          obtain ⟨zs, -, rfl⟩ := hzs
          exact ⟨h.1, hz⟩

theorem mem_insertBy {x z : α} {xs ys : List α} (h : insertBy before x xs = .ok ys) :
    z ∈ ys ↔ z = x ∨ z ∈ xs := by
  induction xs generalizing ys with
  | nil =>
    obtain rfl := Except.ok.inj h
    simp
  | cons y xs ih =>
    rw [Label.insertBy, bind_eq_ok] at h
    obtain ⟨b, -, h⟩ := h
    cases b with
    | false =>
      obtain rfl := pure_eq_ok.mp h
      simp
    | true =>
      simp only [if_true, bind_eq_ok, pure_eq_ok] at h
      obtain ⟨zs, hzs, rfl⟩ := h
      rw [List.mem_cons, ih hzs, List.mem_cons]
      tauto

theorem mem_sortBy {z : α} {xs ys : List α} (h : sortBy before xs = .ok ys) :
    z ∈ ys ↔ z ∈ xs := by
  induction xs generalizing ys with
  | nil =>
    obtain rfl := Except.ok.inj h
    rfl
  | cons x xs ih =>
    rw [Label.sortBy, bind_eq_ok] at h
    obtain ⟨zs, hzs, hys⟩ := h
    rw [mem_insertBy hys, ih hzs, List.mem_cons]

theorem sortBy_of_sortBy (hb : ∀ x y, before x y = .ok true → before y x = .ok false)
    {xs ys : List α}
    (h : sortBy before xs = .ok ys) : sortBy before ys = .ok ys := by
  refine Ascends.sortBy ?_
  induction xs generalizing ys with
  | nil =>
    obtain rfl := Except.ok.inj h
    trivial
  | cons x xs ih =>
    rw [Label.sortBy, bind_eq_ok] at h
    obtain ⟨zs, hzs, hys⟩ := h
    exact (ih hzs).insertBy hb hys

end SortBy

/-- What comes before a label does not come after it. -/
theorem before_asymm {a b : Label} (h : a.before b = .ok true) : b.before a = .ok false := by
  rcases a with _ | _ | _ | (_ | _ | _) | s <;> rcases b with _ | _ | _ | (_ | _ | _) | t
  case text.text =>
    have hlt : s < t := of_decide_eq_true (Except.ok.inj h)
    have hge : ¬t < s := fun hgt => String.lt_irrefl s (String.lt_trans hlt hgt)
    exact congrArg Except.ok (decide_eq_false hge)
  all_goals simp_all [before, ratio?, Binary64.magnitude?, le_of_lt]

end Label

namespace Json

theorem findMember?_insertBy {k : String} {m : Label × Json} {ms ms' : List (Label × Json)}
    (h : Label.insertBy (fun a b => a.1.before b.1) m ms = .ok ms') :
    findMember? k ms' = findMember? k (m :: ms) := by
  induction ms generalizing ms' with
  | nil =>
    obtain rfl := Except.ok.inj h
    rfl
  | cons m1 ms ih =>
    rw [Label.insertBy, bind_eq_ok] at h
    obtain ⟨b, hb, h⟩ := h
    cases b with
    | false =>
      obtain rfl := pure_eq_ok.mp h
      rfl
    | true =>
      simp only [if_true, bind_eq_ok, pure_eq_ok] at h
      obtain ⟨ns, hns, rfl⟩ := h
      have hfind := ih hns
      simp only [findMember?, List.find?_cons] at hfind ⊢
      -- a member that was passed comes before the new one, so it has another key
      by_cases hk : m1.1.same k = true
      · have hne : m.1.same k = false := by
          rw [Bool.eq_false_iff]
          intro hm
          rw [Label.eq_of_same_text hk, Label.eq_of_same_text hm] at hb
          cases hb.symm.trans (Label.before_asymm hb)
        simp [hk, hne]
      · simp only [Bool.not_eq_true] at hk
        simpa [hk] using hfind

theorem findMember?_sortBy {k : String} {ms ms' : List (Label × Json)}
    (h : Label.sortBy (fun a b => a.1.before b.1) ms = .ok ms') :
    findMember? k ms' = findMember? k ms := by
  induction ms generalizing ms' with
  | nil =>
    obtain rfl := Except.ok.inj h
    rfl
  | cons m ms ih =>
    rw [Label.sortBy, bind_eq_ok] at h
    obtain ⟨ns, hns, h⟩ := h
    have hfind := ih hns
    rw [findMember?_insertBy h]
    simp only [findMember?, List.find?_cons] at hfind ⊢
    cases m.1.same k <;> simp [hfind]

/-! ## §2 Sorted values -/

/-- Members in the order of their keys; members whose keys have no order stay where they are. -/
def ordered (ms : List (Label × Json)) : List (Label × Json) :=
  match Label.sortBy (fun a b => a.1.before b.1) ms with
  | .ok ms' => ms'
  | .error _ => ms

mutual
/-- The value with the members of every object in the order of their keys. -/
def sorted : Json → Json
  | .arr xs => .arr (sortedItems xs)
  | .obj ms => .obj (ordered (sortedMembers ms))
  | j => j
@[inherit_doc sorted]
def sortedItems : List Json → List Json
  | [] => []
  | j :: js => sorted j :: sortedItems js
@[inherit_doc sorted]
def sortedMembers : List (Label × Json) → List (Label × Json)
  | [] => []
  | (k, j) :: ms => (k, sorted j) :: sortedMembers ms
end

mutual
/-- What is sorted without a fault is sorted. -/
theorem eq_sorted (j : Json) {j' : Json} (h : j.sortKeys = .ok j') : j' = j.sorted := by
  cases j with
  | arr xs =>
    simp only [sortKeys, bind_eq_ok, pure_eq_ok] at h
    obtain ⟨ys, hys, rfl⟩ := h
    rw [sorted, eq_sortedItems xs hys]
  | obj ms =>
    simp only [sortKeys, bind_eq_ok, pure_eq_ok] at h
    obtain ⟨ns, hns, ns', hsort, rfl⟩ := h
    rw [sorted, ordered, ← eq_sortedMembers ms hns, hsort]
  | _ => exact (pure_eq_ok.mp h).symm
theorem eq_sortedItems (xs : List Json) {ys : List Json} (h : sortItems xs = .ok ys) :
    ys = sortedItems xs := by
  cases xs with
  | nil => exact (pure_eq_ok.mp h).symm
  | cons x xs =>
    simp only [sortItems, bind_eq_ok, pure_eq_ok] at h
    obtain ⟨y, hy, ys, hys, rfl⟩ := h
    rw [sortedItems, eq_sorted x hy, eq_sortedItems xs hys]
theorem eq_sortedMembers (ms : List (Label × Json)) {ns : List (Label × Json)}
    (h : sortMembers ms = .ok ns) : ns = sortedMembers ms := by
  cases ms with
  | nil => exact (pure_eq_ok.mp h).symm
  | cons m ms =>
    simp only [sortMembers, bind_eq_ok, pure_eq_ok] at h
    obtain ⟨y, hy, ys, hys, rfl⟩ := h
    rw [sortedMembers, eq_sorted m.2 hy, eq_sortedMembers ms hys]
end

theorem sortedItems_eq (xs : List Json) : sortedItems xs = xs.map sorted := by
  induction xs with
  | nil => rfl
  | cons x xs ih => rw [sortedItems, ih, List.map_cons]

theorem sortedMembers_eq (ms : List (Label × Json)) :
    sortedMembers ms = ms.map fun m => (m.1, m.2.sorted) := by
  induction ms with
  | nil => rfl
  | cons m ms ih => rw [sortedMembers, ih, List.map_cons]

theorem findMember?_ordered (k : String) (ms : List (Label × Json)) :
    findMember? k (ordered ms) = findMember? k ms := by
  rw [ordered]
  split
  · next hsort => exact findMember?_sortBy hsort
  · rfl

theorem rewrites_sorted : Rewrites sorted where
  simple {j l} h := by
    cases j with
    | arr | obj => cases h
    | _ => rfl
  arr xs := by rw [sorted, sortedItems_eq]
  obj ms := by
    refine ⟨_, rfl, fun k => ?_⟩
    rw [findMember?_ordered, sortedMembers_eq]
    induction ms with
    | nil => rfl
    | cons m ms ih =>
      rw [List.map_cons, findMember?_cons, findMember?_cons, ih]
      split <;> rfl

theorem ordered_ordered (ms : List (Label × Json)) : ordered (ordered ms) = ordered ms := by
  cases hsort : Label.sortBy (fun a b : Label × Json => a.1.before b.1) ms with
  | ok ms' =>
    have hms : ordered ms = ms' := by rw [ordered, hsort]
    rw [hms, ordered, Label.sortBy_of_sortBy (fun _ _ => Label.before_asymm) hsort]
  | error _ =>
    have hms : ordered ms = ms := by rw [ordered, hsort]
    rw [hms, hms]

theorem mem_ordered {m : Label × Json} {ms : List (Label × Json)} (h : m ∈ ordered ms) :
    m ∈ ms := by
  rw [ordered] at h
  split at h
  · next hsort => exact (Label.mem_sortBy hsort).mp h
  · exact h

theorem sorted_sorted (j : Json) : j.sorted.sorted = j.sorted := by
  match j with
  | .null | .bool _ | .int _ | .float _ | .str _ => rfl
  | .arr xs =>
    rw [sorted, sorted, sortedItems_eq, sortedItems_eq, List.map_map]
    exact congrArg _ (List.map_congr_left fun x hx => sorted_sorted x)
  | .obj ms =>
    rw [sorted, sorted]
    -- the members are sorted already, and their values by induction
    have hvalues : sortedMembers (ordered (sortedMembers ms)) = ordered (sortedMembers ms) := by
      rw [sortedMembers_eq (ordered _)]
      conv_rhs => rw [← List.map_id (ordered _)]
      refine List.map_congr_left fun n hn => ?_
      obtain ⟨m, hm, rfl⟩ := List.mem_map.mp (sortedMembers_eq ms ▸ mem_ordered hn)
      exact Prod.ext rfl (sorted_sorted m.2)
    rw [hvalues, ordered_ordered]
termination_by sizeOf j
decreasing_by
  · have hlt := List.sizeOf_lt_of_mem hx
    simp
    omega
  · have hlt := List.sizeOf_lt_of_mem hm
    have hsnd : sizeOf m.2 < sizeOf m := by
      cases m
      simp
    simp
    omega

end Json

/-! ## §3 Sorted programs -/

/-- Rewritings one after the other. -/
theorem Program.map_map {f g : Json → Json} (hf : Json.Rewrites f) (hg : Json.Rewrites g)
    (p : Program) : (p.map f).map g = p.map (g ∘ f) := by
  have hattrs : ∀ attrs, Attrs.rewrite g (Attrs.rewrite f attrs) = Attrs.rewrite (g ∘ f) attrs := by
    intro attrs
    rw [Attrs.rewrite.eq_def (g ∘ f), Function.comp_apply, Attrs.obj_rewrite hf,
      Attrs.obj_rewrite hg]
  have hexpr : ∀ x : Expr, (x.map f).map g = x.map (g ∘ f) := by
    intro x
    induction x <;> simp_all [Expr.map, Var.map]
  simp [Program.map, Sub.map, Blk.map, Def.map, Jmp.map, Arg.map, Var.map, DataSymbol.map, hattrs,
    hexpr, Function.comp_def]

namespace Program

/-- The program with the keys of all objects in its fields sorted. -/
def sorted (p : Program) : Program :=
  p.map Json.sorted

theorem sorted_sorted (p : Program) : p.sorted.sorted = p.sorted := by
  have hcomp : Json.sorted ∘ Json.sorted = Json.sorted := funext Json.sorted_sorted
  rw [sorted, sorted, map_map Json.rewrites_sorted Json.rewrites_sorted, hcomp]

theorem strip_sorted (p : Program) : p.sorted.strip = p.strip.sorted := by
  have hattrs : ∀ attrs, keepAddress (Attrs.rewrite Json.sorted attrs) =
      Attrs.rewrite Json.sorted (keepAddress attrs) := by
    intro attrs
    obtain ⟨ms, hms, hfind⟩ := Json.rewrites_sorted.obj attrs
    rw [Attrs.rewrite, hms, keepAddress, keepAddress, hfind]
    cases Json.findMember? addressKey attrs <;> rfl
  simp [sorted, strip, map, Sub.strip, Sub.map, Blk.strip, Blk.map, Def.map, Jmp.map, hattrs,
    Function.comp_def]

end Program

namespace Encode

open Json (sorted_sorted)

theorem sorted_expr (x : Expr) : (expr (x.map Json.sorted)).sorted = (expr x).sorted := by
  induction x <;>
    simp_all [expr, Expr.map, Var.map, varFields, Json.sorted, Json.sortedMembers, sorted_sorted]

theorem sorted_program (p : Program) : (program p.sorted).sorted = (program p).sorted := by
  have hobj : ∀ ms, (Json.obj ms).sorted =
      .obj (Json.ordered (ms.map fun m => (m.1, m.2.sorted))) := by
    intro ms
    rw [Json.sorted, Json.sortedMembers_eq]
  have hattrs : ∀ attrs : Attrs,
      Json.ordered ((Attrs.rewrite Json.sorted attrs).map fun m => (m.1, m.2.sorted)) =
        Json.ordered (attrs.map fun m => (m.1, m.2.sorted)) := by
    intro attrs
    have h := sorted_sorted (.obj attrs)
    rw [Attrs.obj_rewrite Json.rewrites_sorted, hobj, ← Attrs.obj_rewrite Json.rewrites_sorted,
      hobj] at h
    exact Json.obj.inj h
  simp [program, subroutine, block, definition, jump, argument, var, varFields, symbol, hobj,
    Json.rewrites_sorted.arr, Program.sorted, Program.map, Sub.map, Blk.map, Def.map, Jmp.map,
    Arg.map, Var.map, DataSymbol.map, sorted_expr, sorted_sorted, hattrs, Function.comp_def]

end Encode

end Antecedent
