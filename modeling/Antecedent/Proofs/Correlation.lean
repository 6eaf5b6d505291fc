import Antecedent.Proofs.Typing

/-!
# Correlated addresses

Data symbols with texts for names and natural numbers for addresses and sizes are regions of memory.
An address inside a region goes to the same offset inside the last region of the same name in the
other program, as far as both regions reach.

* `Region.carry?` says where one region takes an address.
* `AddressMap.term_regions`: the term of a mapped address has the value that the regions give.
-/

namespace Antecedent

/-- A data symbol whose name is a text and whose address and size are natural numbers. -/
structure Region where
  name : String
  start : Nat
  size : Nat
deriving DecidableEq, Repr

namespace Region

def symbol (r : Region) : DataSymbol where
  name := .str r.name
  addr := .int r.start
  size := .int r.size

/-- The region of another program that a region corresponds to: the last one of its name. -/
def namesake? (others : List Region) (r : Region) : Option Region :=
  others.reverse.find? (·.name = r.name)

/-- Where a region takes an address, if it has moved and its common part with its counterpart holds
the address. -/
def carry? (w : Nat) (others : List Region) (x : Nat) (r : Region) : Option Nat := do
  let other ← r.namesake? others
  if other.start ≠ r.start ∧ r.start ≤ x ∧ x < r.start + min r.size other.size then
    some ((x - r.start + other.start) % 2 ^ w)
  else none

/-- A region and its counterpart, if it has moved. -/
def moved? (others : List Region) (r : Region) : Option Moved := do
  let other ← r.namesake? others
  if other.start = r.start then none else some ⟨r.symbol, other.symbol⟩

variable {r other : Region}

theorem alike_addr : other.symbol.addr.alike r.symbol.addr = decide (other.start = r.start) := by
  simp [symbol, Json.alike, Json.label?, Label.same, Label.ratio?, Bool.beq_eq_decide_eq]

theorem common_symbol : (Moved.mk r.symbol other.symbol).common =
    .ok (.int (min r.size other.size : Nat)) := by
  have hbefore : other.symbol.size.before r.symbol.size = .ok (decide (other.size < r.size)) := by
    simp [symbol, Json.before, Json.label, Json.label?, Label.before, Label.ratio?]
  rw [Moved.common, hbefore]
  by_cases h : other.size < r.size
  · simp only [h, decide_true, Nat.min_eq_right h.le]
    rfl
  · simp only [h, decide_false, Nat.min_eq_left (Nat.le_of_not_lt h)]
    rfl

theorem bounds_symbol : (Moved.mk r.symbol other.symbol).bounds =
    .ok (r.start, (r.start + min r.size other.size : Nat), other.start) := by
  rw [Moved.bounds, common_symbol]
  change Except.ok (DataSymbol.whole (r.start, 1), DataSymbol.whole (DataSymbol.sum (r.start, 1)
    ((min r.size other.size : Nat), 1)), DataSymbol.whole (other.start, 1)) = _
  simp [DataSymbol.sum, DataSymbol.whole]

end Region

/-- The regions that have moved, in their order. -/
theorem movedSymbols_regions (orig modif : List Region) :
    movedSymbols (orig.map Region.symbol) (modif.map Region.symbol) =
      .ok (orig.filterMap (Region.moved? modif)) := by
  have hlabel : ∀ r : Region, r.symbol.name.label = .ok (.text r.name) := fun _ => rfl
  have hnamed : ∀ rs : List Region, (rs.map Region.symbol).mapM (fun s => do
      return (← s.name.label, s)) = (.ok (rs.map fun r => (.text r.name, r.symbol)) :
        Except Fault (List (Label × DataSymbol))) := by
    intro rs
    induction rs with
    | nil => rfl
    | cons r rs ih =>
      rw [List.map_cons, List.mapM_cons, ih, hlabel]
      rfl
  have hfind : ∀ r : Region, (modif.map fun r => (Label.text r.name, r.symbol)).reverse.find?
      (·.1.same (.text r.name)) =
        (r.namesake? modif).map fun r => (Label.text r.name, r.symbol) := by
    intro r
    rw [← List.map_reverse, List.find?_map, Region.namesake?]
    congr 2
  -- the labels of all symbols are read before the first pair is made
  rw [movedSymbols, hnamed]
  change List.filterMapM _ _ = _
  induction orig with
  | nil => rfl
  | cons r rs ih =>
    rw [List.map_cons, List.filterMapM_cons, hlabel, ih]
    simp only [bind, Except.bind, hfind]
    rw [List.filterMap_cons, Region.moved?]
    cases h : r.namesake? modif with
    | none => rfl
    | some other =>
      simp only [Option.map_some, Region.alike_addr]
      by_cases hmoved : other.start = r.start <;> simp [hmoved] <;> rfl

namespace AddressMap

variable {w : Nat} {modif : List Region}

/-- The first region that takes an address decides. -/
theorem carry_regions {orig : List Region} {x : Nat}
    (h : ∀ r ∈ orig, r.start + r.size < 2 ^ w) :
    carry (orig.filterMap (Region.moved? modif)) (.bits w x) =
      .bits w ((orig.findSome? (Region.carry? w modif x)).getD x) := by
  induction orig with
  | nil => rfl
  | cons r rs ih =>
    obtain ⟨hr, hrs⟩ := List.forall_mem_cons.mp h
    rw [List.filterMap_cons, List.findSome?_cons, Region.moved?, Region.carry?]
    cases hname : r.namesake? modif with
    | none => exact ih hrs
    | some other =>
      by_cases hmoved : other.start = r.start
      · simpa [hmoved] using ih hrs
      -- both ends of the common part are words as they stand
      have hsize : min r.size other.size ≤ r.size := Nat.min_le_left ..
      have hword : ∀ n : Nat, ((n : Int) % (2 ^ w : Nat)).toNat = n % 2 ^ w := by
        intro n
        rw [← Int.natCast_emod, Int.toNat_natCast]
      have hlow : r.start % 2 ^ w = r.start := Nat.mod_eq_of_lt (by omega)
      have hhigh : (r.start + min r.size other.size) % 2 ^ w = r.start + min r.size other.size :=
        Nat.mod_eq_of_lt (by omega)
      simp only [Option.bind_eq_bind, Option.bind_some, hmoved, if_false, ne_eq, not_false_eq_true,
        true_and]
      rw [carry, Region.bounds_symbol]
      simp only [Value.width, Value.toNat, hword, hlow, hhigh]
      by_cases hin : r.start ≤ x ∧ x < r.start + min r.size other.size
      · simp only [hin, and_self, if_true, Option.getD_some, Nat.add_mod_mod]
      · simp only [hin, if_false, ih hrs]

/-- An address of a sort is mapped to one of the same sort, if all symbols have bounds. -/
theorem sorts_term {map : AddressMap} {addr : Term} (hs : addr.sort = .bits w)
    (h : ∀ m ∈ map, ∃ b, m.bounds = .ok b) : Term.Sorts (map.term addr) (.bits w) := by
  induction map with
  | nil => exact Term.sorts_pure hs
  | cons m ms ih =>
    obtain ⟨⟨b, hb⟩, hms⟩ := List.forall_mem_cons.mp h
    simp only [Moved.bounds, bind_eq_ok] at hb
    obtain ⟨size, hsize, start, hstart, len, hlen, target, htarget, -⟩ := hb
    refine (ih hms).bind fun rest hrest => Term.sorts_width_bind hs ?_
    rw [hsize, hstart]
    simp only [bind, Except.bind, hlen, htarget]
    have hnum : ∀ n, (Term.numeral w n).sort = .bits w := fun _ => rfl
    refine (Term.sorts_order hs (hnum _) .uge).bind fun ge hge =>
      (Term.sorts_order hs (hnum _) .ult).bind fun lt hlt =>
      (Term.sorts_mk (show _ = some Srt.bool by simp [Op.sort?, hge, hlt])).bind fun inside hin =>
      (Term.sorts_arith hs (hnum _) .sub).bind fun off hoff =>
      (Term.sorts_arith hoff (hnum _) .add).bind fun moved hmoved => ?_
    exact Term.sorts_ite hin hmoved hrest

/-- **Correlated addresses.**  For all lists of regions, those of the first list with their ends
below the power of two of the width, the mapped address has a term.  It is the address at the same
offset inside the counterpart of the first region that has moved and whose common part with its
counterpart holds the address; if there is none, it is the address itself. -/
theorem term_regions {P : Symbol → Srt → Prop} {addr : Term} (orig modif : List Region)
    (ha : addr.Proper P) (hs : addr.sort = .bits w) (h : ∀ r ∈ orig, r.start + r.size < 2 ^ w) :
    ∃ map t, movedSymbols (orig.map Region.symbol) (modif.map Region.symbol) = .ok map ∧
      term map addr = .ok t ∧ t.sort = .bits w ∧
      ∀ s x, addr.eval s = .bits w x →
        t.eval s = .bits w ((orig.findSome? (Region.carry? w modif x)).getD x) := by
  have hbounds : ∀ m ∈ orig.filterMap (Region.moved? modif), ∃ b, m.bounds = .ok b := by
    intro m hm
    obtain ⟨r, -, hr⟩ := List.mem_filterMap.mp hm
    obtain ⟨other, -, hother⟩ := Option.bind_eq_some_iff.mp hr
    split at hother
    · cases hother
    · cases hother
      exact ⟨_, Region.bounds_symbol⟩
  obtain ⟨t, ht, hsort⟩ := sorts_term hs hbounds
  refine ⟨_, t, movedSymbols_regions orig modif, ht, hsort, fun s x hx => ?_⟩
  rw [(term_ok ha hs ht).eval, hx, carry_regions h]

/-- Bytes as addresses: `g` stands twice in both lists, its regions overlap, only a part of `k` is
left, and `h` has not moved. -/
theorem term_regions_overlapping :
    ∃ map t, movedSymbols
        ([⟨"h", 0, 255⟩, ⟨"g", 16, 8⟩, ⟨"g", 20, 16⟩, ⟨"k", 30, 99⟩].map Region.symbol)
        ([⟨"g", 7, 99⟩, ⟨"k", 1, 4⟩, ⟨"h", 0, 9⟩, ⟨"g", 254, 12⟩].map Region.symbol) = .ok map ∧
      term map (.const (.text "a") (.bits 8)) = .ok t ∧
      ∀ s, ∀ x ∈ [(17, 255), (23, 5), (24, 2), (32, 3), (40, 40)],
        (Term.const (.text "a") (.bits 8)).eval s = .bits 8 x.1 → t.eval s = .bits 8 x.2 := by
  obtain ⟨map, t, hmap, ht, -, hval⟩ := term_regions (w := 8) (P := fun _ _ => True)
    [⟨"h", 0, 255⟩, ⟨"g", 16, 8⟩, ⟨"g", 20, 16⟩, ⟨"k", 30, 99⟩]
    [⟨"g", 7, 99⟩, ⟨"k", 1, 4⟩, ⟨"h", 0, 9⟩, ⟨"g", 254, 12⟩]
    ⟨.const _ _, .const trivial⟩ rfl (by decide)
  refine ⟨map, t, hmap, ht, fun s x hx heq => ?_⟩
  rw [hval s _ heq]
  simp only [List.mem_cons, List.not_mem_nil, or_false] at hx
  rcases hx with rfl | rfl | rfl | rfl | rfl <;> exact congrArg _ (by decide)

end AddressMap

end Antecedent
