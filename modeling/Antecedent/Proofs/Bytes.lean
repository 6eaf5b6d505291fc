import Antecedent.Proofs.Typing
import Mathlib.Data.Nat.Digits.Lemmas

/-!
# Words in memory

What a store writes a load reads back, in either order of the bytes and wherever the access wraps
around the end of the memory.

* `Memory.get_foldl_set` is the frame of a row of writes to different addresses.
* `storeBytes_loadBytes` is the result.
-/

namespace Antecedent

/-! ## §1 Bytes of numbers -/

namespace Value

/-- The bytes of a number, the lowest one first. -/
def lowBytes (count x : Nat) : List Nat :=
  (List.range count).map fun i => x / 256 ^ i % 256

/-- The number with the bytes of another one in the opposite order. -/
def reverseBytes (count x : Nat) : Nat :=
  Nat.ofDigits 256 (lowBytes count x).reverse

@[simp] theorem length_lowBytes (count x : Nat) : (lowBytes count x).length = count := by
  simp [lowBytes]

/-- The bytes make up the number, as far as they go. -/
theorem ofDigits_lowBytes (count x : Nat) :
    Nat.ofDigits 256 (lowBytes count x) = x % 256 ^ count := by
  induction count with
  | zero => simp [lowBytes, Nat.mod_one]
  | succ n ih =>
    unfold lowBytes at ih ⊢
    rw [List.range_succ, List.map_append, Nat.ofDigits_append, ih, List.length_map,
      List.length_range, List.map_singleton, Nat.ofDigits_singleton, Nat.mod_pow_succ]

def inOrder (endian : Endian) (bytes : List Nat) : List Nat :=
  if endian = .little then bytes else bytes.reverse

theorem inOrder_same (endian : Endian) (bytes : List Nat) :
    inOrder endian (inOrder endian bytes) = bytes := by
  cases endian <;> simp [inOrder]

theorem inOrder_other {endian endian' : Endian} (h : endian' ≠ endian) (bytes : List Nat) :
    inOrder endian' (inOrder endian bytes) = bytes.reverse := by
  cases endian <;> cases endian' <;> simp [inOrder] at h ⊢

theorem map_bytes (endian : Endian) (count x : Nat) :
    ((List.range count).map fun i =>
      x / 256 ^ (if endian = .little then i else count - 1 - i) % 256) =
      inOrder endian (lowBytes count x) := by
  cases endian with
  | little => rfl
  | big =>
    refine List.ext_getElem (by simp [inOrder]) fun i hi _ => ?_
    simp [inOrder, lowBytes, List.getElem_reverse]

end Value

/-! ## §2 Rows of writes -/

/-- **Writes to different addresses**: each of them is read back, and nothing else changes. -/
theorem Memory.get_foldl_set (m : Memory) (place byte : Nat → Nat) (count : Nat)
    (hplace : ∀ i < count, ∀ j < count, place i = place j → i = j) :
    (∀ j < count, ((List.range count).foldl (fun m i => m.set (place i) (byte i)) m).get (place j) =
        byte j % 256) ∧
      ∀ a, (∀ i < count, a ≠ place i) →
        ((List.range count).foldl (fun m i => m.set (place i) (byte i)) m).get a = m.get a := by
  induction count with
  | zero => simp
  | succ n ih =>
    obtain ⟨hread, hframe⟩ := ih fun i hi j hj => hplace i (by omega) j (by omega)
    simp only [List.range_succ, List.foldl_append, List.foldl_cons, List.foldl_nil]
    refine ⟨fun j hj => ?_, fun a ha => ?_⟩
    · -- the last write is at an address of its own
      by_cases hjn : j = n
      · rw [hjn, Memory.get_set_self]
      · rw [Memory.get_set_ne _ _ fun h => hjn (hplace j hj n (by omega) h), hread j (by omega)]
    · rw [Memory.get_set_ne _ _ (ha n (by omega)), hframe a fun i hi => ha i (by omega)]

namespace Value

variable {endian : Endian} {a count x : Nat}

/-- Addresses up to the size of the memory do not meet. -/
theorem offset_inj (hcount : count ≤ 2 ^ a) {i j : Nat} (hi : i < count) (hj : j < count)
    (h : (Value.bits a x).offset i = (Value.bits a x).offset j) : i = j := by
  have hmod : i ≡ j [MOD 2 ^ a] := Nat.ModEq.add_left_cancel' x h
  exact hmod.eq_of_lt_of_lt (by omega) (by omega)

theorem byte_eq (hwidth : Term.IsWidth (8 * count : Nat)) {i : Nat} (hi : i < count) :
    (Value.bits (8 * count) x).byte endian count i =
      x / 256 ^ (if endian = .little then i else count - 1 - i) % 256 := by
  obtain ⟨-, hlt⟩ := hwidth
  have hpow : ∀ k : Nat, 2 ^ (8 * k) = 256 ^ k := fun k => by rw [pow_mul]; rfl
  have hbits : ∀ k < count, (Value.bits (8 * count) x).extract (Term.sizeWord (8 * k + 7 : Nat))
      (Term.sizeWord (8 * k : Nat)) = .bits 8 (x / 256 ^ k % 256) := by
    intro k hk
    have hhi := Term.sizeWord_of_nonneg (n := (8 * k + 7 : Nat)) (by omega) (by omega)
    have hlo := Term.sizeWord_of_nonneg (n := (8 * k : Nat)) (by omega) (by omega)
    rw [hhi, hlo, extract, Int.toNat_natCast, Int.toNat_natCast, Nat.add_sub_cancel_left, hpow]
    rfl
  unfold byte
  split
  · exact congrArg toNat (hbits i hi)
  · exact congrArg toNat (hbits _ (by omega))

theorem fit_bits {n w : Nat} (hn : Term.IsWidth n) (hw : Term.IsWidth w) (hx : x < 2 ^ n) :
    (Value.bits n x).fit w = .bits w (x % 2 ^ w) := by
  obtain ⟨hn0, hn1⟩ := hn
  obtain ⟨hw0, hw1⟩ := hw
  unfold fit
  rw [width]
  split
  · next heq =>
    obtain rfl : n = w := by exact_mod_cast heq
    rw [Nat.mod_eq_of_lt hx]
  · split
    · next hlt =>
      have hsize := Term.sizeWord_of_nonneg (n := (w : Int) - n) (by omega) (by omega)
      have hpow : x < 2 ^ w := hx.trans_le (Nat.pow_le_pow_right (by decide) (by omega))
      have hwidth : n + (w - n : Int).toNat = w := by omega
      rw [zeroExtend, hsize, width, hwidth, toNat, Nat.mod_eq_of_lt hpow]
    · have hsize := Term.sizeWord_of_nonneg (n := (w : Int) - 1) (by omega) (by omega)
      have hwidth : (w - 1 : Int).toNat - 0 + 1 = w := by omega
      rw [extract, hsize, hwidth, toNat, pow_zero, Nat.div_one]

/-! ## §3 Stores and loads -/

variable {m : Memory} {n k v : Nat}

theorem byteCount_int (k : Nat) : byteCount (.int k) = max (k / 8) 1 := by
  have h : ((k : Int) / 8).toNat = k / 8 := by omega
  show max ((k : Int) / 8).toNat 1 = _
  rw [h]

theorem isWidth_byteCount_int (hk : Term.IsWidth k) :
    Term.IsWidth (8 * byteCount (.int k) : Nat) := by
  rw [byteCount_int]
  obtain ⟨hpos, hlt⟩ := hk
  constructor <;> omega

/-- The memory after a store, byte by byte. -/
theorem store_eq (hn : Term.IsWidth n) (hk : Term.IsWidth k) (hv : v < 2 ^ n) :
    (Value.memory a m).store (.bits a x) (.bits n v) (.int k) endian =
      .memory a ((List.range (byteCount (.int k))).foldl
        (fun m i => m.set ((Value.bits a x).offset i)
          ((Value.bits (8 * byteCount (.int k)) (v % 256 ^ byteCount (.int k))).byte endian
            (byteCount (.int k)) i)) m) := by
  have hfit := fit_bits hn (isWidth_byteCount_int hk) hv
  rw [pow_mul] at hfit
  simp only [store, hfit]
  rfl

theorem get_store_ne (hn : Term.IsWidth n) (hk : Term.IsWidth k) (hv : v < 2 ^ n)
    (hcount : byteCount (.int k) ≤ 2 ^ a) {b : Nat}
    (hb : ∀ i < byteCount (.int k), b ≠ (Value.bits a x).offset i) :
    ((Value.memory a m).store (.bits a x) (.bits n v) (.int k) endian).toMemory.get b =
      m.get b := by
  rw [store_eq hn hk hv]
  exact (m.get_foldl_set _ _ _ fun i hi j hj => offset_inj hcount hi hj).2 b hb

theorem bytes_store (hn : Term.IsWidth n) (hk : Term.IsWidth k) (hv : v < 2 ^ n)
    (hcount : byteCount (.int k) ≤ 2 ^ a) :
    ((Value.memory a m).store (.bits a x) (.bits n v) (.int k) endian).bytes (.bits a x)
        (byteCount (.int k)) =
      inOrder endian (lowBytes (byteCount (.int k)) (v % 256 ^ byteCount (.int k))) := by
  have hget := (m.get_foldl_set _ (fun i => (Value.bits (8 * byteCount (.int k))
    (v % 256 ^ byteCount (.int k))).byte endian (byteCount (.int k)) i) _ fun i hi j hj =>
      offset_inj (x := x) hcount hi hj).1
  rw [store_eq hn hk hv, bytes, ← map_bytes]
  refine List.map_congr_left fun i hi => ?_
  have hi := List.mem_range.mp hi
  rw [toMemory, hget i hi, byte_eq (isWidth_byteCount_int hk) hi, Nat.mod_mod]

/-- What is loaded after a store: the bytes of the word, in the order of both accesses. -/
theorem load_store {endian' : Endian} (hn : Term.IsWidth n) (hk : Term.IsWidth k) (hv : v < 2 ^ n)
    (hcount : byteCount (.int k) ≤ 2 ^ a) :
    ((Value.memory a m).store (.bits a x) (.bits n v) (.int k) endian).load (.bits a x) (.int k)
      endian' = (Value.bits (8 * byteCount (.int k)) (Nat.ofDigits 256 (inOrder endian'
        (inOrder endian (lowBytes (byteCount (.int k)) (v % 256 ^ byteCount (.int k))))))).fit
        k := by
  rw [← bytes_store hn hk hv hcount]
  rfl

/-- **What is stored is loaded**, extended with zeros or cut to the size of the access. -/
theorem load_store_same (hn : Term.IsWidth n) (hk : Term.IsWidth k) (hv : v < 2 ^ n)
    (hsize : 8 ∣ k ∨ k < 8) (hcount : byteCount (.int k) ≤ 2 ^ a) :
    ((Value.memory a m).store (.bits a x) (.bits n v) (.int k) endian).load (.bits a x) (.int k)
      endian = .bits k (v % 2 ^ k) := by
  have hle : k ≤ 8 * byteCount (.int k) := by
    rw [byteCount_int]
    omega
  have hpow : (256 : Nat) ^ byteCount (.int k) = 2 ^ (8 * byteCount (.int k)) := by
    rw [pow_mul]
    rfl
  have hlt : v % 256 ^ byteCount (.int k) < 2 ^ (8 * byteCount (.int k)) := by
    rw [hpow]
    exact Nat.mod_lt _ (by positivity)
  rw [load_store hn hk hv hcount, inOrder_same, ofDigits_lowBytes, Nat.mod_mod,
    fit_bits (isWidth_byteCount_int hk) hk hlt, hpow, Nat.mod_mod_of_dvd _ (Nat.pow_dvd_pow 2 hle)]

/-- **A load in the other order gives the bytes reversed.** -/
theorem load_store_other {endian' : Endian} (hne : endian' ≠ endian) (hn : Term.IsWidth n)
    (hk : Term.IsWidth k) (hv : v < 2 ^ n) (hsize : 8 ∣ k)
    (hcount : byteCount (.int k) ≤ 2 ^ a) :
    ((Value.memory a m).store (.bits a x) (.bits n v) (.int k) endian).load (.bits a x) (.int k)
      endian' = .bits k (reverseBytes (k / 8) (v % 2 ^ k)) := by
  obtain ⟨c, rfl⟩ := hsize
  have hbytes : byteCount (.int (8 * c : Nat)) = c := by
    rw [byteCount_int]
    obtain ⟨hpos, -⟩ := hk
    omega
  have hpow : (2 : Nat) ^ (8 * c) = 256 ^ c := by
    rw [pow_mul]
    rfl
  rw [load_store hn hk hv hcount, inOrder_other hne, hbytes, fit, width, if_pos rfl,
    Nat.mul_div_cancel_left c (by decide), hpow, reverseBytes]

end Value

/-! ## §4 Terms -/

/-- **Storing and loading a word** of a size that is a number of bytes or less than a byte, in a
memory that is large enough for it: the store and the loads are never refused; the load gives the
word, extended with zeros or cut to the size; bytes at other addresses are unchanged; and a load in
the other order gives the bytes reversed. -/
theorem storeBytes_loadBytes {P : Symbol → Srt → Prop} {mem addr value : Term} {a n k : Nat}
    (endian : Endian) (hmem : mem.Proper P) (hms : mem.sort = .memory a) (haddr : addr.Proper P)
    (has : addr.sort = .bits a) (hvalue : value.Proper P) (hvs : value.sort = .bits n)
    (hn : Term.IsWidth n) (hk : Term.IsWidth k) (hsize : 8 ∣ k ∨ k < 8)
    (hcount : max (k / 8) 1 ≤ 2 ^ a) :
    ∃ m, Term.storeBytes mem addr value (.int k) endian = .ok m ∧
      (∃ t, Term.loadBytes m addr (.int k) endian = .ok t ∧ t.sort = .bits k ∧
        ∀ s, t.eval s = .ofBitVec (((value.eval s).toBits n).setWidth k)) ∧
      (∀ s b, (∀ i < max (k / 8) 1, b ≠ ((addr.eval s).toNat + i) % 2 ^ a) →
        (m.eval s).toMemory.get b = (mem.eval s).toMemory.get b) ∧
      (8 ∣ k → ∀ endian' ≠ endian, ∃ t, Term.loadBytes m addr (.int k) endian' = .ok t ∧
        t.sort = .bits k ∧ ∀ s, t.eval s =
          .bits k (Value.reverseBytes (k / 8) ((value.eval s).toNat % 2 ^ k))) := by
  rw [← Value.byteCount_int] at hcount ⊢
  obtain ⟨m, hm, hsort⟩ := Term.sorts_storeBytes endian hms has hvs hn hk
  obtain ⟨hproper, heval⟩ := Term.storeBytes_ok hmem haddr hvalue hm
  -- both loads are of the memory after the store
  have hload : ∀ order, ∃ t, Term.loadBytes m addr (.int k) order = .ok t ∧ t.sort = .bits k ∧
      ∀ s, t.eval s = ((mem.eval s).store (addr.eval s) (value.eval s) (.int k) endian).load
        (addr.eval s) (.int k) order := by
    intro order
    obtain ⟨t, ht, hts⟩ := Term.sorts_loadBytes order hsort has hk
    refine ⟨t, ht, hts, fun s => ?_⟩
    rw [(Term.loadBytes_ok hproper haddr ht).eval, heval]
  have hvalues : ∀ s, ∃ M x v, mem.eval s = .memory a M ∧ addr.eval s = .bits a x ∧
      value.eval s = .bits n v ∧ v < 2 ^ n := by
    intro s
    obtain ⟨M, hM⟩ := hmem.memory hms s
    obtain ⟨x, hx, -⟩ := haddr.bits has s
    obtain ⟨v, hv, hlt⟩ := hvalue.bits hvs s
    exact ⟨M, x, v, hM, hx, hv, hlt⟩
  refine ⟨m, hm, ?_, fun s b hb => ?_, fun hdvd endian' hne => ?_⟩
  · obtain ⟨t, ht, hts, hte⟩ := hload endian
    refine ⟨t, ht, hts, fun s => ?_⟩
    obtain ⟨M, x, v, hM, hx, hv, hlt⟩ := hvalues s
    rw [hte, hM, hx, hv, Value.load_store_same hn hk hlt hsize hcount, Value.ofBitVec,
      BitVec.toNat_setWidth, Value.toBits, BitVec.toNat_ofNat, Value.toNat, Nat.mod_eq_of_lt hlt]
  · obtain ⟨M, x, v, hM, hx, hv, hlt⟩ := hvalues s
    rw [hx] at hb
    rw [heval, hM, hx, hv, Value.get_store_ne hn hk hlt hcount hb, Value.toMemory]
  · obtain ⟨t, ht, hts, hte⟩ := hload endian'
    refine ⟨t, ht, hts, fun s => ?_⟩
    obtain ⟨M, x, v, hM, hx, hv, hlt⟩ := hvalues s
    rw [hte, hM, hx, hv, Value.load_store_other hne hn hk hlt hdvd hcount, Value.toNat]

/-- Two bytes at the last of four addresses: the second one wraps around. -/
theorem storeBytes_loadBytes_wrap :
    max (16 / 8) 1 ≤ 2 ^ 2 ∧
      ∃ m t, Term.storeBytes (.const (.text "m") (.memory 2)) (.num 2 3)
          (.const (.text "v") (.bits 12)) (.int (16 : Nat)) .big = .ok m ∧
        Term.loadBytes m (.num 2 3) (.int (16 : Nat)) .little = .ok t ∧
        ∀ s, t.eval s =
          .bits 16 (Value.reverseBytes 2 (s.word (.text "v") 12 % 2 ^ 12 % 2 ^ 16)) := by
  have hconst : ∀ name srt, (Term.const name srt).Proper fun _ _ => True :=
    fun name srt => ⟨.const name srt, .const True.intro⟩
  obtain ⟨m, hm, -, -, hother⟩ := storeBytes_loadBytes (k := 16) .big
    (hconst (.text "m") (.memory 2)) rfl (Term.proper_num (w := 2) (n := 3) (by decide)) rfl
    (hconst (.text "v") (.bits 12)) rfl ⟨by decide, by decide⟩ ⟨by decide, by decide⟩
    (.inl (by decide)) (by decide)
  obtain ⟨t, ht, -, hte⟩ := hother (by decide) .little (by decide)
  exact ⟨by decide, m, t, hm, ht, hte⟩

end Antecedent
