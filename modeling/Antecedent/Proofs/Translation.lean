import Antecedent.Proofs.Framing

/-!
# Terms of expressions

The term of an expression has the expression's value.

* `Term.Proper` is what the checked constructors guarantee of the terms they make.
* Every constructor of words and memories has a lemma that gives the value of what it makes.
* `Expr.ends_toTerm` puts them together.
-/

namespace Antecedent

variable {op : BinOp} {v : State → Bool} {t addr mem : Term} {f : Arith} {w i : Nat}
  {endian : Endian} {size tid : Json} {x : Expr} {accesses : List Access} {σ σ' : Session}

namespace Term

/-! ## §1 Proper terms -/

variable {P : Symbol → Srt → Prop} {u : Term}

theorem Proper.mono {Q : Symbol → Srt → Prop} (h : t.Proper P) (hPQ : ∀ n srt, P n srt → Q n srt) :
    t.Proper Q :=
  ⟨h.sorted, h.uses.mono hPQ⟩

theorem Proper.bits (h : t.Proper P) (hs : t.sort = .bits w) (s : State) :
    ∃ n, t.eval s = .bits w n ∧ n < 2 ^ w :=
  eval_bits h.sorted hs s

theorem Proper.memory {a : Nat} (h : t.Proper P) (hs : t.sort = .memory a) (s : State) :
    ∃ m, t.eval s = .memory a m :=
  eval_memory h.sorted hs s

theorem Proper.sort_eval (h : t.Proper P) (s : State) : (t.eval s).sort = t.sort := by
  have hfits := eval_fits h.sorted s
  cases ht : t.sort with
  | bool =>
    obtain ⟨b, hb⟩ := (ht ▸ hfits).bool_inv
    rw [hb, Value.sort]
  | bits w =>
    obtain ⟨n, hn, -⟩ := (ht ▸ hfits).bits_inv
    rw [hn, Value.sort]
  | memory a =>
    obtain ⟨m, hm⟩ := (ht ▸ hfits).memory_inv
    rw [hm, Value.sort]

theorem proper_num {n : Nat} (h : n < 2 ^ w) : (Term.num w n).Proper P :=
  ⟨.num h, .num w n⟩

theorem emod_two_pow_lt (w : Nat) (v : Int) : (v % (2 ^ w : Nat)).toNat < 2 ^ w := by
  have hpos : (0 : Int) < (2 ^ w : Nat) := by exact_mod_cast Nat.two_pow_pos w
  have h0 := Int.emod_nonneg v hpos.ne'
  have h1 := Int.emod_lt_of_pos v hpos
  omega

theorem numeral_eq (w : Nat) (v : Int) : numeral w v = .num w (v % (2 ^ w : Nat)).toNat :=
  rfl

theorem proper_numeral (w : Nat) (v : Int) : (numeral w v).Proper P :=
  proper_num (emod_two_pow_lt w v)

/-- A checked application is proper when its arguments are. -/
theorem mk_ok {op : Op} {args : List Term} (h : mk op args = .ok u) :
    u = .app op args ∧ op.sort? (args.map Term.sort) = some u.sort := by
  unfold mk at h
  split at h
  · next hsome =>
    cases h
    obtain ⟨srt, hsrt⟩ := Option.isSome_iff_exists.mp hsome
    exact ⟨rfl, by rw [sort_app hsrt, hsrt]⟩
  · cases h

theorem Proper.app {op : Op} {args : List Term} (h : Term.mk op args = .ok u)
    (hop : ∀ f ss w, op ≠ .apply f ss w) (hargs : ∀ t ∈ args, t.Proper P) : u.Proper P := by
  obtain ⟨rfl, hsort⟩ := mk_ok h
  exact ⟨.app (fun t ht => (hargs t ht).sorted) hsort, .app hop fun t ht => (hargs t ht).uses⟩

theorem width_ok : t.width = .ok w ↔ t.sort = .bits w := by
  unfold width width?
  cases t.sort <;> simp

theorem mkNumeral_ok {v : Int} {field : Json} (h : mkNumeral v field = .ok t) :
    t = numeral (sizeWord (field.int?.getD 0)) v := by
  obtain ⟨w, hw, rfl⟩ := map_eq_ok.mp h
  unfold fieldWidth at hw
  split at hw
  · next n hn =>
    unfold checkWidth at hw
    split at hw
    · cases hw
      rw [hn, Option.getD_some]
    · cases hw
  · cases hw

/-! ## §2 Words -/

section Words

variable (ht : t.Proper P)
include ht

theorem mkExtract_ok {hi lo : Int} (h : mkExtract hi lo t = .ok u) :
    u.Denotes P fun s => (t.eval s).extract (sizeWord hi) (sizeWord lo) := by
  unfold mkExtract at h
  split at h
  · refine ⟨.app h (by simp) (by simpa using ht), fun s => ?_⟩
    obtain ⟨rfl, hsort⟩ := mk_ok h
    cases hts : t.sort with
    | bool => simp [Op.sort?, hts] at hsort
    | memory a => simp [Op.sort?, hts] at hsort
    | bits w =>
      obtain ⟨n, hn, -⟩ := ht.bits hts s
      rw [eval_app, List.map_singleton, hn]
      rfl
  · cases h

theorem mkExtend_zeroExtend_ok {k : Int} (h : mkExtend .zeroExtend k t = .ok u) :
    u.Denotes P fun s => (t.eval s).zeroExtend (sizeWord k) := by
  simp only [mkExtend, bind_eq_ok, width_ok] at h
  obtain ⟨w, hts, _, -, h⟩ := h
  refine ⟨.app h (by simp) (by simpa using ht), fun s => ?_⟩
  obtain ⟨rfl, -⟩ := mk_ok h
  obtain ⟨n, hn, -⟩ := ht.bits hts s
  rw [eval_app, List.map_singleton, hn]
  rfl

theorem mkExtend_signExtend_ok {k : Int} (h : mkExtend .signExtend k t = .ok u) :
    u.Denotes P fun s => (t.eval s).signExtend (sizeWord k) := by
  simp only [mkExtend, bind_eq_ok, width_ok] at h
  obtain ⟨w, hts, _, -, h⟩ := h
  refine ⟨.app h (by simp) (by simpa using ht), fun s => ?_⟩
  obtain ⟨rfl, -⟩ := mk_ok h
  obtain ⟨n, hn, -⟩ := ht.bits hts s
  rw [eval_app, List.map_singleton, hn]
  rfl

theorem fit_ok {width : Int} (h : t.fit width = .ok u) :
    u.Denotes P fun s => (t.eval s).fit width := by
  simp only [fit, bind_eq_ok, width_ok] at h
  obtain ⟨w, hts, h⟩ := h
  have hw : ∀ s, (t.eval s).width = w := by
    intro s
    obtain ⟨n, hn, -⟩ := ht.bits hts s
    rw [hn, Value.width]
  -- a term of the width is left alone, a narrower one is extended, a wider one is cut
  split at h
  · next heq =>
    obtain rfl := pure_eq_ok.mp h
    refine ⟨ht, fun s => ?_⟩
    rw [Value.fit, hw, if_pos heq]
  · next hne =>
    split at h
    · next hlt =>
      obtain ⟨hp, he⟩ := mkExtend_zeroExtend_ok ht h
      refine ⟨hp, fun s => ?_⟩
      rw [he, Value.fit, hw, if_neg hne, if_pos hlt]
    · next hge =>
      obtain ⟨hp, he⟩ := mkExtract_ok ht h
      refine ⟨hp, fun s => ?_⟩
      rw [he, Value.fit, hw, if_neg hne, if_neg hge]
      rfl

end Words

/-! ## §3 Comparisons and operators -/

private theorem bits_same_comm (w n : Nat) (v : Value) :
    (Value.bits w n).same v = v.same (.bits w n) := by
  cases v with
  | bool b => rfl
  | bits x m => simp only [Value.same, Bool.beq_comm]
  | memory a m => rfl

/-- Operands are swapped only if the second one is a numeral. -/
private theorem numeralFirst_ok {s : Term} (h : numeralFirst s t = true) : ∃ w n, t = .num w n := by
  cases t with
  | num w n => exact ⟨w, n, rfl⟩
  | lit b => simp [numeralFirst, isNumeral] at h
  | const name srt => simp [numeralFirst, isNumeral] at h
  | app op args => simp [numeralFirst, isNumeral] at h

section Operators

variable {l r : Term} (hl : l.Proper P) (hr : r.Proper P)
include hl hr

theorem mkEq_ok (h : mkEq l r = .ok u) :
    u.Denotes P fun s => .bool ((l.eval s).same (r.eval s)) := by
  unfold mkEq at h
  split at h
  · next hswap =>
    refine ⟨.app h (by simp) (by simp [hl, hr]), fun s => ?_⟩
    obtain ⟨w, n, rfl⟩ := numeralFirst_ok hswap
    obtain ⟨rfl, -⟩ := mk_ok h
    simp [Op.eval, bits_same_comm]
  · refine ⟨.app h (by simp) (by simp [hl, hr]), fun s => ?_⟩
    obtain ⟨rfl, -⟩ := mk_ok h
    simp [Op.eval]

theorem mkDistinct_ok (h : mkDistinct l r = .ok u) :
    u.Denotes P fun s => .bool (!(l.eval s).same (r.eval s)) := by
  unfold mkDistinct at h
  split at h
  · next hswap =>
    refine ⟨.app h (by simp) (by simp [hl, hr]), fun s => ?_⟩
    obtain ⟨w, n, rfl⟩ := numeralFirst_ok hswap
    obtain ⟨rfl, -⟩ := mk_ok h
    simp [Op.eval, allDistinct, bits_same_comm]
  · refine ⟨.app h (by simp) (by simp [hl, hr]), fun s => ?_⟩
    obtain ⟨rfl, -⟩ := mk_ok h
    simp [Op.eval, allDistinct]

theorem mk_order_ok {o : Order} (hls : l.sort = .bits w) (h : mk (.order o) [l, r] = .ok u) :
    u.Denotes P fun s => .bool (o.eval ((l.eval s).toBits w) ((r.eval s).toBits w)) := by
  refine ⟨.app h (by simp) (by simp [hl, hr]), fun s => ?_⟩
  obtain ⟨rfl, hsort⟩ := mk_ok h
  obtain ⟨m, hm, -⟩ := hl.bits hls s
  cases hrs : r.sort with
  | bool => simp [Op.sort?, hls, hrs] at hsort
  | memory a => simp [Op.sort?, hls, hrs] at hsort
  | bits v =>
    obtain ⟨n, hn, -⟩ := hr.bits hrs s
    simp [Op.eval, hm, hn, Value.toBits, Value.toNat]

theorem mkSlt_ok (hls : l.sort = .bits w) (hrs : r.sort = .bits w) (h : mkSlt l r = .ok u) :
    u.Denotes P fun s => .bool (((l.eval s).toBits w).slt ((r.eval s).toBits w)) := by
  unfold mkSlt at h
  split at h
  · exact mk_order_ok hr hl hrs h
  · exact mk_order_ok hl hr hls h

theorem mkSle_ok (hls : l.sort = .bits w) (hrs : r.sort = .bits w) (h : mkSle l r = .ok u) :
    u.Denotes P fun s => .bool (((l.eval s).toBits w).sle ((r.eval s).toBits w)) := by
  unfold mkSle at h
  split at h
  · exact mk_order_ok hr hl hrs h
  · exact mk_order_ok hl hr hls h

omit hl hr in
/-- The second operand of an operator on words has the width of the first. -/
private theorem sort_arith (hls : l.sort = .bits w) (h : mk (.arith f) [l, r] = .ok u) :
    r.sort = .bits w := by
  obtain ⟨-, hsort⟩ := mk_ok h
  simp only [Op.sort?, List.map_cons, List.map_nil, hls] at hsort
  split at hsort
  · next hall => simpa using hall
  · cases hsort

theorem mk_arith_ok (hls : l.sort = .bits w) (h : mk (.arith f) [l, r] = .ok u) :
    u.Denotes P fun s => .ofBitVec (f.eval ((l.eval s).toBits w) ((r.eval s).toBits w)) := by
  refine ⟨.app h (by simp) (by simp [hl, hr]), fun s => ?_⟩
  obtain ⟨m, hm, -⟩ := hl.bits hls s
  obtain ⟨n, hn, -⟩ := hr.bits (sort_arith hls h) s
  obtain ⟨rfl, -⟩ := mk_ok h
  simp [Op.eval, hm, hn, Arith.evalAll, Value.toBits, Value.toNat]

end Operators

theorem Denotes.sort_bool {b : Term} (h : b.Denotes P fun s => .bool (v s)) : b.sort = .bool := by
  have hfits := eval_fits h.proper.sorted State.zero
  rw [h.eval] at hfits
  cases hb : b.sort with
  | bool => rfl
  | bits w => simp [hb, Value.Fits] at hfits
  | memory a => simp [hb, Value.Fits] at hfits

theorem Denotes.sort_bits {v : State → BitVec w} (h : t.Denotes P fun s => .ofBitVec (v s)) :
    t.sort = .bits w := by
  have hfits := eval_fits h.proper.sorted State.zero
  rw [h.eval] at hfits
  cases ht : t.sort with
  | bool => simp [ht, Value.Fits, Value.ofBitVec] at hfits
  | bits x =>
    rw [ht] at hfits
    rw [hfits.1]
  | memory a => simp [ht, Value.Fits, Value.ofBitVec] at hfits

theorem Denotes.bit {b : Term} (h : b.Denotes P fun s => .bool (v s)) :
    (boolToBit b).Denotes P fun s => .bit (v s) := by
  have hok : Term.mk .ite [b, .num 1 1, .num 1 0] = .ok (boolToBit b) := by
    simp [Term.mk, Op.sort?, h.sort_bool, Term.sort, boolToBit]
  have hbits : ∀ n, n < 2 → (Term.num 1 n).Proper P := fun n hn => proper_num (by omega)
  refine ⟨.app hok (by simp) (by simp [h.proper, hbits]), fun s => ?_⟩
  simp only [boolToBit, eval_app, List.map_cons, List.map_nil, h.eval, eval_num, Op.eval,
    Value.isTrue, Value.bit]
  cases v s <;> rfl

/-- The truth value of a word: whether it is not zero. -/
theorem bitToBool_ok (ht : t.Proper P) (h : t.bitToBool = .ok u) :
    u.Denotes P fun s => .bool ((t.eval s).toNat != 0) := by
  simp only [bitToBool, bind_eq_ok, width_ok] at h
  obtain ⟨w, hts, h⟩ := h
  -- a single bit is compared with one, wider words with zero
  split at h
  · next hw =>
    subst hw
    obtain ⟨hp, he⟩ := mkEq_ok ht (proper_num (by decide)) h
    refine ⟨hp, fun s => ?_⟩
    obtain ⟨n, hn, hlt⟩ := ht.bits hts s
    obtain rfl | rfl : n = 0 ∨ n = 1 := by omega
    · rw [he, hn]
      rfl
    · rw [he, hn]
      rfl
  · obtain ⟨hp, he⟩ := mkDistinct_ok ht (proper_num (Nat.two_pow_pos w)) h
    refine ⟨hp, fun s => ?_⟩
    obtain ⟨n, hn, -⟩ := ht.bits hts s
    rw [he, hn, eval_num]
    simp only [Value.same, beq_self_eq_true, Bool.true_and, Value.toNat]
    rfl

private theorem toBits_fit {v : Value} (h : (v.fit w).width = w) :
    (v.fit w).toBits w = v.toBits w := by
  unfold Value.fit at h ⊢
  split
  · rfl
  · next hne =>
    rw [if_neg hne] at h
    split
    · rfl
    · next hge =>
      rw [if_neg hge] at h
      have hw : sizeWord ((w : Int) - 1) + 1 = w := h
      simp only [Value.toBits, Value.extract, Value.toNat, Nat.sub_zero, hw, Nat.pow_zero,
        Nat.div_one]
      exact BitVec.eq_of_toNat_eq (by simp)

private theorem same_bits {m n : Nat} (hm : m < 2 ^ w) (hn : n < 2 ^ w) :
    (Value.bits w m).same (.bits w n) = (BitVec.ofNat w m == BitVec.ofNat w n) := by
  simp only [Value.same, beq_self_eq_true, Bool.true_and]
  rw [Bool.eq_iff_iff, beq_iff_eq, beq_iff_eq]
  constructor
  · rintro rfl
    rfl
  · intro h
    have := congrArg BitVec.toNat h
    rwa [BitVec.toNat_ofNat, BitVec.toNat_ofNat, Nat.mod_eq_of_lt hm, Nat.mod_eq_of_lt hn] at this

private theorem sshiftRight_min (x : BitVec w) (n : Nat) :
    x.sshiftRight (min n w) = x.sshiftRight n := by
  ext i hi
  simp only [BitVec.getElem_sshiftRight]
  by_cases h : n ≤ w
  · rw [min_eq_left h]
  · have hmin : min n w = w := by omega
    have h1 : ¬ w + i < w := by omega
    have h2 : ¬ n + i < w := by omega
    simp [hmin, h1, h2]

private theorem binary_shift (h : shiftOp? op = some f) (l r : Term) :
    binary op l r = mk (.arith f) [l, r] := by
  cases op <;> simp [shiftOp?] at h <;> subst h <;> rfl

private theorem BinOp.value_congr {m : Nat} {u v : Value} (h : u.toBits w = v.toBits w) :
    op.value (.bits w m) u = op.value (.bits w m) v := by
  simp only [BinOp.value, Value.width, h]

section Operators

variable {l r : Term} (hl : l.Proper P) (hr : r.Proper P)
include hl hr

/-- Operations on words of one width mean what the operations of expressions do. -/
theorem binary_ok (hls : l.sort = .bits w) (hrs : r.sort = .bits w) (h : binary op l r = .ok u) :
    u.Denotes P fun s => op.value (l.eval s) (r.eval s) := by
  have hvalues : ∀ s, ∃ m n, l.eval s = .bits w m ∧ r.eval s = .bits w n ∧
      m < 2 ^ w ∧ n < 2 ^ w := by
    intro s
    obtain ⟨m, hm, hm'⟩ := hl.bits hls s
    obtain ⟨n, hn, hn'⟩ := hr.bits hrs s
    exact ⟨m, n, hm, hn, hm', hn'⟩
  cases op
  case plus | minus | times | divide | sdivide | mod | smod | and | or | xor =>
    obtain ⟨hp, he⟩ := mk_arith_ok hl hr hls h
    refine ⟨hp, fun s => ?_⟩
    obtain ⟨m, n, hm, hn, -, -⟩ := hvalues s
    rw [he, hm, hn]
    rfl
  -- a shift by the width or more leaves nothing but copies of the sign
  case lshift =>
    obtain ⟨hp, he⟩ := mk_arith_ok hl hr hls h
    refine ⟨hp, fun s => ?_⟩
    obtain ⟨m, n, hm, hn, -, -⟩ := hvalues s
    rw [he, hm, hn]
    refine congrArg Value.ofBitVec ?_
    simp only [Arith.eval]
    split
    · next hle => exact (BitVec.shiftLeft_eq_zero hle).symm
    · rfl
  case rshift =>
    obtain ⟨hp, he⟩ := mk_arith_ok hl hr hls h
    refine ⟨hp, fun s => ?_⟩
    obtain ⟨m, n, hm, hn, -, -⟩ := hvalues s
    rw [he, hm, hn]
    refine congrArg Value.ofBitVec ?_
    simp only [Arith.eval]
    split
    · next hle => exact (BitVec.ushiftRight_eq_zero hle).symm
    · rfl
  case arshift =>
    obtain ⟨hp, he⟩ := mk_arith_ok hl hr hls h
    refine ⟨hp, fun s => ?_⟩
    obtain ⟨m, n, hm, hn, -, -⟩ := hvalues s
    rw [he, hm, hn]
    exact congrArg Value.ofBitVec (sshiftRight_min _ _)
  case eq =>
    simp only [binary, bind_eq_ok, pure_eq_ok] at h
    obtain ⟨b, hb, rfl⟩ := h
    obtain ⟨hp, he⟩ := (mkEq_ok hl hr hb).bit
    refine ⟨hp, fun s => ?_⟩
    obtain ⟨m, n, hm, hn, hm', hn'⟩ := hvalues s
    rw [he, hm, hn, same_bits hm' hn']
    rfl
  case neq =>
    simp only [binary, bind_eq_ok, pure_eq_ok] at h
    obtain ⟨b, hb, rfl⟩ := h
    obtain ⟨hp, he⟩ := (mkDistinct_ok hl hr hb).bit
    refine ⟨hp, fun s => ?_⟩
    obtain ⟨m, n, hm, hn, hm', hn'⟩ := hvalues s
    rw [he, hm, hn, same_bits hm' hn']
    rfl
  case lt | le =>
    simp only [binary, bind_eq_ok, pure_eq_ok] at h
    obtain ⟨b, hb, rfl⟩ := h
    obtain ⟨hp, he⟩ := (mk_order_ok hl hr hls hb).bit
    refine ⟨hp, fun s => ?_⟩
    obtain ⟨m, n, hm, hn, -, -⟩ := hvalues s
    rw [he, hm, hn]
    rfl
  case slt =>
    simp only [binary, bind_eq_ok, pure_eq_ok] at h
    obtain ⟨b, hb, rfl⟩ := h
    obtain ⟨hp, he⟩ := (mkSlt_ok hl hr hls hrs hb).bit
    refine ⟨hp, fun s => ?_⟩
    obtain ⟨m, n, hm, hn, -, -⟩ := hvalues s
    rw [he, hm, hn]
    rfl
  case sle =>
    simp only [binary, bind_eq_ok, pure_eq_ok] at h
    obtain ⟨b, hb, rfl⟩ := h
    obtain ⟨hp, he⟩ := (mkSle_ok hl hr hls hrs hb).bit
    refine ⟨hp, fun s => ?_⟩
    obtain ⟨m, n, hm, hn, -, -⟩ := hvalues s
    rw [he, hm, hn]
    rfl

/-- **Operators on two operands.** -/
theorem applyBinary_ok (h : applyBinary op l r = .ok u) :
    u.Denotes P fun s => op.value (l.eval s) (r.eval s) := by
  simp only [applyBinary, bind_eq_ok, width_ok] at h
  obtain ⟨v, hls, h⟩ := h
  split at h
  · next hshift =>
    -- the amount of a shift is made as wide as the word first
    obtain ⟨r', hfit, h⟩ := bind_eq_ok.mp h
    obtain ⟨hr', he'⟩ := fit_ok hr hfit
    obtain ⟨f, hf⟩ := Option.isSome_iff_exists.mp hshift
    have hrs' : r'.sort = .bits v := sort_arith hls (binary_shift hf l r' ▸ h)
    obtain ⟨hp, he⟩ := binary_ok hl hr' hls hrs' h
    refine ⟨hp, fun s => ?_⟩
    obtain ⟨m, hm, -⟩ := hl.bits hls s
    obtain ⟨n, hn, -⟩ := hr'.bits hrs' s
    have hfits : ((r.eval s).fit v).toBits v = (r.eval s).toBits v :=
      toBits_fit (by rw [← he', hn, Value.width])
    rw [he, he', hm]
    exact BinOp.value_congr hfits
  · next hshift =>
    obtain ⟨w, hrs, h⟩ := bind_eq_ok.mp h
    rw [width_ok] at hrs
    split at h
    · next heq => exact binary_ok hl hr hls (heq ▸ hrs) h
    · cases h

end Operators

theorem applyUnary_ok {op : UnOp} (ht : t.Proper P) (h : applyUnary op t = .ok u) :
    u.Denotes P fun s => op.value (t.eval s) := by
  unfold applyUnary at h
  split at h
  · cases h
  · next hw =>
    -- an operator on something other than a word is refused
    obtain ⟨w, hts⟩ : ∃ w, t.sort = .bits w := by
      cases hts : t.sort <;> simp [width?, hts] at hw ⊢
    cases op with
    | neg =>
      refine ⟨.app h (by simp) (by simpa using ht), fun s => ?_⟩
      obtain ⟨rfl, -⟩ := mk_ok h
      obtain ⟨n, hn, -⟩ := ht.bits hts s
      rw [eval_app, List.map_singleton, hn]
      rfl
    | not =>
      refine ⟨.app h (by simp) (by simpa using ht), fun s => ?_⟩
      obtain ⟨rfl, -⟩ := mk_ok h
      obtain ⟨n, hn, -⟩ := ht.bits hts s
      rw [eval_app, List.map_singleton, hn]
      rfl

/-- Casts, by the width they come from. -/
theorem castTo_ok {kind : CastKind} {width : Int} (ht : t.Proper P)
    (h : castTo kind width t = .ok u) : u.Denotes P fun s => kind.value width (t.eval s) := by
  simp only [castTo, bind_eq_ok, width_ok] at h
  obtain ⟨w, hts, h⟩ := h
  have hw : ∀ s, (t.eval s).width = w := by
    intro s
    obtain ⟨n, hn, -⟩ := ht.bits hts s
    rw [hn, Value.width]
  -- a cast that does not widen is an extraction, whatever its kind
  cases kind with
  | low =>
    obtain ⟨hp, he⟩ := mkExtract_ok ht h
    exact ⟨hp, fun s => (he s).trans rfl⟩
  | high =>
    obtain ⟨hp, he⟩ := mkExtract_ok ht h
    exact ⟨hp, fun s => by rw [he, CastKind.value, hw]⟩
  | unsigned =>
    simp only at h
    split at h
    · next hle =>
      obtain ⟨hp, he⟩ := mkExtract_ok ht h
      exact ⟨hp, fun s => by rw [he, CastKind.value, hw, if_pos hle]; rfl⟩
    · next hgt =>
      obtain ⟨hp, he⟩ := mkExtend_zeroExtend_ok ht h
      exact ⟨hp, fun s => by rw [he, CastKind.value, hw, if_neg hgt]⟩
  | signed =>
    simp only at h
    split at h
    · next hle =>
      obtain ⟨hp, he⟩ := mkExtract_ok ht h
      exact ⟨hp, fun s => by rw [he, CastKind.value, hw, if_pos hle]; rfl⟩
    · next hgt =>
      obtain ⟨hp, he⟩ := mkExtend_signExtend_ok ht h
      exact ⟨hp, fun s => by rw [he, CastKind.value, hw, if_neg hgt]⟩

theorem applyCast_ok {kind : CastKind} {width : Json} (ht : t.Proper P)
    (h : applyCast kind width t = .ok u) :
    u.Denotes P fun s => kind.value (width.int?.getD 0) (t.eval s) := by
  simp only [applyCast, bind_eq_ok] at h
  obtain ⟨_, -, h⟩ := h
  split at h
  · cases h
  · split at h
    · next w hw =>
      rw [hw, Option.getD_some]
      exact castTo_ok ht h
    · cases h

theorem mk_concat_ok {l r : Term} (hl : l.Proper P) (hr : r.Proper P)
    (h : mk .concat [l, r] = .ok u) : u.Denotes P fun s => (l.eval s).concat (r.eval s) := by
  refine ⟨.app h (by simp) (by simp [hl, hr]), fun s => ?_⟩
  obtain ⟨rfl, hsort⟩ := mk_ok h
  cases hls : l.sort with
  | bool => simp [Op.sort?, hls, concatWidth?] at hsort
  | memory a => simp [Op.sort?, hls, concatWidth?] at hsort
  | bits v =>
    cases hrs : r.sort with
    | bool => simp [Op.sort?, hls, hrs, concatWidth?] at hsort
    | memory a => simp [Op.sort?, hls, hrs, concatWidth?] at hsort
    | bits w =>
      obtain ⟨m, hm, -⟩ := hl.bits hls s
      obtain ⟨n, hn, -⟩ := hr.bits hrs s
      simp [Op.eval, hm, hn, concatValues, Value.concat, Value.width, Value.toNat]

theorem fieldBounds_ok {hi lo : Json} {i j : Int} (h : fieldBounds hi lo = .ok (i, j)) :
    hi.int? = some i ∧ lo.int? = some j := by
  unfold fieldBounds at h
  split at h
  · next hi' lo' =>
    cases h
    exact ⟨hi', lo'⟩
  · split at h
    · cases h
    · simp at h

/-! ## §4 Memory -/

theorem offsetAddr_ok (ha : addr.Proper P) (hs : addr.sort = .bits w)
    (h : offsetAddr addr i = .ok u) : u.Denotes P fun s => .bits w ((addr.eval s).offset i) := by
  unfold offsetAddr at h
  -- an offset of zero adds nothing to the term
  split at h
  · next hi =>
    obtain rfl := pure_eq_ok.mp h
    refine ⟨ha, fun s => ?_⟩
    obtain ⟨n, hn, hlt⟩ := ha.bits hs s
    simp [hn, hi, Value.offset, Value.toNat, Value.width, Nat.mod_eq_of_lt hlt]
  · simp only [bind_eq_ok, width_ok] at h
    obtain ⟨v, hv, h⟩ := h
    obtain rfl : w = v := by simpa [hs] using hv
    obtain ⟨hp, he⟩ := mk_arith_ok ha (proper_numeral w i) hs h
    refine ⟨hp, fun s => ?_⟩
    obtain ⟨n, hn, -⟩ := ha.bits hs s
    have hmod : ((i : Int) % (2 ^ w : Nat)).toNat = i % 2 ^ w := by
      rw [← Int.natCast_mod, Int.toNat_natCast]
    rw [he, hn, numeral_eq, eval_num]
    simp only [Arith.eval, Value.ofBitVec, Value.offset, Value.toBits, Value.toNat, Value.width,
      BitVec.toNat_add, BitVec.toNat_ofNat, hmod, Nat.mod_mod, ← Nat.add_mod]

private theorem offsetAddr_sort (h : offsetAddr addr i = .ok u) (hu : u.sort = .bits w) :
    ∃ v, addr.sort = .bits v := by
  unfold offsetAddr at h
  split at h
  · obtain rfl := pure_eq_ok.mp h
    exact ⟨w, hu⟩
  · simp only [bind_eq_ok, width_ok] at h
    obtain ⟨v, hv, -⟩ := h
    exact ⟨v, hv⟩

theorem mk_select_ok (hm : mem.Proper P) (ha : addr.Proper P)
    (h : (offsetAddr addr i >>= fun a => mk .select [mem, a]) = .ok u) :
    u.Denotes P fun s => .bits 8 ((mem.eval s).toMemory.get ((addr.eval s).offset i)) := by
  obtain ⟨a, hoff, h⟩ := bind_eq_ok.mp h
  obtain ⟨rfl, hsort⟩ := mk_ok h
  cases hms : mem.sort with
  | bool => simp [Op.sort?, hms] at hsort
  | bits w => simp [Op.sort?, hms] at hsort
  | memory k =>
    cases has : a.sort with
    | bool => simp [Op.sort?, hms, has] at hsort
    | memory j => simp [Op.sort?, hms, has] at hsort
    | bits w =>
      obtain ⟨v, hv⟩ := offsetAddr_sort hoff has
      obtain ⟨hap, hae⟩ := offsetAddr_ok ha hv hoff
      refine ⟨.app h (by simp) (by simp [hm, hap]), fun s => ?_⟩
      obtain ⟨m, hm'⟩ := hm.memory hms s
      simp [Op.eval, hm', hae, Value.toMemory]

theorem concatAll_ok {us : List Term} (ht : t.Proper P) (hus : ∀ v ∈ us, v.Proper P)
    (h : concatAll t us = .ok u) :
    u.Proper P ∧ ∀ s w n (bs : List Nat), t.eval s = .bits w n →
      us.map (Term.eval s) = bs.map (Value.bits 8) → u.eval s =
        .bits (w + 8 * bs.length) (n * 256 ^ bs.length + Nat.ofDigits 256 bs.reverse) := by
  -- the digits read so far move up by one byte with every byte that is put below them
  induction us generalizing t with
  | nil =>
    cases h
    refine ⟨ht, fun s w n bs hn hbs => ?_⟩
    obtain rfl : bs = [] := by simpa using hbs.symm
    simpa using hn
  | cons v us ih =>
    obtain ⟨c, hc, h⟩ := bind_eq_ok.mp h
    have hv := hus v (List.mem_cons_self ..)
    have hcp : c.Proper P := .app hc (by simp) (by simp [ht, hv])
    obtain ⟨hp, he⟩ := ih hcp (fun x hx => hus x (List.mem_cons_of_mem _ hx)) h
    refine ⟨hp, fun s w n bs hn hbs => ?_⟩
    cases bs with
    | nil => simp at hbs
    | cons b bs =>
      obtain ⟨hb, hbs⟩ : v.eval s = .bits 8 b ∧ us.map (Term.eval s) = bs.map (Value.bits 8) := by
        simpa using hbs
      obtain ⟨rfl, -⟩ := mk_ok hc
      have hce : (Term.app .concat [t, v]).eval s = .bits (w + 8) (n * 256 + b) := by
        simp [Op.eval, hn, hb, concatValues]
      rw [he s _ _ bs hce hbs, List.length_cons, List.reverse_cons, Nat.ofDigits_append,
        Nat.ofDigits_singleton, List.length_reverse]
      congr 1
      · ring
      · ring

private theorem denotes_all {is : List Nat} {ts : List Term} {v : Nat → State → Value}
    (h : List.Forall₂ (fun i t => t.Denotes P (v i)) is ts) :
    (∀ t ∈ ts, t.Proper P) ∧ ∀ s, ts.map (Term.eval s) = is.map fun i => v i s := by
  induction h with
  | nil => simp
  | cons ht _ ih =>
    refine ⟨List.forall_mem_cons.mpr ⟨ht.proper, ih.1⟩, fun s => ?_⟩
    rw [List.map_cons, List.map_cons, ht.eval, ih.2]

/-- The concatenation of bytes, the highest first. -/
private theorem concatBytes_ok {ts : List Term} (hts : ∀ t ∈ ts, t.Proper P)
    (h : (match ts with
      | [] => Except.error Fault.illSorted
      | b :: bs => concatAll b bs) = .ok u) :
    u.Proper P ∧ ∀ s (bytes : List Nat), ts.map (Term.eval s) = bytes.map (Value.bits 8) →
      u.eval s = .bits (8 * bytes.length) (Nat.ofDigits 256 bytes.reverse) := by
  cases ts with
  | nil => cases h
  | cons b bs =>
    obtain ⟨hb, hbs⟩ := List.forall_mem_cons.mp hts
    obtain ⟨hp, he⟩ := concatAll_ok hb hbs h
    refine ⟨hp, fun s bytes hbytes => ?_⟩
    cases bytes with
    | nil => simp at hbytes
    | cons n ns =>
      obtain ⟨hn, hns⟩ : b.eval s = .bits 8 n ∧ bs.map (Term.eval s) = ns.map (Value.bits 8) := by
        simpa using hbytes
      rw [he s 8 n ns hn hns, List.reverse_cons, Nat.ofDigits_append, Nat.ofDigits_singleton,
        List.length_reverse, List.length_cons]
      congr 1
      · ring
      · ring

/-- The bytes that stand at an address and after it, as one word. -/
theorem bytesAt_ok {count : Nat} (hm : mem.Proper P) (ha : addr.Proper P)
    (h : bytesAt mem addr count endian = .ok u) : u.Denotes P fun s =>
      let bytes := (mem.eval s).bytes (addr.eval s) count
      .bits (8 * count)
        (Nat.ofDigits 256 (if endian = .little then bytes else bytes.reverse)) := by
  simp only [bytesAt, bind_eq_ok] at h
  obtain ⟨ts, hts, h⟩ := h
  obtain ⟨hproper, hvalues⟩ :=
    denotes_all ((mapM_eq_ok.mp hts).imp fun i t ht => mk_select_ok hm ha ht)
  have hbytes : ∀ s, ts.map (Term.eval s)
      = ((mem.eval s).bytes (addr.eval s) count).map (Value.bits 8) := by
    intro s
    rw [hvalues, Value.bytes, List.map_map]
    rfl
  have hlength : ∀ m a, (Value.bytes m a count).length = count := by
    simp [Value.bytes]
  -- the highest byte comes first, so little-endian bytes are put together in reverse
  by_cases hle : endian = .little
  · simp only [hle, if_true] at h ⊢
    obtain ⟨hp, he⟩ := concatBytes_ok (fun t ht => hproper t (List.mem_reverse.mp ht)) h
    refine ⟨hp, fun s => ?_⟩
    have hrev : ts.reverse.map (Term.eval s)
        = ((mem.eval s).bytes (addr.eval s) count).reverse.map (Value.bits 8) := by
      rw [List.map_reverse, hbytes, List.map_reverse]
    rw [he s _ hrev, List.length_reverse, List.reverse_reverse, hlength]
  · simp only [hle, if_false] at h ⊢
    obtain ⟨hp, he⟩ := concatBytes_ok hproper h
    refine ⟨hp, fun s => ?_⟩
    rw [he s _ (hbytes s), hlength]

theorem loadBytes_sort (h : loadBytes mem addr size endian = .ok u) : ∃ w, addr.sort = .bits w := by
  simp only [loadBytes, bytesAt, bind_eq_ok] at h
  obtain ⟨count, -, _, ⟨ts, hts, h⟩, -⟩ := h
  cases count with
  | zero =>
    obtain rfl : [] = ts := by simpa using hts
    simp at h
  | succ n =>
    -- the first byte stands at the address itself
    rw [mapM_eq_ok, List.range_succ_eq_map, List.forall₂_cons_left_iff] at hts
    obtain ⟨t, -, ht, -, -⟩ := hts
    obtain ⟨a, ha, ht⟩ := bind_eq_ok.mp ht
    obtain rfl : addr = a := by simpa [offsetAddr] using ha
    obtain ⟨-, hsort⟩ := mk_ok ht
    cases has : addr.sort with
    | bits w => exact ⟨w, rfl⟩
    | bool => cases hms : mem.sort <;> simp [Op.sort?, hms, has] at hsort
    | memory j => cases hms : mem.sort <;> simp [Op.sort?, hms, has] at hsort

/-- **Loads**: the word of a size that stands at an address. -/
theorem loadBytes_ok (hm : mem.Proper P) (ha : addr.Proper P)
    (h : loadBytes mem addr size endian = .ok u) :
    u.Denotes P fun s => (mem.eval s).load (addr.eval s) size endian := by
  simp only [loadBytes, bind_eq_ok] at h
  obtain ⟨count, hcount, word, hword, h⟩ := h
  obtain ⟨hwp, hwe⟩ := bytesAt_ok hm ha hword
  split at h
  · next n hn =>
    obtain ⟨hp, he⟩ := fit_ok hwp h
    refine ⟨hp, fun s => ?_⟩
    have hc : Value.byteCount size = count := by rw [Value.byteCount, hcount]; rfl
    rw [he, hwe, Value.load, hc, hn, Option.getD_some]
  · cases h

theorem storeByte_ok {count : Nat} {value : Term} (ha : addr.Proper P) (hv : value.Proper P)
    (hm : mem.Proper P) (h : storeByte endian count addr value mem i = .ok u) :
    u.Proper P ∧ ∀ s, ∃ a m, mem.eval s = .memory a m ∧
      u.eval s =
        .memory a (m.set ((addr.eval s).offset i) ((value.eval s).byte endian count i)) := by
  simp only [storeByte, bind_eq_ok] at h
  obtain ⟨a, hoff, b, hbyte, h⟩ := h
  obtain ⟨hbp, hbe⟩ := mkExtract_ok hv hbyte
  obtain ⟨rfl, hsort⟩ := mk_ok h
  -- only a memory can be stored to, and only at a word
  cases hms : mem.sort with
  | bool => simp [Op.sort?, hms] at hsort
  | bits w => simp [Op.sort?, hms] at hsort
  | memory k =>
    cases has : a.sort with
    | bool => simp [Op.sort?, hms, has] at hsort
    | memory j => simp [Op.sort?, hms, has] at hsort
    | bits w =>
      obtain ⟨v, hv⟩ := offsetAddr_sort hoff has
      obtain ⟨hap, hae⟩ := offsetAddr_ok ha hv hoff
      refine ⟨.app h (by simp) (by simp [hm, hap, hbp]), fun s => ?_⟩
      obtain ⟨m, hm'⟩ := hm.memory hms s
      refine ⟨k, m, hm', ?_⟩
      simp only [eval_app, List.map_cons, List.map_nil, hm', hae, hbe]
      rfl

/-- **Stores**: the memory after a word of a size is written at an address. -/
theorem storeBytes_ok {value : Term} (hm : mem.Proper P) (ha : addr.Proper P) (hv : value.Proper P)
    (h : storeBytes mem addr value size endian = .ok u) :
    u.Denotes P fun s => (mem.eval s).store (addr.eval s) (value.eval s) size endian := by
  simp only [storeBytes, bind_eq_ok] at h
  obtain ⟨count, hcount, word, hword, h⟩ := h
  obtain ⟨hwp, hwe⟩ := fit_ok hv hword
  have hc : Value.byteCount size = count := by rw [Value.byteCount, hcount]; rfl
  -- the bytes are written one by one
  have hfold : ∀ (is : List Nat) {mem u : Term}, mem.Proper P →
      is.foldlM (fun m i => storeByte endian count addr word m i) mem = .ok u →
      u.Proper P ∧ ∀ s, (is = [] ∧ u.eval s = mem.eval s) ∨ ∃ a m, mem.eval s = .memory a m ∧
        u.eval s = .memory a (is.foldl (fun m i =>
          m.set ((addr.eval s).offset i) ((word.eval s).byte endian count i)) m) := by
    intro is
    induction is with
    | nil =>
      intro mem u hm h
      rw [List.foldlM_nil, pure_eq_ok] at h
      subst h
      exact ⟨hm, fun s => .inl ⟨rfl, rfl⟩⟩
    | cons i is ih =>
      intro mem u hm h
      rw [List.foldlM_cons, bind_eq_ok] at h
      obtain ⟨mem', hstep, h⟩ := h
      obtain ⟨hm', hstep⟩ := storeByte_ok ha hwp hm hstep
      obtain ⟨hp, he⟩ := ih hm' h
      refine ⟨hp, fun s => .inr ?_⟩
      obtain ⟨a, m, hmem, hmem'⟩ := hstep s
      refine ⟨a, m, hmem, ?_⟩
      rcases he s with ⟨rfl, heq⟩ | ⟨a', m', hmem'', heq⟩
      · rw [heq, hmem', List.foldl_cons, List.foldl_nil]
      · rw [hmem'] at hmem''
        cases hmem''
        rw [heq, List.foldl_cons]
  obtain ⟨hp, he⟩ := hfold _ hm h
  refine ⟨hp, fun s => ?_⟩
  subst hc
  rcases he s with ⟨hnone, heq⟩ | ⟨a, m, hmem, heq⟩
  · rw [heq]
    cases mem.eval s with
    | memory a m => simp only [Value.store, hnone, List.foldl_nil]
    | bool _ | bits _ _ => rfl
  · rw [heq, hmem, hwe]
    rfl

end Term

/-! ## §5 Expressions -/

/-- What an access touches in a state. -/
def Access.touch (s : State) (a : Access) : Touch :=
  ⟨a.kind, a.addr.eval s, a.size⟩

/-- The term and the accesses of an expression are what the expression says in an environment. -/
structure Expr.Translates (e : Environment) (x : Expr) (t : Term) (accesses : List Access) :
    Prop where
  denotes : t.Denotes e.Owns fun s => x.value (e.look s)
  addresses : ∀ a ∈ accesses, a.addr.Proper e.Owns
  touches : ∀ s, accesses.map (Access.touch s) = x.touches (e.look s)

/-- A run gives an expression a term and accesses: it makes nothing but constants, and in every
environment from its end on they are what the expression says. -/
structure Expr.Yields (x : Expr) (σ : Session) (t : Term) (accesses : List Access) (σ' : Session) :
    Prop where
  step : σ.Step σ'
  supply : σ'.supply = σ.supply
  translates : ∀ e, σ'.env.Grows e → e.Sound → x.Translates e t accesses

namespace Expr.Yields

variable {y z : Expr} {u v : Term} {as bs : List Access} {σ1 : Session}

theorem map {F : Value → Value} (h : x.Yields σ t as σ')
    (hterm : ∀ P : Symbol → Srt → Prop, t.Proper P → u.Denotes P fun s => F (t.eval s))
    (hvalue : ∀ l, y.value l = F (x.value l)) (htouches : ∀ l, y.touches l = x.touches l) :
    y.Yields σ u as σ' := by
  refine ⟨h.step, h.supply, fun e hg hs => ?_⟩
  have hx := h.translates e hg hs
  have hd := hterm _ hx.denotes.proper
  refine ⟨⟨hd.proper, fun s => ?_⟩, hx.addresses, fun s => ?_⟩
  · rw [hd.eval, hx.denotes.eval, hvalue]
  · rw [hx.touches, htouches]

/-- The term of an operation on two expressions, the second one translated after the first. -/
theorem map2 {F : Value → Value → Value} (hx : x.Yields σ t as σ1) (hy : y.Yields σ1 u bs σ')
    (hterm : ∀ P : Symbol → Srt → Prop, t.Proper P → u.Proper P →
      v.Denotes P fun s => F (t.eval s) (u.eval s))
    (hvalue : ∀ l, z.value l = F (x.value l) (y.value l))
    (htouches : ∀ l, z.touches l = x.touches l ++ y.touches l) :
    z.Yields σ v (as ++ bs) σ' := by
  refine ⟨hx.step.trans hy.step, hy.supply.trans hx.supply, fun e hg hs => ?_⟩
  have hx := hx.translates e (hy.step.env.trans hg) hs
  have hy := hy.translates e hg hs
  have hd := hterm _ hx.denotes.proper hy.denotes.proper
  refine ⟨⟨hd.proper, fun s => ?_⟩, ?_, fun s => ?_⟩
  · rw [hd.eval, hx.denotes.eval, hy.denotes.eval, hvalue]
  · exact List.forall_mem_append.mpr ⟨hx.addresses, hy.addresses⟩
  · rw [List.map_append, hx.touches, hy.touches, htouches]

end Expr.Yields

/-- **Translation is sound**: in every environment from this one on, the term of an expression
without unknown parts has its value, and the accesses listed are the ones it makes. -/
theorem Expr.ends_toTerm (h : (x.toTerm tid).Ends σ (t, accesses) σ') (hx : x.isKnown = true) :
    x.Yields σ t accesses σ' := by
  induction x generalizing t accesses σ σ' with
    simp only [toTerm, ends_bind, ends_lift, ends_pure, Prod.mk.injEq] at h
  | var v =>
    obtain ⟨_, _, hv, ⟨rfl, rfl⟩, rfl⟩ := h
    obtain ⟨hstep, hsup, hgives⟩ := Build.ends_getVar hv
    refine ⟨hstep, hsup, fun e hg hs => ⟨⟨?_, fun s => ?_⟩, by simp, fun s => rfl⟩⟩
    · obtain ⟨name, srt, rfl, howns⟩ := (hgives.grows hg).const hs
      exact ⟨.const name srt, .const howns⟩
    · exact ((hgives.grows hg).look_eq s).symm
  | int n width =>
    obtain ⟨_, _, ⟨hn, rfl⟩, ⟨rfl, rfl⟩, rfl⟩ := h
    obtain rfl := Term.mkNumeral_ok hn
    exact ⟨.refl _, rfl, fun e _ _ =>
      ⟨⟨Term.proper_numeral _ _, fun s => Term.eval_num ..⟩, by simp, fun s => rfl⟩⟩
  | load mem addr size endian ihm iha =>
    simp only [isKnown, Bool.and_eq_true] at hx
    obtain ⟨⟨a, as⟩, _, ha, ⟨m, ms⟩, _, hm, _, _, ⟨hl, rfl⟩, ⟨rfl, rfl⟩, rfl⟩ := h
    obtain ⟨hstep1, hsup1, hta⟩ := iha ha hx.2
    obtain ⟨hstep2, hsup2, htm⟩ := ihm hm hx.1
    refine ⟨hstep1.trans hstep2, hsup2.trans hsup1, fun e hg hs => ?_⟩
    have hta := hta e (hstep2.env.trans hg) hs
    have htm := htm e hg hs
    have hd := Term.loadBytes_ok htm.denotes.proper hta.denotes.proper hl
    -- the access stands between those of the address and those of the memory
    refine ⟨⟨hd.proper, fun s => ?_⟩, ?_, fun s => ?_⟩
    · rw [hd.eval, htm.denotes.eval, hta.denotes.eval, value]
    · simp only [List.forall_mem_append, List.forall_mem_cons]
      exact ⟨hta.addresses, hta.denotes.proper, htm.addresses⟩
    · rw [List.map_append, List.map_cons, hta.touches, htm.touches, Access.touch, hta.denotes.eval,
        touches]
  | store mem addr v size endian ihm iha ihv =>
    simp only [isKnown, Bool.and_eq_true] at hx
    obtain ⟨⟨a, as⟩, _, ha, ⟨m, ms⟩, _, hm, ⟨u, us⟩, _, hv, _, _, ⟨hl, rfl⟩, ⟨rfl, rfl⟩, rfl⟩ := h
    obtain ⟨hstep1, hsup1, hta⟩ := iha ha hx.1.2
    obtain ⟨hstep2, hsup2, htm⟩ := ihm hm hx.1.1
    obtain ⟨hstep3, hsup3, htv⟩ := ihv hv hx.2
    refine ⟨(hstep1.trans hstep2).trans hstep3, (hsup3.trans hsup2).trans hsup1,
      fun e hg hs => ?_⟩
    have hta := hta e ((hstep2.trans hstep3).env.trans hg) hs
    have htm := htm e (hstep3.env.trans hg) hs
    have htv := htv e hg hs
    have hd := Term.storeBytes_ok htm.denotes.proper hta.denotes.proper htv.denotes.proper hl
    refine ⟨⟨hd.proper, fun s => ?_⟩, ?_, fun s => ?_⟩
    · rw [hd.eval, htm.denotes.eval, hta.denotes.eval, htv.denotes.eval, value]
    · simp only [List.forall_mem_append, List.forall_mem_cons]
      exact ⟨hta.addresses, hta.denotes.proper, htm.addresses, htv.addresses⟩
    · rw [List.map_append, List.map_cons, List.map_append, hta.touches, htm.touches, htv.touches,
        Access.touch, hta.denotes.eval, touches]
  | binop op lhs rhs ihl ihr =>
    simp only [isKnown, Bool.and_eq_true] at hx
    obtain ⟨⟨l, ls⟩, _, hl, ⟨r, rs⟩, _, hr, _, _, ⟨ht, rfl⟩, ⟨rfl, rfl⟩, rfl⟩ := h
    exact (ihl hl hx.1).map2 (ihr hr hx.2) (fun _ hl hr => Term.applyBinary_ok hl hr ht)
      (fun _ => rfl) fun _ => rfl
  | unop op arg ih =>
    obtain ⟨⟨u, us⟩, _, hu, _, _, ⟨ht, rfl⟩, ⟨rfl, rfl⟩, rfl⟩ := h
    exact (ih hu hx).map (fun _ hu => Term.applyUnary_ok hu ht) (fun _ => rfl) fun _ => rfl
  | cast kind width arg ih =>
    obtain ⟨⟨u, us⟩, _, hu, _, _, ⟨ht, rfl⟩, ⟨rfl, rfl⟩, rfl⟩ := h
    exact (ih hu hx).map (fun _ hu => Term.applyCast_ok hu ht) (fun _ => rfl) fun _ => rfl
  | ite cond yes no ihc ihy ihn =>
    simp only [isKnown, Bool.and_eq_true] at hx
    obtain ⟨⟨c, cs⟩, _, hc, b, _, ⟨hb, rfl⟩, ⟨y, ys⟩, _, hy, ⟨n, ns⟩, _, hn, _, _, ⟨ht, rfl⟩,
      ⟨rfl, rfl⟩, rfl⟩ := h
    obtain ⟨hstep1, hsup1, htc⟩ := ihc hc hx.1.1
    obtain ⟨hstep2, hsup2, hty⟩ := ihy hy hx.1.2
    obtain ⟨hstep3, hsup3, htn⟩ := ihn hn hx.2
    refine ⟨(hstep1.trans hstep2).trans hstep3, (hsup3.trans hsup2).trans hsup1,
      fun e hg hs => ?_⟩
    have htc := htc e ((hstep2.trans hstep3).env.trans hg) hs
    have hty := hty e (hstep3.env.trans hg) hs
    have htn := htn e hg hs
    have hd := Term.bitToBool_ok htc.denotes.proper hb
    refine ⟨⟨.app ht (by simp) (by simp [hd.proper, hty.denotes.proper, htn.denotes.proper]),
      fun s => ?_⟩, ?_, fun s => ?_⟩
    · obtain ⟨rfl, -⟩ := Term.mk_ok ht
      simp only [Term.eval_app, List.map_cons, List.map_nil, Op.eval, hd.eval, Value.isTrue,
        htc.denotes.eval, hty.denotes.eval, htn.denotes.eval, value, bne_iff_ne]
    · simp only [List.forall_mem_append]
      exact ⟨⟨htc.addresses, hty.addresses⟩, htn.addresses⟩
    · rw [List.map_append, List.map_append, htc.touches, hty.touches, htn.touches, touches]
  | extract hi lo arg ih =>
    obtain ⟨⟨u, us⟩, _, hu, ⟨i, j⟩, _, ⟨hij, rfl⟩, _, _, ⟨ht, rfl⟩, ⟨rfl, rfl⟩, rfl⟩ := h
    obtain ⟨hi', hj'⟩ := Term.fieldBounds_ok hij
    exact (ih hu hx).map (fun _ hu => Term.mkExtract_ok hu ht)
      (fun _ => by rw [value, hi', hj']; rfl) fun _ => rfl
  | concat lhs rhs ihl ihr =>
    simp only [isKnown, Bool.and_eq_true] at hx
    obtain ⟨⟨l, ls⟩, _, hl, ⟨r, rs⟩, _, hr, _, _, ⟨ht, rfl⟩, ⟨rfl, rfl⟩, rfl⟩ := h
    exact (ihl hl hx.1).map2 (ihr hr hx.2) (fun _ hl hr => Term.mk_concat_ok hl hr ht)
      (fun _ => rfl) fun _ => rfl
  | unknown width reason => simp [isKnown] at hx

/-- What has a term depends on the constants of its environment only. -/
theorem Expr.Translates.isLocal {e : Environment} (h : x.Translates e t accesses) : x.Local e := by
  refine ⟨⟨t, h.denotes.proper.sorted, h.denotes.proper.uses, h.denotes.eval⟩, fun s s' hs => ?_⟩
  rw [← h.touches, ← h.touches]
  refine List.map_congr_left fun a ha => ?_
  rw [Access.touch, Access.touch, Term.eval_congr (h.addresses a ha).uses fun _ _ ho => hs ho]

/-- The formula and the accesses of a condition are what the condition says. -/
structure Expr.Decides (e : Environment) (x : Expr) (c : Term) (accesses : List Access) :
    Prop where
  denotes : c.Denotes e.Owns fun s => .bool ((x.value (e.look s)).toNat != 0)
  addresses : ∀ a ∈ accesses, a.addr.Proper e.Owns
  touches : ∀ s, accesses.map (Access.touch s) = x.touches (e.look s)
  isLocal : x.Local e

/-- Conditions are sound: the formula says whether the value is not zero. -/
theorem Expr.ends_condition {c : Term} (h : (x.condition tid).Ends σ (c, accesses) σ')
    (hx : x.isKnown = true) : σ.Step σ' ∧ σ'.supply = σ.supply ∧
      ∀ e, σ'.env.Grows e → e.Sound → x.Decides e c accesses := by
  simp only [condition, ends_bind, ends_lift, Build.ends_env, ends_pure, Prod.mk.injEq] at h
  obtain ⟨⟨t, as⟩, τ, ht, b, _, ⟨hb, rfl⟩, _, _, ⟨rfl, rfl⟩, ⟨rfl, rfl⟩, rfl⟩ := h
  obtain ⟨hstep, hsup, htr⟩ := ends_toTerm ht hx
  refine ⟨hstep, hsup, fun e hg hs => ?_⟩
  have htr := htr e hg hs
  have hd := τ.env.logic.simplifier.denotes (Term.bitToBool_ok htr.denotes.proper hb)
  exact ⟨⟨hd.proper, fun s => by rw [hd.eval, htr.denotes.eval]⟩, htr.addresses, htr.touches,
    htr.isLocal⟩

/-- A condition whose formula is false is zero. -/
theorem Expr.Decides.value_eq_zero {e : Environment} {c : Term} (h : x.Decides e c accesses)
    (hc : c = .lit false) (s : State) : (x.value (e.look s)).toNat = 0 := by
  have hval := h.denotes.eval s
  rw [hc, Term.eval_lit] at hval
  simpa using Value.bool.inj hval

/-- A condition that always holds and has a term is never zero. -/
theorem Expr.value_of_isAlways {r : Term × List Access} (h : (x.condition tid).Ends σ r σ')
    (hx : x.isAlways = true) (look : Var → Value) : (x.value look).toNat ≠ 0 := by
  cases x with
  | int v width =>
    obtain ⟨hv, hw⟩ : v = 1 ∧ width.alike (.int 1) = true := by simpa [isAlways] using hx
    -- a width that is no integer has no numeral
    have hone : width.int? = some 1 := by
      simp only [condition, toTerm, ends_bind, ends_lift] at h
      obtain ⟨_, _, ⟨_, _, ⟨hn, -⟩, -⟩, -⟩ := h
      obtain ⟨_, hfield, -⟩ := map_eq_ok.mp hn
      cases width with
      | int n => simpa [Json.alike, Json.label?, Label.same, Label.ratio?, Json.int?] using hw
      | bool b =>
        cases b <;> simp_all [Json.alike, Json.label?, Label.same, Label.ratio?, Json.int?]
      | null | float _ | str _ | arr _ | obj _ => simp [Term.fieldWidth, Json.int?] at hfield
    subst hv
    rw [value, hone]
    decide
  | _ => simp [isAlways] at hx

/-- The truth value that the condition of a jump folds to, if there is one. -/
def Jmp.folded? (e : Environment) (j : Jmp) : Option Bool :=
  match (Id.run ((j.cond.condition j.tid).run.run ⟨{}, e⟩)).1 with
  | .ok (.lit b, _) => some b
  | _ => none

theorem Jmp.folded?_iff {e : Environment} {j : Jmp} {c : Term} {b : Bool}
    (h : (j.cond.condition j.tid).Ends ⟨{}, e⟩ (c, accesses) σ') :
    j.folded? e = some b ↔ c = .lit b := by
  rw [folded?, h]
  cases c <;> simp

/-- A constant bit folds to its truth value, if formulas without constants do. -/
theorem Expr.ends_condition_bit (tid : Json) {σ : Session}
    (h : σ.env.logic.simplifier = .ground) (b : Bool) :
    ((Expr.int b.toInt (.int 1)).condition tid).Ends σ (.lit b, []) σ := by
  have hfold : Simplifier.ground.apply (.app .eq [.num 1 b.toNat, .num 1 1]) = .lit b := by
    cases b <;> simp [Simplifier.ground, Simplifier.foldGround, Term.isGround, Term.areGround,
      Op.eval, Value.same, Value.isTrue]
  refine ends_bind.mpr ⟨(.num 1 b.toNat, []), σ, by cases b <;> rfl, ends_bind.mpr
    ⟨.app .eq [.num 1 b.toNat, .num 1 1], σ, by cases b <;> rfl, ends_bind.mpr
      ⟨σ.env, σ, Build.ends_env.mpr ⟨rfl, rfl⟩, ends_pure.mpr ⟨?_, rfl⟩⟩⟩⟩
  rw [h, hfold]

/-! ## §6 Moved addresses -/

/-- **Moved addresses**: the term of the mapped address has the value that the map gives. -/
theorem AddressMap.term_ok {P : Symbol → Srt → Prop} {map : AddressMap} (ha : addr.Proper P)
    (hs : addr.sort = .bits w) (h : map.term addr = .ok t) :
    t.Denotes P fun s => map.carry (addr.eval s) := by
  induction map generalizing t with
  | nil =>
    cases h
    exact ⟨ha, fun s => rfl⟩
  | cons m ms ih =>
    simp only [AddressMap.term, bind_eq_ok, Term.width_ok] at h
    obtain ⟨rest, hrest, v, hv, size, hsize, start, hstart, len, hlen, target, htarget, ge, hge, lt,
      hlt, inside, hinside, off, hoff, moved, hmoved, h⟩ := h
    obtain rfl : w = v := by simpa [hs] using hv
    have hnum : ∀ n : Int, (Term.numeral w n).Proper P := Term.proper_numeral w
    obtain ⟨hrestp, hreste⟩ := ih hrest
    have hge := Term.mk_order_ok ha (hnum _) hs hge
    have hlt := Term.mk_order_ok ha (hnum _) hs hlt
    have hoffd := Term.mk_arith_ok ha (hnum _) hs hoff
    have hmovedd := Term.mk_arith_ok hoffd.proper (hnum _) hoffd.sort_bits hmoved
    have hinp : inside.Proper P := .app hinside (by simp) (by simp [hge.proper, hlt.proper])
    refine ⟨.app h (by simp) (by simp [hinp, hmovedd.proper, hrestp]), fun s => ?_⟩
    obtain ⟨rfl, -⟩ := Term.mk_ok h
    obtain ⟨rfl, -⟩ := Term.mk_ok hinside
    obtain ⟨n, hn, hn'⟩ := ha.bits hs s
    have hbounds : m.bounds = .ok (DataSymbol.whole start,
        DataSymbol.whole (DataSymbol.sum start len), DataSymbol.whole target) := by
      simp only [Moved.bounds, bind_eq_ok, pure_eq_ok]
      exact ⟨size, hsize, start, hstart, len, hlen, target, htarget, rfl⟩
    have hrestv := hreste s
    rw [hn] at hrestv
    simp only [Term.eval_app, List.map_cons, List.map_nil, Op.eval, List.all_cons, List.all_nil,
      Bool.and_true, Value.isTrue, hge.eval, hlt.eval, hmovedd.eval, hoffd.eval, hrestv, hn,
      Term.numeral_eq, Term.eval_num, Value.toBits, Value.toNat, Value.ofBitVec, Order.eval,
      Arith.eval, AddressMap.carry, hbounds, Value.width]
    -- what remains is about three words: where the symbol began and ended, and where it is
    have hlow := Term.emod_two_pow_lt w (DataSymbol.whole start)
    have hhigh := Term.emod_two_pow_lt w (DataSymbol.whole (DataSymbol.sum start len))
    generalize (DataSymbol.whole start % (2 ^ w : Nat)).toNat = low at hlow ⊢
    generalize (DataSymbol.whole (DataSymbol.sum start len) % (2 ^ w : Nat)).toNat = high
      at hhigh ⊢
    generalize (DataSymbol.whole target % (2 ^ w : Nat)).toNat = base
    have hin : ((BitVec.ofNat w low).ule (BitVec.ofNat w n)
        && (BitVec.ofNat w n).ult (BitVec.ofNat w high)) = true ↔ low ≤ n ∧ n < high := by
      simp [BitVec.ule, BitVec.ult, Nat.mod_eq_of_lt, hlow, hhigh, hn']
    simp only [hin]
    split
    · next hcase =>
      have hsub : 2 ^ w - low + n = n - low + 2 ^ w := by omega
      rw [BitVec.ofNat_toNat, BitVec.setWidth_eq, BitVec.toNat_add, BitVec.toNat_sub,
        BitVec.toNat_ofNat, BitVec.toNat_ofNat, BitVec.toNat_ofNat, Nat.mod_eq_of_lt hlow,
        Nat.mod_eq_of_lt hn', hsub, Nat.add_mod_right, Nat.add_mod_mod, Nat.mod_add_mod]
    · rfl

/-! ## §7 Translating again -/

namespace Build

variable {α β : Type}

/-- A builder gives the same again, once everything that it needs is there. -/
def Repeats (act : Build α) : Prop :=
  ∀ ⦃σ a σ'⦄, act.Ends σ a σ' → σ.Step σ' ∧ ∀ ρ : Session, σ'.env.Grows ρ.env → act.Ends ρ a ρ

theorem repeats_pure (a : α) : Repeats (pure a) := by
  intro σ b σ' h
  obtain ⟨rfl, rfl⟩ := ends_pure.mp h
  exact ⟨.refl _, fun ρ _ => ends_pure.mpr ⟨rfl, rfl⟩⟩

theorem repeats_lift (x : Except Fault α) : Repeats (liftM x) := by
  intro σ a σ' h
  obtain ⟨rfl, rfl⟩ := ends_lift.mp h
  exact ⟨.refl _, fun ρ _ => ends_lift.mpr ⟨rfl, rfl⟩⟩

theorem Repeats.bind {act : Build α} {f : α → Build β} (h : Repeats act)
    (hf : ∀ a, Repeats (f a)) : Repeats (act >>= f) := by
  intro σ b σ' hends
  obtain ⟨a, τ, hact, hrest⟩ := ends_bind.mp hends
  obtain ⟨hstep1, hagain1⟩ := h hact
  obtain ⟨hstep2, hagain2⟩ := hf a hrest
  exact ⟨hstep1.trans hstep2, fun ρ hg =>
    ends_bind.mpr ⟨a, ρ, hagain1 ρ (hstep2.env.trans hg), hagain2 ρ hg⟩⟩

theorem repeats_getVar (v : Var) : Repeats (getVar v) := by
  intro σ t σ' h
  obtain ⟨hstep, -, hgives⟩ := ends_getVar h
  refine ⟨hstep, fun ρ hg => ?_⟩
  obtain ⟨l, hl, hfind⟩ := hgives.grows hg
  simp only [getVar, ends_bind, ends_lift, ends_env]
  refine ⟨l, ρ, ⟨hl, rfl⟩, ρ.env, ρ, ⟨rfl, rfl⟩, ?_⟩
  rw [hfind]
  exact ends_pure.mpr ⟨rfl, rfl⟩

end Build

/-- Without unknown words, a translation repeated gives the same term. -/
theorem Expr.repeats_toTerm (hx : x.isKnown = true) : (x.toTerm tid).Repeats := by
  open Build in
  -- the order of the binds is the order in which the translation visits the parts
  induction x with
  | var v => exact (repeats_getVar v).bind fun _ => repeats_pure _
  | int n width => exact (repeats_lift _).bind fun _ => repeats_pure _
  | load mem addr size endian ihm iha =>
    simp only [isKnown, Bool.and_eq_true] at hx
    exact (iha hx.2).bind fun _ => (ihm hx.1).bind fun _ => (repeats_lift _).bind fun _ =>
      repeats_pure _
  | store mem addr v size endian ihm iha ihv =>
    simp only [isKnown, Bool.and_eq_true] at hx
    exact (iha hx.1.2).bind fun _ => (ihm hx.1.1).bind fun _ => (ihv hx.2).bind fun _ =>
      (repeats_lift _).bind fun _ => repeats_pure _
  | binop op lhs rhs ihl ihr | concat lhs rhs ihl ihr =>
    simp only [isKnown, Bool.and_eq_true] at hx
    exact (ihl hx.1).bind fun _ => (ihr hx.2).bind fun _ => (repeats_lift _).bind fun _ =>
      repeats_pure _
  | unop op arg ih | cast kind width arg ih =>
    exact (ih hx).bind fun _ => (repeats_lift _).bind fun _ => repeats_pure _
  | extract hi lo arg ih =>
    exact (ih hx).bind fun _ => (repeats_lift _).bind fun _ => (repeats_lift _).bind fun _ =>
      repeats_pure _
  | ite cond yes no ihc ihy ihn =>
    simp only [isKnown, Bool.and_eq_true] at hx
    exact (ihc hx.1.1).bind fun _ => (repeats_lift _).bind fun _ => (ihy hx.1.2).bind fun _ =>
      (ihn hx.2).bind fun _ => (repeats_lift _).bind fun _ => repeats_pure _
  | unknown width name => cases hx

theorem Expr.repeats_condition (hx : x.isKnown = true) : (x.condition tid).Repeats := by
  refine (repeats_toTerm hx).bind fun _ => (Build.repeats_lift _).bind fun _ σ c σ' h => ?_
  obtain ⟨_, _, henv, hpure⟩ := ends_bind.mp h
  obtain ⟨rfl, rfl⟩ := Build.ends_env.mp henv
  obtain ⟨rfl, rfl⟩ := ends_pure.mp hpure
  refine ⟨.refl _, fun ρ hg => ends_bind.mpr ⟨_, ρ, Build.ends_env.mpr ⟨rfl, rfl⟩, ?_⟩⟩
  rw [hg.logic]
  exact ends_pure.mpr ⟨rfl, rfl⟩

end Antecedent
