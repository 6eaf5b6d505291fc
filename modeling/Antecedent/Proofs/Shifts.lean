import Antecedent.Proofs.Typing

/-!
# Shifts

The amount of a shift is brought to the width of what is shifted before it is used.  An amount that
has no room there loses its high bits, and the word is shifted by what is left.

* `BinOp.value_shift` says that words are shifted by their amounts modulo a power of two.
* `Expr.toTerm_shift` is the result, and `Expr.not_toTerm_shift_of_large_amount` its limit.
-/

namespace Antecedent

/-! ## §1 Numbers -/

namespace BinOp

/-- A number of a width shifted by an amount: multiplied by a power of two, or divided by one and
rounded down, where an arithmetic shift divides the number with its sign. -/
def shift (op : BinOp) (width n amount : Nat) : Nat :=
  match op with
  | .lshift => n * 2 ^ amount % 2 ^ width
  | .rshift => n / 2 ^ amount
  | .arshift => ((BitVec.ofNat width n).toInt / (2 ^ amount : Nat) % (2 ^ width : Nat)).toNat
  | _ => n

variable {op : BinOp} {w n k : Nat}

theorem shift_eq_zero (hop : op = .lshift ∨ op = .rshift) (hn : n < 2 ^ w) (hk : w ≤ k) :
    op.shift w n k = 0 := by
  have hpow : 2 ^ w ∣ 2 ^ k := Nat.pow_dvd_pow 2 hk
  rcases hop with rfl | rfl
  · exact Nat.mod_eq_zero_of_dvd (hpow.mul_left n)
  · exact Nat.div_eq_of_lt (hn.trans_le (Nat.le_of_dvd (Nat.two_pow_pos k) hpow))

theorem shift_eq_of_le (h : (Term.shiftOp? op).isSome = true) (hn : n < 2 ^ w) {l : Nat}
    (hk : w ≤ k) (hl : w ≤ l) : op.shift w n k = op.shift w n l := by
  cases op
  case lshift | rshift => rw [shift_eq_zero (by simp) hn hk, shift_eq_zero (by simp) hn hl]
  case arshift =>
    -- what is left is the sign
    have hsign : ∀ j, w ≤ j → (BitVec.ofNat w n).toInt / (2 ^ j : Nat) =
        if (BitVec.ofNat w n).toInt < 0 then -1 else 0 := by
      intro j hj
      have hpow : 2 ^ w ≤ 2 ^ j := Nat.pow_le_pow_right (by decide) hj
      have hlow := BitVec.le_toInt (BitVec.ofNat w n)
      have hhigh := BitVec.toInt_lt (x := BitVec.ofNat w n)
      have hhalf : (2 : Int) ^ (w - 1) ≤ (2 ^ w : Nat) := by
        exact_mod_cast Nat.pow_le_pow_right (by decide) (Nat.sub_le w 1)
      have hpow : ((2 ^ w : Nat) : Int) ≤ (2 ^ j : Nat) := by exact_mod_cast hpow
      have hpos : (0 : Int) < (2 ^ w : Nat) := by exact_mod_cast Nat.two_pow_pos w
      split
      · next hneg =>
        rw [Int.ediv_eq_iff_of_pos (by omega)]
        constructor <;> omega
      · next hnonneg => exact Int.ediv_eq_zero_of_lt (by omega) (by omega)
    rw [shift, shift, hsign k hk, hsign l hl]
  all_goals simp [Term.shiftOp?] at h

/-- Cutting an amount makes no difference, unless what is left of it is less than the width. -/
theorem shift_mod (h : (Term.shiftOp? op).isSome = true) (hn : n < 2 ^ w)
    (hk : k < 2 ^ w ∨ w ≤ k % 2 ^ w) : op.shift w n (k % 2 ^ w) = op.shift w n k := by
  rcases hk with hlt | hle
  · rw [Nat.mod_eq_of_lt hlt]
  · exact shift_eq_of_le h hn hle (hle.trans (Nat.mod_le k _))

/-- **Shifts of words** are shifts of numbers by the amount in the width of the word. -/
theorem value_shift (h : (Term.shiftOp? op).isSome = true) (hn : n < 2 ^ w) (amount : Value) :
    op.value (.bits w n) amount = .bits w (op.shift w n (amount.toNat % 2 ^ w)) := by
  have hword : (BitVec.ofNat w n).toNat = n := by rw [BitVec.toNat_ofNat, Nat.mod_eq_of_lt hn]
  have hamount : (amount.toBits w).toNat = amount.toNat % 2 ^ w := BitVec.toNat_ofNat ..
  cases op
  case lshift =>
    change Value.bits w (BitVec.ofNat w n <<< amount.toBits w).toNat = _
    rw [BitVec.shiftLeft_eq', BitVec.toNat_shiftLeft, hword, hamount, Nat.shiftLeft_eq, shift]
  case rshift =>
    change Value.bits w (BitVec.ofNat w n >>> amount.toBits w).toNat = _
    rw [BitVec.ushiftRight_eq', BitVec.toNat_ushiftRight, hword, hamount,
      Nat.shiftRight_eq_div_pow, shift]
  case arshift =>
    change Value.bits w ((BitVec.ofNat w n).sshiftRight (amount.toBits w).toNat).toNat = _
    rw [← BitVec.ofInt_toInt (x := (BitVec.ofNat w n).sshiftRight _), BitVec.toNat_ofInt,
      BitVec.toInt_sshiftRight, Int.shiftRight_eq_div_pow, hamount, shift]
  all_goals simp [Term.shiftOp?] at h

end BinOp

/-! ## §2 Terms -/

namespace Expr

/-- **Shifts use the amount in the width of what is shifted.**  A shift of a word by a word always
has a term, whatever the two widths are.  It is the shift by the amount itself if the amount is
below the power of two of the width, as it is wherever the amount is not the wider word, or if what
is left of it is not less than the width; then a logical shift gives zero. -/
theorem toTerm_shift {op : BinOp} {x y : Expr} {m n : Nat} {σ : Session} {Γ : String → Srt}
    (tid : Json) (hs : σ.env.Sound) (ha : σ.env.Agrees Γ) (hx : x.HasSort σ.env Γ (.bits m))
    (hy : y.HasSort σ.env Γ (.bits n)) (hop : (Term.shiftOp? op).isSome = true) :
    ∃ t as σ', ((Expr.binop op x y).toTerm tid).Ends σ (t, as) σ' ∧ t.sort = .bits m ∧
      ∀ s a b, (x.value (σ'.env.look s)).toNat = a → (y.value (σ'.env.look s)).toNat = b →
        a < 2 ^ m ∧ b < 2 ^ n ∧ t.eval s = .bits m (op.shift m a (b % 2 ^ m)) ∧
        (b < 2 ^ m ∨ m ≤ b % 2 ^ m → t.eval s = .bits m (op.shift m a b)) ∧
        (op = .lshift ∨ op = .rshift → m ≤ b % 2 ^ m → t.eval s = .bits m 0) := by
  obtain ⟨l, ls, σ1, hrl, hsl, hg1, ha1⟩ := hx.ends_toTerm tid (.refl _) ha
  obtain ⟨r, rs, σ', hrr, hsr, -, -⟩ := hy.ends_toTerm tid hg1 ha1
  obtain ⟨t, ht, hsort⟩ := Term.sorts_applyBinary hsl hsr hx.isWidth hy.isWidth (.inl hop)
  have hends : ((Expr.binop op x y).toTerm tid).Ends σ (t, ls ++ rs) σ' := by
    simp only [toTerm, ends_bind, ends_lift, ends_pure]
    exact ⟨_, σ1, hrl, _, σ', hrr, t, σ', ⟨ht, rfl⟩, rfl, rfl⟩
  have hknown : (Expr.binop op x y).isKnown = true := by simp [isKnown, hx.isKnown, hy.isKnown]
  have hyields := ends_toTerm hends hknown
  have hsound := hyields.step.sound hs
  have hgrows : σ1.env.Grows σ'.env := (ends_toTerm hrr hy.isKnown).step.env
  refine ⟨t, ls ++ rs, σ', hends, ?_, fun s a b hna hnb => ?_⟩
  · rw [hsort]
    cases op <;> simp [Term.shiftOp?] at hop <;> rfl
  -- the operands are words of their widths, and have the values of their terms
  have hl := ((ends_toTerm hrl hx.isKnown).translates σ'.env hgrows hsound).denotes
  have hr := ((ends_toTerm hrr hy.isKnown).translates σ'.env (.refl _) hsound).denotes
  obtain ⟨a', hal, hlta⟩ := hl.proper.bits hsl s
  obtain ⟨b', hbr, hltb⟩ := hr.proper.bits hsr s
  rw [hl.eval] at hal
  rw [hr.eval] at hbr
  obtain rfl : a' = a := by rw [← hna, hal, Value.toNat]
  obtain rfl : b' = b := by rw [← hnb, hbr, Value.toNat]
  have hval : t.eval s = .bits m (op.shift m a' (b' % 2 ^ m)) := by
    rw [(hyields.translates σ'.env (.refl _) hsound).denotes.eval, value, hal, hbr,
      BinOp.value_shift hop hlta, Value.toNat]
  refine ⟨hlta, hltb, hval, fun hb => ?_, fun hlogical hb => ?_⟩
  · rw [hval, BinOp.shift_mod hop hlta hb]
  · rw [hval, BinOp.shift_eq_zero hlogical hlta hb]

def wordVar (name : String) (width : Int) : Var where
  name := .str name
  width := .int width

/-- A byte is shifted by the low byte of a word. -/
theorem toTerm_shift_narrow :
    ∃ t as σ', ((Expr.binop .arshift (.var (wordVar "a" 8)) (.var (wordVar "b" 16))).toTerm
        .null).Ends ⟨{}, { arch := .x8664 }⟩ (t, as) σ' ∧
      ∀ s, t.eval s = .bits 8 (BinOp.shift .arshift 8 (σ'.env.look s (wordVar "a" 8)).toNat
        ((σ'.env.look s (wordVar "b" 16)).toNat % 2 ^ 8)) := by
  obtain ⟨t, as, σ', hends, -, hall⟩ := toTerm_shift (x := .var (wordVar "a" 8))
    (y := .var (wordVar "b" 16)) (σ := ⟨{}, { arch := .x8664 }⟩)
    (Γ := fun name => if name = "a" then .bits 8 else .bits 16) .null
    (Environment.sound_of_nil rfl rfl) (fun _ _ h => by cases h) (.var ⟨⟨"a", rfl, rfl⟩, rfl⟩)
    (.var ⟨⟨"b", rfl, rfl⟩, rfl⟩) (show (Term.shiftOp? .arshift).isSome = true from rfl)
  exact ⟨t, as, σ', hends, fun s => (hall s _ _ rfl rfl).2.2.1⟩

/-- **Shifts do not use the whole amount**: a byte that is shifted to the left by 256, an amount of
sixteen bits, stays what it is. -/
theorem not_toTerm_shift_of_large_amount :
    ¬∀ (op : BinOp) (x y : Expr) (m n : Nat) (σ : Session) (Γ : String → Srt) (tid : Json),
      σ.env.Sound → σ.env.Agrees Γ → x.HasSort σ.env Γ (.bits m) → y.HasSort σ.env Γ (.bits n) →
      (Term.shiftOp? op).isSome = true →
      ∃ t as σ', ((Expr.binop op x y).toTerm tid).Ends σ (t, as) σ' ∧
        ∀ s, t.eval s = .bits m (op.shift m (x.value (σ'.env.look s)).toNat
          (y.value (σ'.env.look s)).toNat) := by
  intro hall
  obtain ⟨t, as, σ', hends, hval⟩ := hall .lshift (.int 1 (.int 8)) (.int 256 (.int 16)) 8 16
    ⟨{}, { arch := .x8664 }⟩ (fun _ => .bool) .null (Environment.sound_of_nil rfl rfl)
    (fun _ _ h => by cases h) (.int rfl) (.int rfl) rfl
  have hyields := ends_toTerm hends rfl
  have hsound := hyields.step.sound (Environment.sound_of_nil rfl rfl)
  have hone : ∀ look, (Expr.int 1 (.int 8)).value look = .bits 8 1 := fun _ => rfl
  have hmany : ∀ look, (Expr.int 256 (.int 16)).value look = .bits 16 256 := fun _ => rfl
  have hval := hval State.zero
  rw [(hyields.translates σ'.env (.refl _) hsound).denotes.eval, hone, hmany] at hval
  have hshl : ∀ look, (Expr.binop .lshift (.int 1 (.int 8)) (.int 256 (.int 16))).value look
      = .bits 8 1 := by
    intro look
    rw [value, hone, hmany]
    rfl
  rw [hshl] at hval
  exact absurd (congrArg Value.toNat hval) (by decide)

end Expr

end Antecedent
