import Antecedent.Proofs.Outcomes
import Antecedent.Proofs.Translation

/-!
# Sorts of expressions

An expression whose parts fit together has a sort, and what the translation puts together for it is
never refused.

* `Term.Builds` says that a checked construction succeeds with a term of a sort.
* `Expr.HasSort` is the typing judgement.
* `Expr.toTerm_of_hasSort`: a well-typed expression has a term of its sort with its value in every
  state, and each of its loads and stores is listed once, with the term of its address.
-/

namespace Antecedent

open ExceptT (meets_pure meets_lift_bind meets_modify)

variable {n : Int} {x : Except Fault Term} {v : Nat} {value : Term}

section Lists

variable {ε α β : Type} {f : α → Except ε β} {as : List α} {bs : List β}

/-- A list is mapped if every member is. -/
theorem exists_mapM_eq_ok (h : ∀ a ∈ as, ∃ b, f a = .ok b) : ∃ bs, as.mapM f = .ok bs := by
  induction as with
  | nil => exact ⟨[], rfl⟩
  | cons a as ih =>
    obtain ⟨⟨b, hb⟩, has⟩ := List.forall_mem_cons.mp h
    obtain ⟨bs, hbs⟩ := ih has
    refine ⟨b :: bs, ?_⟩
    rw [List.mapM_cons, hb, hbs]
    rfl

end Lists

/-- The sort of an operator on two words of one width: a comparison gives a single bit. -/
def BinOp.sort (op : BinOp) (w : Nat) : Srt :=
  match op with
  | .eq | .neq | .lt | .le | .slt | .sle => .bits 1
  | _ => .bits w

namespace Term

/-! ## §1 Widths -/

/-- Whether a number of bits is one that a sort can have. -/
def IsWidth (w : Int) : Prop :=
  0 < w ∧ w < 0x80000000

theorem sizeWord_of_nonneg (h : 0 ≤ n) (hlt : n < 0x100000000) : sizeWord n = n.toNat := by
  rw [sizeWord, Int.emod_eq_of_lt h hlt]

theorem IsWidth.checkWidth {w : Int} (h : IsWidth w) : checkWidth w = .ok w.toNat := by
  obtain ⟨hpos, hlt⟩ := h
  have hsize := sizeWord_of_nonneg hpos.le (by omega)
  rw [Term.checkWidth, hsize, if_pos (by omega)]

/-- A width that is checked is one that words may have. -/
theorem isWidth_of_checkWidth {w : Int} {n : Nat} (h : checkWidth w = .ok n) : IsWidth n := by
  unfold Term.checkWidth at h
  split at h
  · next hw =>
    cases h
    exact ⟨by exact_mod_cast hw.1, by exact_mod_cast hw.2⟩
  · cases h

theorem isWidth_of_fieldWidth {field : Json} {n : Nat} (h : fieldWidth field = .ok n) :
    IsWidth n := by
  unfold fieldWidth at h
  split at h
  · exact isWidth_of_checkWidth h
  · cases h

/-! ## §2 Constructors of words -/

/-- A checked construction succeeds with a term of a sort. -/
def Sorts (x : Except Fault Term) (srt : Srt) : Prop :=
  ∃ t, x = .ok t ∧ t.sort = srt

variable {t l r : Term} {srt : Srt} {w : Nat}

theorem sorts_pure (h : t.sort = srt) : Sorts (pure t) srt :=
  ⟨t, rfl, h⟩

/-- Constructions one after the other. -/
theorem Sorts.bind {f : Term → Except Fault Term} {srt' : Srt} (h : Sorts x srt)
    (hf : ∀ t, t.sort = srt → Sorts (f t) srt') : Sorts (x >>= f) srt' := by
  obtain ⟨t, rfl, ht⟩ := h
  exact hf t ht

/-- A checked application succeeds if the operator has a sort for its arguments. -/
theorem sorts_mk {op : Op} {args : List Term} (h : op.sort? (args.map Term.sort) = some srt) :
    Sorts (mk op args) srt :=
  ⟨.app op args, by rw [mk, h]; rfl, sort_app h⟩

theorem sorts_width_bind {f : Nat → Except Fault Term} (ht : t.sort = .bits w)
    (hf : Sorts (f w) srt) : Sorts (t.width >>= f) srt := by
  rw [width_ok.mpr ht]
  exact hf

/-- An extraction from inside of a word. -/
theorem sorts_mkExtract {hi lo : Int} (ht : t.sort = .bits w) (hw : IsWidth w) (hlo : 0 ≤ lo)
    (hle : lo ≤ hi) (hhi : hi < w) :
    Sorts (mkExtract hi lo t) (.bits (hi - lo + 1).toNat) := by
  obtain ⟨-, hlt⟩ := hw
  have hhi' : sizeWord hi = hi.toNat := sizeWord_of_nonneg (by omega) (by omega)
  have hlo' : sizeWord lo = lo.toNat := sizeWord_of_nonneg hlo (by omega)
  rw [mkExtract, if_pos ⟨hlo, hle⟩, hhi', hlo']
  refine sorts_mk ?_
  have hwidth : hi.toNat - lo.toNat + 1 = (hi - lo + 1).toNat := by omega
  simp only [List.map_cons, List.map_nil, ht, Op.sort?]
  rw [if_pos (by omega), hwidth]

/-- An extension, of either kind, to a width that is allowed. -/
theorem sorts_mkExtend {extend : Nat → Op} {k : Int} (ht : t.sort = .bits w) (hk : 0 ≤ k)
    (hwidth : IsWidth (w + k))
    (hextend : ∀ k : Nat, (extend k).sort? [.bits w] = some (.bits (w + k))) :
    Sorts (mkExtend extend k t) (.bits (w + k).toNat) := by
  have hsize := sizeWord_of_nonneg hk (by have := hwidth.2; omega)
  have hsum : (w : Int) + k.toNat = w + k := by omega
  refine sorts_width_bind ht ?_
  rw [hsize, hsum, hwidth.checkWidth]
  refine sorts_mk ?_
  have hnat : w + k.toNat = (w + k).toNat := by omega
  rw [List.map_cons, List.map_nil, ht, hextend, hnat]

/-- The low bits of a word. -/
theorem sorts_lowPart (ht : t.sort = .bits w) (hw : IsWidth w) (hn : IsWidth n) (hle : n ≤ w) :
    Sorts (mkExtract (n - 1) 0 t) (.bits n.toNat) := by
  obtain ⟨hpos, -⟩ := hn
  have hwidth : n - 1 - 0 + 1 = n := by omega
  have hmk := sorts_mkExtract ht hw le_rfl (show 0 ≤ n - 1 by omega) (by omega)
  rwa [hwidth] at hmk

/-- A word that is made as wide as asked. -/
theorem sorts_extended {extend : Nat → Op} (ht : t.sort = .bits w) (hn : IsWidth n) (hle : w ≤ n)
    (hextend : ∀ k : Nat, (extend k).sort? [.bits w] = some (.bits (w + k))) :
    Sorts (mkExtend extend (n - w) t) (.bits n.toNat) := by
  have hsum : (w : Int) + (n - w) = n := by omega
  have hmk := sorts_mkExtend ht (show 0 ≤ n - w by omega) (hsum.symm ▸ hn) hextend
  rwa [hsum] at hmk

/-- A word is made to fit any width that is allowed. -/
theorem sorts_fit (ht : t.sort = .bits w) (hw : IsWidth w) (hn : IsWidth n) :
    Sorts (t.fit n) (.bits n.toNat) := by
  refine sorts_width_bind ht ?_
  split
  · next heq => exact sorts_pure (by rw [ht, ← heq, Int.toNat_natCast])
  · split
    · next hlt => exact sorts_extended ht hn hlt.le fun _ => rfl
    · next hge => exact sorts_lowPart ht hw hn (by omega)

theorem sorts_mkEq (h : l.sort = r.sort) : Sorts (mkEq l r) .bool := by
  unfold mkEq
  split
  · exact sorts_mk (by simp [Op.sort?, h])
  · exact sorts_mk (by simp [Op.sort?, h])

theorem sorts_mkDistinct (h : l.sort = r.sort) : Sorts (mkDistinct l r) .bool := by
  unfold mkDistinct
  split
  · exact sorts_mk (by simp [Op.sort?, h])
  · exact sorts_mk (by simp [Op.sort?, h])

/-- Words of every width can be conditions. -/
theorem sorts_bitToBool (ht : t.sort = .bits w) : Sorts t.bitToBool .bool := by
  refine sorts_width_bind ht ?_
  split
  · next hw => exact sorts_mkEq (by rw [ht, hw, Term.sort])
  · exact sorts_mkDistinct (by rw [ht, Term.sort])

section Operators

variable (hl : l.sort = .bits w) (hr : r.sort = .bits w)
include hl hr

theorem sorts_arith (f : Arith) : Sorts (mk (.arith f) [l, r]) (.bits w) :=
  sorts_mk (by simp [Op.sort?, hl, hr])

theorem sorts_order (o : Order) : Sorts (mk (.order o) [l, r]) .bool :=
  sorts_mk (by simp [Op.sort?, hl, hr])

omit hl hr in
/-- A comparison is made a word of one bit. -/
theorem Sorts.bit (h : Sorts x .bool) : Sorts (do pure (boolToBit (← x))) (.bits 1) :=
  h.bind fun t _ => ⟨boolToBit t, rfl, rfl⟩

/-- The operands of an operator have one width. -/
theorem sorts_binary (op : BinOp) : Sorts (binary op l r) (op.sort w) := by
  have hslt : Sorts (mkSlt l r) .bool := by
    unfold mkSlt
    split
    · exact sorts_order hr hl _
    · exact sorts_order hl hr _
  have hsle : Sorts (mkSle l r) .bool := by
    unfold mkSle
    split
    · exact sorts_order hr hl _
    · exact sorts_order hl hr _
  cases op
  case eq => exact (sorts_mkEq (hl.trans hr.symm)).bit
  case neq => exact (sorts_mkDistinct (hl.trans hr.symm)).bit
  case lt | le => exact (sorts_order hl hr _).bit
  case slt => exact hslt.bit
  case sle => exact hsle.bit
  all_goals exact sorts_arith hl hr _

end Operators

/-- The amount of a shift may have any width, the operands of other operators have one. -/
theorem sorts_applyBinary {op : BinOp} (hl : l.sort = .bits v) (hr : r.sort = .bits w)
    (hv : IsWidth v) (hw : IsWidth w) (h : (shiftOp? op).isSome = true ∨ v = w) :
    Sorts (applyBinary op l r) (op.sort v) := by
  refine sorts_width_bind hl ?_
  split
  · exact (sorts_fit hr hw hv).bind fun r' hr' => sorts_binary hl (by simpa using hr') op
  · next hshift =>
    obtain rfl := h.resolve_left hshift
    refine sorts_width_bind hr ?_
    rw [if_pos rfl]
    exact sorts_binary hl hr op

/-- Operators with one operand keep its width. -/
theorem sorts_applyUnary (op : UnOp) (ht : t.sort = .bits w) :
    Sorts (applyUnary op t) (.bits w) := by
  have hwidth : t.width?.isNone = false := by rw [width?, ht]; rfl
  unfold applyUnary
  rw [hwidth]
  cases op <;> exact sorts_mk (by simp [Op.sort?, ht])

/-- A word is cut to fewer bits only, and extended to any number. -/
theorem sorts_castTo {kind : CastKind} (ht : t.sort = .bits w) (hw : IsWidth w) (hn : IsWidth n)
    (h : kind = .low ∨ kind = .high → n ≤ w) : Sorts (castTo kind n t) (.bits n.toNat) := by
  refine sorts_width_bind ht ?_
  -- a part of a word is an extraction, which has to stay inside of the word
  cases kind with
  | low => exact sorts_lowPart ht hw hn (h (.inl rfl))
  | high =>
    obtain ⟨hpos, -⟩ := hn
    have hle := h (.inr rfl)
    have hwidth : (w : Int) - 1 - (w - n) + 1 = n := by omega
    have hmk := sorts_mkExtract ht hw (show (0 : Int) ≤ w - n by omega)
      (show (w : Int) - n ≤ w - 1 by omega) (by omega)
    rwa [hwidth] at hmk
  | unsigned =>
    dsimp only
    split
    · next hle => exact sorts_lowPart ht hw hn hle
    · next hgt => exact sorts_extended ht hn (by omega) fun _ => rfl
  | signed =>
    dsimp only
    split
    · next hle => exact sorts_lowPart ht hw hn hle
    · next hgt => exact sorts_extended ht hn (by omega) fun _ => rfl

/-- Casts have the width that they ask for. -/
theorem sorts_applyCast {kind : CastKind} (ht : t.sort = .bits w) (hw : IsWidth w) (hn : IsWidth n)
    (h : kind = .low ∨ kind = .high → n ≤ w) :
    Sorts (applyCast kind (.int n) t) (.bits n.toNat) :=
  sorts_width_bind ht (f := fun _ => castTo kind n t) (sorts_castTo ht hw hn h)

theorem sorts_ite {c : Term} (hc : c.sort = .bool) (hl : l.sort = srt) (hr : r.sort = srt) :
    Sorts (mk .ite [c, l, r]) srt :=
  sorts_mk (by simp [Op.sort?, hc, hl, hr])

theorem sorts_concat (hl : l.sort = .bits v) (hr : r.sort = .bits w) :
    Sorts (mk .concat [l, r]) (.bits (v + w)) :=
  sorts_mk (by simp [Op.sort?, concatWidth?, hl, hr])

/-! ## §3 Constructors of memories -/

variable {mem addr : Term} {a : Nat}

/-- The address of a byte has the width of the address. -/
theorem sorts_offsetAddr (ha : addr.sort = .bits a) (i : Nat) :
    Sorts (offsetAddr addr i) (.bits a) := by
  unfold offsetAddr
  split
  · exact sorts_pure ha
  · exact sorts_width_bind ha (sorts_arith ha rfl _)

/-- Every byte that is put behind a word adds eight bits to it. -/
theorem sorts_concatAll {us : List Term} (ht : t.sort = .bits w)
    (hus : ∀ u ∈ us, u.sort = .bits 8) :
    Sorts (concatAll t us) (.bits (w + 8 * us.length)) := by
  induction us generalizing t w with
  | nil => exact ⟨t, rfl, by simpa using ht⟩
  | cons u us ih =>
    obtain ⟨hu, hus⟩ := List.forall_mem_cons.mp hus
    refine (sorts_concat ht hu).bind fun c hc => ?_
    have hwidth : w + 8 + 8 * us.length = w + 8 * (u :: us).length := by
      rw [List.length_cons]
      omega
    have hrest := ih hc hus
    rwa [hwidth] at hrest

/-- Constructions for the members of a list. -/
theorem exists_mapM_of_sorts {α : Type} {f : α → Except Fault Term} {as : List α}
    (h : ∀ x ∈ as, Sorts (f x) srt) :
    ∃ ts, as.mapM f = .ok ts ∧ ts.length = as.length ∧ ∀ t ∈ ts, t.sort = srt := by
  obtain ⟨ts, hts⟩ := exists_mapM_eq_ok fun x hx => (h x hx).imp fun _ ht => ht.1
  refine ⟨ts, hts, (mapM_eq_ok.mp hts).length_eq.symm, fun t ht => ?_⟩
  obtain ⟨x, hx, hfx⟩ := (mem_of_mapM_eq_ok hts).2 t ht
  obtain ⟨t', hfx', hsort⟩ := h x hx
  cases hfx.symm.trans hfx'
  exact hsort

/-- An access has at least one byte, and the number of its bits is a width. -/
theorem isWidth_byteCount (h : IsWidth n) :
    byteCount (.int n) = .ok (max (n / 8).toNat 1) ∧ 0 < max (n / 8).toNat 1 ∧
      IsWidth (8 * max (n / 8).toNat 1 : Nat) := by
  obtain ⟨hpos, hlt⟩ := h
  exact ⟨rfl, by omega, by constructor <;> omega⟩

section Accesses

variable (endian : Endian) (hm : mem.sort = .memory a) (ha : addr.sort = .bits a)
include hm ha

/-- Some bytes at an address, in either order. -/
theorem sorts_bytesAt {count : Nat} (hcount : 0 < count) :
    Sorts (bytesAt mem addr count endian) (.bits (8 * count)) := by
  have hbyte : ∀ i ∈ List.range count,
      Sorts (do mk .select [mem, ← offsetAddr addr i]) (.bits 8) := fun i _ =>
    (sorts_offsetAddr ha i).bind fun x hx => sorts_mk (by simp [Op.sort?, hm, hx])
  obtain ⟨ts, hts, hlength, hsorts⟩ := exists_mapM_of_sorts hbyte
  rw [List.length_range] at hlength
  -- the order of the bytes does not matter to the width
  obtain ⟨us, hus, hlength', hsorts'⟩ : ∃ us, (if endian = .little then ts.reverse else ts) = us ∧
      us.length = count ∧ ∀ u ∈ us, u.sort = .bits 8 := by
    refine ⟨_, rfl, ?_, fun u hu => hsorts u ?_⟩
    · split <;> simp [hlength]
    · split at hu
      · exact List.mem_reverse.mp hu
      · exact hu
  rw [bytesAt, hts]
  dsimp only [bind, Except.bind]
  rw [hus]
  cases us with
  | nil =>
    rw [List.length_nil] at hlength'
    omega
  | cons b bs =>
    obtain ⟨hb, hbs⟩ := List.forall_mem_cons.mp hsorts'
    have hwidth : 8 + 8 * bs.length = 8 * count := by
      rw [List.length_cons] at hlength'
      omega
    have hall := sorts_concatAll hb hbs
    rwa [hwidth] at hall

/-- **Loads** succeed for every size that is a width. -/
theorem sorts_loadBytes (hn : IsWidth n) :
    Sorts (loadBytes mem addr (.int n) endian) (.bits n.toNat) := by
  obtain ⟨hcount, hpos, hwidth⟩ := isWidth_byteCount hn
  rw [loadBytes, hcount]
  exact (sorts_bytesAt endian hm ha hpos).bind fun _ ht => sorts_fit ht hwidth hn

/-- One byte of a word is stored, if the word has it. -/
theorem sorts_storeByte {count i : Nat} (hv : value.sort = .bits (8 * count))
    (hwidth : IsWidth (8 * count : Nat)) (hi : i < count) :
    Sorts (storeByte endian count addr value mem i) (.memory a) := by
  obtain ⟨lo, hlo, hle⟩ : ∃ lo, (if endian = .little then 8 * i else 8 * (count - 1 - i)) = lo ∧
      lo + 7 < 8 * count := by
    refine ⟨_, rfl, ?_⟩
    split <;> omega
  rw [storeByte, hlo]
  refine (sorts_offsetAddr ha i).bind fun x hx => ?_
  have hbyte := sorts_mkExtract hv hwidth (show (0 : Int) ≤ lo by omega)
    (show (lo : Int) ≤ (lo + 7 : Nat) by omega) (by omega)
  refine hbyte.bind fun b hb => sorts_mk ?_
  have height : ((lo + 7 : Nat) - (lo : Int) + 1).toNat = 8 := by omega
  rw [height] at hb
  simp [Op.sort?, hm, hx, hb]

/-- **Stores** succeed for words of every width. -/
theorem sorts_storeBytes (hv : value.sort = .bits w) (hw : IsWidth w) (hn : IsWidth n) :
    Sorts (storeBytes mem addr value (.int n) endian) (.memory a) := by
  obtain ⟨hcount, hpos, hwidth⟩ := isWidth_byteCount hn
  rw [storeBytes, hcount]
  refine (sorts_fit hv hw hwidth).bind fun x hx => ?_
  rw [Int.toNat_natCast] at hx
  -- the bytes are written one by one, and each write keeps the sort of the memory
  have hfold : ∀ (is : List Nat) {mem : Term}, (∀ i ∈ is, i < max (n / 8).toNat 1) →
      mem.sort = .memory a →
      Sorts (is.foldlM (fun m i => storeByte endian (max (n / 8).toNat 1) addr x m i) mem)
        (.memory a) := by
    intro is
    induction is with
    | nil => exact fun _ hm => sorts_pure hm
    | cons i is ih =>
      intro mem his hm
      obtain ⟨hi, his⟩ := List.forall_mem_cons.mp his
      rw [List.foldlM_cons]
      exact (sorts_storeByte endian hm ha hx hwidth hi).bind fun m hm => ih his hm
  exact hfold _ (fun i hi => List.mem_range.mp hi) hm

end Accesses

end Term

/-! ## §4 Well-typed expressions -/

/-- The constants that names have been given have the sorts of the names. -/
def Environment.Agrees (e : Environment) (Γ : String → Srt) : Prop :=
  ∀ name t, e.findVar? (.text name) = some t → t.sort = Γ name

/-- A variable has a text for a name, and the sort of its name. -/
structure Var.HasSort (e : Environment) (Γ : String → Srt) (v : Var) (srt : Srt) : Prop where
  name : ∃ s, v.name = .str s ∧ Γ s = srt
  sort : e.sortOf v = .ok srt

/-- **The typing judgement of expressions.**  Nothing in a well-typed expression is unknown. -/
inductive Expr.HasSort (e : Environment) (Γ : String → Srt) : Expr → Srt → Prop where
  | var {v : Var} {srt : Srt} (hv : v.HasSort e Γ srt) : HasSort e Γ (.var v) srt
  | int {n : Int} {width : Json} {w : Nat} (hw : Term.fieldWidth width = .ok w) :
      HasSort e Γ (.int n width) (.bits w)
  /-- An access has whole bytes. -/
  | load {mem addr : Expr} {k : Nat} {n : Int} {endian : Json} (hmem : HasSort e Γ mem (.memory k))
      (haddr : HasSort e Γ addr (.bits k)) (hn : Term.IsWidth n) (hbytes : 8 ∣ n) :
      HasSort e Γ (.load mem addr (.int n) endian) (.bits n.toNat)
  | store {mem addr value : Expr} {k w : Nat} {n : Int} {endian : Json}
      (hmem : HasSort e Γ mem (.memory k)) (haddr : HasSort e Γ addr (.bits k))
      (hvalue : HasSort e Γ value (.bits w)) (hn : Term.IsWidth n) (hbytes : 8 ∣ n) :
      HasSort e Γ (.store mem addr value (.int n) endian) (.memory k)
  /-- The amount of a shift may be narrower than what is shifted. -/
  | binop {op : BinOp} {lhs rhs : Expr} {v w : Nat} (hl : HasSort e Γ lhs (.bits v))
      (hr : HasSort e Γ rhs (.bits w)) (h : (Term.shiftOp? op).isSome = true ∧ w ≤ v ∨ v = w) :
      HasSort e Γ (.binop op lhs rhs) (op.sort v)
  | unop {op : UnOp} {arg : Expr} {w : Nat} (harg : HasSort e Γ arg (.bits w)) :
      HasSort e Γ (.unop op arg) (.bits w)
  /-- The low and the high part of a word are not wider than the word. -/
  | cast {kind : CastKind} {n : Int} {arg : Expr} {w : Nat} (harg : HasSort e Γ arg (.bits w))
      (hn : Term.IsWidth n) (h : kind = .low ∨ kind = .high → n ≤ w) :
      HasSort e Γ (.cast kind (.int n) arg) (.bits n.toNat)
  | ite {cond yes no : Expr} {c : Nat} {srt : Srt} (hcond : HasSort e Γ cond (.bits c))
      (hyes : HasSort e Γ yes srt) (hno : HasSort e Γ no srt) :
      HasSort e Γ (.ite cond yes no) srt
  | extract {hi lo : Int} {arg : Expr} {w : Nat} (harg : HasSort e Γ arg (.bits w))
      (hlo : 0 ≤ lo) (hle : lo ≤ hi) (hhi : hi < w) :
      HasSort e Γ (.extract (.int hi) (.int lo) arg) (.bits (hi - lo + 1).toNat)
  | concat {lhs rhs : Expr} {v w : Nat} (hl : HasSort e Γ lhs (.bits v))
      (hr : HasSort e Γ rhs (.bits w)) (h : Term.IsWidth (v + w : Nat)) :
      HasSort e Γ (.concat lhs rhs) (.bits (v + w))

/-- A wider judgement, also for unknown words, accesses of any size and shifts by any word. -/
inductive Expr.Sorted (e : Environment) (Γ : String → Srt) : Expr → Srt → Prop where
  | var {v : Var} {srt : Srt} (hv : v.HasSort e Γ srt) : Sorted e Γ (.var v) srt
  | int {n : Int} {width : Json} {w : Nat} (hw : Term.fieldWidth width = .ok w) :
      Sorted e Γ (.int n width) (.bits w)
  | load {mem addr : Expr} {k : Nat} {n : Int} {endian : Json} (hmem : Sorted e Γ mem (.memory k))
      (haddr : Sorted e Γ addr (.bits k)) (hn : Term.IsWidth n) :
      Sorted e Γ (.load mem addr (.int n) endian) (.bits n.toNat)
  | store {mem addr value : Expr} {k w : Nat} {n : Int} {endian : Json}
      (hmem : Sorted e Γ mem (.memory k)) (haddr : Sorted e Γ addr (.bits k))
      (hvalue : Sorted e Γ value (.bits w)) (hn : Term.IsWidth n) :
      Sorted e Γ (.store mem addr value (.int n) endian) (.memory k)
  | binop {op : BinOp} {lhs rhs : Expr} {v w : Nat} (hl : Sorted e Γ lhs (.bits v))
      (hr : Sorted e Γ rhs (.bits w)) (h : (Term.shiftOp? op).isSome = true ∨ v = w) :
      Sorted e Γ (.binop op lhs rhs) (op.sort v)
  | unop {op : UnOp} {arg : Expr} {w : Nat} (harg : Sorted e Γ arg (.bits w)) :
      Sorted e Γ (.unop op arg) (.bits w)
  | cast {kind : CastKind} {n : Int} {arg : Expr} {w : Nat} (harg : Sorted e Γ arg (.bits w))
      (hn : Term.IsWidth n) (h : kind = .low ∨ kind = .high → n ≤ w) :
      Sorted e Γ (.cast kind (.int n) arg) (.bits n.toNat)
  | ite {cond yes no : Expr} {c : Nat} {srt : Srt} (hcond : Sorted e Γ cond (.bits c))
      (hyes : Sorted e Γ yes srt) (hno : Sorted e Γ no srt) : Sorted e Γ (.ite cond yes no) srt
  | extract {hi lo : Int} {arg : Expr} {w : Nat} (harg : Sorted e Γ arg (.bits w))
      (hlo : 0 ≤ lo) (hle : lo ≤ hi) (hhi : hi < w) :
      Sorted e Γ (.extract (.int hi) (.int lo) arg) (.bits (hi - lo + 1).toNat)
  | concat {lhs rhs : Expr} {v w : Nat} (hl : Sorted e Γ lhs (.bits v))
      (hr : Sorted e Γ rhs (.bits w)) (h : Term.IsWidth (v + w : Nat)) :
      Sorted e Γ (.concat lhs rhs) (.bits (v + w))
  | unknown {width : Json} {w : Nat} {reason : Json} (hw : Term.fieldWidth width = .ok w) :
      Sorted e Γ (.unknown width reason) (.bits w)

/-- A session with the target, the simplifier, the hooks and the bound of an environment, in which
constants have the sorts of their names.  If it is asked for, they are named for their variables. -/
structure Session.Types (e : Environment) (Γ : String → Srt) (named : Prop) (σ : Session) :
    Prop where
  arch : σ.env.arch = e.arch
  logic : σ.env.logic = e.logic
  hooks : σ.env.hooks = e.hooks
  unroll : σ.env.unroll = e.unroll
  freshened : σ.env.freshened = e.freshened
  agrees : σ.env.Agrees Γ
  labelled : named → σ.env.Labelled

/-- The supply of a session of a typing does not matter. -/
theorem Session.Types.of_env {e : Environment} {Γ : String → Srt} {named : Prop} {σ τ : Session}
    (h : Session.Types e Γ named σ) (henv : τ.env = σ.env) : Session.Types e Γ named τ := by
  constructor <;> rw [henv]
  exacts [h.arch, h.logic, h.hooks, h.unroll, h.freshened, h.agrees, h.labelled]

section Terms

variable {e : Environment} {Γ : String → Srt} {named : Prop} {E : Fault → Prop} {v : Var}
  {srt : Srt} {x : Expr} {w : Nat}

/-- The constant of a typed variable has its sort, whether it is new or not. -/
theorem Var.HasSort.meets_getVar (h : v.HasSort e Γ srt) :
    (Build.getVar v).Meets (Session.Types e Γ named) E fun t => t.sort = srt := by
  obtain ⟨s, hname, hsort⟩ := h.name
  have hlabel : v.name.label = .ok (.text s) := by rw [hname]; rfl
  intro σ hσ
  cases hfind : σ.env.findVar? (.text s) with
  | some t =>
    exact .inl ⟨t, σ, Build.getVar_old hlabel hfind, hσ, (hσ.agrees s t hfind).trans hsort⟩
  | none =>
    have hsrt : σ.env.sortOf v = .ok srt := by
      rw [← h.sort, Environment.sortOf, Environment.sortOf, hσ.arch]
    have hends := Build.getVar_new hlabel hfind (σ.env.localName_text s) rfl hsrt
    refine .inl ⟨_, _, hends, ⟨hσ.1, hσ.2, hσ.3, hσ.4, hσ.5, fun name t ht => ?_, fun hnamed =>
      Build.labelled_getVar hends (hσ.labelled hnamed)⟩, rfl⟩
    -- the new constant is the only one that was not there before
    rw [Environment.findVar?_append] at ht
    cases hold : σ.env.findVar? (.text name) with
    | some u =>
      rw [hold, Option.some_or] at ht
      exact hσ.agrees name t (hold.trans ht)
    | none =>
      rw [hold, Option.none_or] at ht
      obtain ⟨hsame, heq⟩ := Option.ite_none_right_eq_some.mp ht
      cases heq
      have heq : s = name := by simpa [Label.same] using hsame
      exact (heq ▸ hsort).symm

/-- A fresh word takes the next number. -/
theorem Build.fresh_ends (stem : String) {width : Json} (hw : Term.fieldWidth width = .ok w)
    (σ : Session) : (fresh stem width).Ends σ
      (.const (.ofText (s!"{stem}_{σ.supply.names + 1}" ++ σ.env.suffix)) (.bits w))
      { supply := { σ.supply with names := σ.supply.names + 1 }
        env := { σ.env with
          introduced := Label.text (s!"{stem}_{σ.supply.names + 1}" ++ σ.env.suffix) ::
            σ.env.introduced } } := by
  simp only [fresh, freshBase, ends_bind, ends_get, ends_set, ends_name, ends_lift, ends_pure]
  exact ⟨_, _, ⟨_, _, ⟨rfl, rfl⟩, (), _, rfl, rfl, rfl⟩, _, _, ⟨σ.env.localName_text _, rfl⟩, w, _,
    ⟨hw, rfl⟩, _, _, ⟨rfl, rfl⟩, rfl, rfl⟩

/-- An unknown word has the width that it is asked for. -/
theorem Build.meets_fresh (stem : String) {width : Json} (hw : Term.fieldWidth width = .ok w) :
    (fresh stem width).Meets (Session.Types e Γ named) E fun t => t.sort = .bits w := fun σ hσ =>
  .inl ⟨_, _, fresh_ends stem hw σ, ⟨hσ.1, hσ.2, hσ.3, hσ.4, hσ.5, hσ.6, hσ.7⟩, rfl⟩

/-- A construction that succeeds, as a step of a builder. -/
theorem Term.Sorts.meets_bind {α : Type} {I : Session → Prop} {Q : α → Prop}
    {y : Except Fault Term} {f : Term → Build α} (h : Term.Sorts y srt)
    (hf : ∀ t, t.sort = srt → (f t).Meets I E Q) :
    ((liftM y : Build Term) >>= f).Meets I E Q := by
  obtain ⟨t, hy, ht⟩ := h
  exact meets_lift_bind hy (hf t ht)

/-- Sorts that an environment has: widths are in range, and memories are those of the target. -/
def Srt.Fits (e : Environment) : Srt → Prop
  | .bits w => Term.IsWidth w
  | .memory k => Term.checkWidth e.arch.addressWidth = .ok k
  | .bool => True

/-- An access is made at an address of the target, and its size is a width. -/
def Access.Typed (e : Environment) (a : Access) : Prop :=
  ∃ k n, Term.checkWidth e.arch.addressWidth = .ok k ∧ a.addr.sort = .bits k ∧ a.size = .int n ∧
    Term.IsWidth n

namespace Expr.Sorted

/-- The sort of an expression is a width that is allowed, or that of the memory. -/
theorem fits (h : x.Sorted e Γ srt) : srt.Fits e := by
  -- a sort is a width that is allowed, or the sort of the memory
  induction h with
  | var hv =>
    have hsort := hv.sort
    rw [Environment.sortOf] at hsort
    split at hsort
    · obtain ⟨_, hk, rfl⟩ := map_eq_ok.mp hsort
      exact hk
    · obtain ⟨_, hw, rfl⟩ := map_eq_ok.mp hsort
      exact Term.isWidth_of_fieldWidth hw
  | int hw | unknown hw => exact Term.isWidth_of_fieldWidth hw
  | load _ _ hn | cast _ hn => exact ⟨by have := hn.1; omega, by have := hn.2; omega⟩
  | store _ _ _ _ ih => exact ih
  | @binop op _ _ _ _ _ _ _ ihl =>
    cases op
    case eq | neq | lt | le | slt | sle => exact ⟨by decide, by decide⟩
    all_goals exact ihl
  | unop _ ih => exact ih
  | ite _ _ _ _ ihy => exact ihy
  | extract _ hlo hle hhi ih => exact ⟨by omega, by have := ih.2; omega⟩
  | concat _ _ h => exact h

/-- **Translation of well-typed expressions does not fail**, gives terms of their sorts, and lists
accesses to the memory of the target. -/
theorem meets_toTerm (tid : Json) (h : x.Sorted e Γ srt) :
    (x.toTerm tid).Meets (Session.Types e Γ named) E fun p =>
      p.1.sort = srt ∧ ∀ a ∈ p.2, a.Typed e := by
  -- one case for every rule of the judgement, with the accesses in the order of the translation
  induction h with
  | var hv => exact hv.meets_getVar.bind fun t ht => meets_pure ⟨ht, nofun⟩
  | int hw => exact meets_lift_bind (bind_eq_ok.mpr ⟨_, hw, rfl⟩) (meets_pure ⟨rfl, nofun⟩)
  | load hmem haddr hn ihm iha =>
    refine iha.bind fun p hp => ihm.bind fun q hq => ?_
    refine (Term.sorts_loadBytes _ hq.1 hp.1 hn).meets_bind fun t ht => meets_pure ⟨ht, ?_⟩
    have haccess : Access.Typed e ⟨.load, p.1, .int _, tid⟩ := ⟨_, _, hmem.fits, hp.1, rfl, hn⟩
    simpa [or_imp, forall_and] using ⟨hp.2, haccess, hq.2⟩
  | store hmem haddr hvalue hn ihm iha ihv =>
    refine iha.bind fun p hp => ihm.bind fun q hq => ihv.bind fun r hr => ?_
    refine (Term.sorts_storeBytes _ hq.1 hp.1 hr.1 hvalue.fits hn).meets_bind fun t ht =>
      meets_pure ⟨ht, ?_⟩
    have haccess : Access.Typed e ⟨.store, p.1, .int _, tid⟩ := ⟨_, _, hmem.fits, hp.1, rfl, hn⟩
    simpa [or_imp, forall_and] using ⟨hp.2, haccess, hq.2, hr.2⟩
  | binop hl hr h ihl ihr =>
    refine ihl.bind fun p hp => ihr.bind fun q hq => ?_
    exact (Term.sorts_applyBinary hp.1 hq.1 hl.fits hr.fits h).meets_bind fun t ht =>
      meets_pure ⟨ht, List.forall_mem_append.mpr ⟨hp.2, hq.2⟩⟩
  | unop harg ih =>
    exact ih.bind fun p hp => (Term.sorts_applyUnary _ hp.1).meets_bind fun t ht =>
      meets_pure ⟨ht, hp.2⟩
  | cast harg hn h ih =>
    exact ih.bind fun p hp => (Term.sorts_applyCast hp.1 harg.fits hn h).meets_bind fun t ht =>
      meets_pure ⟨ht, hp.2⟩
  | ite hcond hyes hno ihc ihy ihn =>
    refine ihc.bind fun p hp => (Term.sorts_bitToBool hp.1).meets_bind fun c hc =>
      ihy.bind fun q hq => ihn.bind fun r hr => ?_
    refine (Term.sorts_ite hc hq.1 hr.1).meets_bind fun t ht => meets_pure ⟨ht, ?_⟩
    simpa [or_imp, forall_and] using ⟨hp.2, hq.2, hr.2⟩
  | extract harg hlo hle hhi ih =>
    refine ih.bind fun p hp => meets_lift_bind rfl ?_
    exact (Term.sorts_mkExtract hp.1 harg.fits hlo hle hhi).meets_bind fun t ht =>
      meets_pure ⟨ht, hp.2⟩
  | concat hl hr h ihl ihr =>
    refine ihl.bind fun p hp => ihr.bind fun q hq => ?_
    exact (Term.sorts_concat hp.1 hq.1).meets_bind fun t ht =>
      meets_pure ⟨ht, List.forall_mem_append.mpr ⟨hp.2, hq.2⟩⟩
  | unknown hw => exact (Build.meets_fresh "unknown" hw).bind fun t ht => meets_pure ⟨ht, nofun⟩

end Expr.Sorted

end Terms

namespace Expr.HasSort

variable {e : Environment} {Γ : String → Srt} {x : Expr} {srt : Srt}

/-- Typed expressions have no unknown parts. -/
theorem isKnown (h : x.HasSort e Γ srt) : x.isKnown = true := by
  induction h <;> simp_all [Expr.isKnown]

/-- The judgement is stricter than the one with unknown parts. -/
theorem sorted (h : x.HasSort e Γ srt) : x.Sorted e Γ srt := by
  induction h with
  | var hv => exact .var hv
  | int hw => exact .int hw
  | load _ _ hn _ ihm iha => exact .load ihm iha hn
  | store _ _ _ hn _ ihm iha ihv => exact .store ihm iha ihv hn
  | binop _ _ h ihl ihr => exact .binop ihl ihr (h.imp_left And.left)
  | unop _ ih => exact .unop ih
  | cast _ hn h ih => exact .cast ih hn h
  | ite _ _ _ ihc ihy ihn => exact .ite ihc ihy ihn
  | extract _ hlo hle hhi ih => exact .extract ih hlo hle hhi
  | concat _ _ h ihl ihr => exact .concat ihl ihr h

theorem isWidth {w : Nat} (h : x.HasSort e Γ (.bits w)) : Term.IsWidth w :=
  h.sorted.fits

/-- The translation of a typed expression ends, with a term of its sort. -/
theorem ends_toTerm {σ : Session} (tid : Json) (h : x.HasSort e Γ srt) (hg : e.Grows σ.env)
    (ha : σ.env.Agrees Γ) :
    ∃ t as σ', (x.toTerm tid).Ends σ (t, as) σ' ∧ t.sort = srt ∧ e.Grows σ'.env ∧
      σ'.env.Agrees Γ := by
  have hσ : Session.Types e Γ False σ :=
    ⟨hg.arch, hg.logic, hg.hooks, hg.unroll, hg.freshened, ha, False.elim⟩
  obtain ⟨p, σ', hends, hσ', hsort, -⟩ := (h.sorted.meets_toTerm tid).exists_ends hσ
  exact ⟨p.1, p.2, σ', hends, hsort, hg.trans (repeats_toTerm h.isKnown hends).1.env, hσ'.agrees⟩

end Expr.HasSort

/-! ## §5 Loads and stores -/

namespace Expr

/-- A load or store that stands in an expression. -/
structure Occurrence where
  kind : AccessKind
  addr : Expr
  size : Json

/-- The loads and stores that stand in an expression: those of an address come before its own, those
of the other operands after it. -/
def occurrences : Expr → List Occurrence
  | .var _ | .int _ _ | .unknown _ _ => []
  | .load mem addr size _ => addr.occurrences ++ ⟨.load, addr, size⟩ :: mem.occurrences
  | .store mem addr value size _ =>
    addr.occurrences ++ ⟨.store, addr, size⟩ :: (mem.occurrences ++ value.occurrences)
  | .binop _ lhs rhs => lhs.occurrences ++ rhs.occurrences
  | .unop _ arg => arg.occurrences
  | .cast _ _ arg => arg.occurrences
  | .ite cond yes no => cond.occurrences ++ yes.occurrences ++ no.occurrences
  | .extract _ _ arg => arg.occurrences
  | .concat lhs rhs => lhs.occurrences ++ rhs.occurrences

/-- What is listed for a load or store: its kind, its size and the term that its address has. -/
structure Occurrence.Listed (tid : Json) (σ : Session) (o : Occurrence) (a : Access) : Prop where
  kind : a.kind = o.kind
  size : a.size = o.size
  addr : ∃ as, (o.addr.toTerm tid).Ends σ (a.addr, as) σ
  tid : a.tid = tid

/-- **The accesses listed are the loads and stores of the expression**, each with the term that its
address has in every later session. -/
theorem listed_occurrences {x : Expr} {tid : Json} {t : Term} {as : List Access}
    {σ σ' τ : Session} (h : (x.toTerm tid).Ends σ (t, as) σ') (hx : x.isKnown = true)
    (hg : σ'.env.Grows τ.env) : List.Forall₂ (Occurrence.Listed tid τ) x.occurrences as := by
  -- the environment of an operand is that of a later one before it is the last
  have hback : ∀ {y : Expr} {r : Term × List Access} {ρ ρ' : Session}, y.isKnown = true →
      (y.toTerm tid).Ends ρ r ρ' → ρ'.env.Grows τ.env → ρ.env.Grows τ.env := fun hy hr hg =>
    (repeats_toTerm hy hr).1.env.trans hg
  induction x generalizing t as σ σ' with
    simp only [toTerm, ends_bind, ends_lift, ends_pure, Prod.mk.injEq] at h
  | var v =>
    obtain ⟨_, _, -, ⟨-, rfl⟩, -⟩ := h
    exact .nil
  | int n width =>
    obtain ⟨_, _, -, ⟨-, rfl⟩, -⟩ := h
    exact .nil
  | load mem addr size endian ihm iha =>
    simp only [isKnown, Bool.and_eq_true] at hx
    obtain ⟨⟨a, as⟩, _, ha, ⟨m, ms⟩, _, hm, _, _, ⟨-, rfl⟩, ⟨-, rfl⟩, rfl⟩ := h
    have hga := hback hx.1 hm hg
    have haddr := (repeats_toTerm hx.2 ha).2 τ hga
    exact List.rel_append (iha ha hx.2 hga) (.cons ⟨rfl, rfl, ⟨as, haddr⟩, rfl⟩ (ihm hm hx.1 hg))
  | store mem addr value size endian ihm iha ihv =>
    simp only [isKnown, Bool.and_eq_true] at hx
    obtain ⟨⟨a, as⟩, _, ha, ⟨m, ms⟩, _, hm, ⟨v, vs⟩, _, hv, _, _, ⟨-, rfl⟩, ⟨-, rfl⟩, rfl⟩ := h
    have hgm := hback hx.2 hv hg
    have hga := hback hx.1.1 hm hgm
    have haddr := (repeats_toTerm hx.1.2 ha).2 τ hga
    exact List.rel_append (iha ha hx.1.2 hga) (.cons ⟨rfl, rfl, ⟨as, haddr⟩, rfl⟩
      (List.rel_append (ihm hm hx.1.1 hgm) (ihv hv hx.2 hg)))
  | binop _ lhs rhs ihl ihr | concat lhs rhs ihl ihr =>
    simp only [isKnown, Bool.and_eq_true] at hx
    obtain ⟨⟨l, ls⟩, _, hl, ⟨r, rs⟩, _, hr, _, _, ⟨-, rfl⟩, ⟨-, rfl⟩, rfl⟩ := h
    exact List.rel_append (ihl hl hx.1 (hback hx.2 hr hg)) (ihr hr hx.2 hg)
  | unop _ arg ih | cast _ _ arg ih =>
    obtain ⟨⟨u, us⟩, _, hu, _, _, ⟨-, rfl⟩, ⟨-, rfl⟩, rfl⟩ := h
    exact ih hu hx hg
  | ite cond yes no ihc ihy ihn =>
    simp only [isKnown, Bool.and_eq_true] at hx
    obtain ⟨⟨c, cs⟩, _, hc, b, _, ⟨-, rfl⟩, ⟨y, ys⟩, _, hy, ⟨n, ns⟩, _, hn, _, _, ⟨-, rfl⟩,
      ⟨-, rfl⟩, rfl⟩ := h
    have hgy := hback hx.2 hn hg
    exact List.rel_append (List.rel_append (ihc hc hx.1.1 (hback hx.1.2 hy hgy))
      (ihy hy hx.1.2 hgy)) (ihn hn hx.2 hg)
  | extract hi lo arg ih =>
    obtain ⟨⟨u, us⟩, _, hu, _, _, ⟨-, rfl⟩, _, _, ⟨-, rfl⟩, ⟨-, rfl⟩, rfl⟩ := h
    exact ih hu hx hg
  | unknown width reason => simp [isKnown] at hx

/-- **Translation keeps sorts and values.**  A well-typed expression always has a term.  The term
has the sort of the expression and in every state its value, and for each load and store that stands
in the expression one access is listed, with the term of its address. -/
theorem toTerm_of_hasSort {x : Expr} {srt : Srt} {σ : Session} {Γ : String → Srt} (tid : Json)
    (hs : σ.env.Sound) (ha : σ.env.Agrees Γ) (h : x.HasSort σ.env Γ srt) :
    ∃ t as σ', (x.toTerm tid).Ends σ (t, as) σ' ∧ t.sort = srt ∧
      (∀ s, t.eval s = x.value (σ'.env.look s)) ∧
      List.Forall₂ (Occurrence.Listed tid σ') x.occurrences as := by
  obtain ⟨t, as, σ', hends, hsort, -, -⟩ := h.ends_toTerm tid (.refl _) ha
  have hyields := ends_toTerm hends h.isKnown
  have htranslates := hyields.translates σ'.env (.refl _) (hyields.step.sound hs)
  exact ⟨t, as, σ', hends, hsort, htranslates.denotes.eval,
    listed_occurrences hends h.isKnown (.refl _)⟩

/-- The memory and two registers, as variables. -/
def memoryVar : Var where
  name := .str "mem"
  isMem := .bool true

def baseVar : Var where
  name := .str "RDI"
  width := .int 64

def amountVar : Var where
  name := .str "RCX"
  width := .int 64

/-- A word is read, shifted by the low byte of a register, and written behind the place where it
stood in the other order of bytes. -/
def shifted : Expr :=
  .store (.var memoryVar) (.binop .plus (.var baseVar) (.int 4 (.int 64)))
    (.binop .lshift (.load (.var memoryVar) (.var baseVar) (.int 32) (.str "big"))
      (.cast .low (.int 8) (.var amountVar)))
    (.int 32) (.str "little")

/-- It has the term of a memory. -/
theorem toTerm_of_hasSort_shifted :
    ∃ t as σ', (shifted.toTerm .null).Ends ⟨{}, { arch := .x8664 }⟩ (t, as) σ' ∧
      t.sort = .memory 64 ∧ (∀ s, t.eval s = shifted.value (σ'.env.look s)) ∧
      List.Forall₂ (Occurrence.Listed .null σ') shifted.occurrences as := by
  refine toTerm_of_hasSort (Γ := fun name => if name = "mem" then .memory 64 else .bits 64)
    .null (Environment.sound_of_nil rfl rfl) (fun _ _ h => ?_) ?_
  · cases h
  · have hword : Term.IsWidth 32 := ⟨by decide, by decide⟩
    have hbyte : Term.IsWidth 8 := ⟨by decide, by decide⟩
    exact .store (.var ⟨⟨"mem", rfl, rfl⟩, rfl⟩) (.binop (.var ⟨⟨"RDI", rfl, rfl⟩, rfl⟩) (.int rfl)
      (.inr rfl)) (.binop (.load (.var ⟨⟨"mem", rfl, rfl⟩, rfl⟩) (.var ⟨⟨"RDI", rfl, rfl⟩, rfl⟩)
      hword (by decide)) (.cast (.var ⟨⟨"RCX", rfl, rfl⟩, rfl⟩) hbyte (by decide))
      (.inl ⟨rfl, by decide⟩)) hword (by decide)

end Expr

end Antecedent
