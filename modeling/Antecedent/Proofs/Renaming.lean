import Mathlib.Data.List.TakeWhile
import Antecedent.Proofs.Conditions

/-!
# Renamed constants

The constants of a freshened environment have the names of plain ones with a suffix.  Terms that are
made in the same way of renamed parts are renamed terms, and trees of renamed conditions are true in
the states that hold at the marked constants what the plain ones hold.

* `Term.rename` commutes with every way to make terms.
* `Constraint.Copies` says that a tree does what another one does over the marked constants.
-/

namespace Antecedent

/-! ## §1 Renamed terms -/

namespace Term

variable {r : Symbol → Symbol}

@[simp] theorem isNumeral_rename (t : Term) : (t.rename r).isNumeral = t.isNumeral := by
  cases t <;> simp [isNumeral]

/-- A renaming keeps sorts. -/
theorem sort_rename (t : Term) : (t.rename r).sort = t.sort := by
  induction t using Term.induction with
  | lit b => rfl
  | num w n => rfl
  | const name srt => rfl
  | app op args hargs =>
    have hwidth : ∀ {ts : List Term}, (∀ u ∈ ts, (u.rename r).sort = u.sort) →
        sort.concatWidth (ts.map (rename r)) = sort.concatWidth ts := by
      intro ts h
      induction ts with
      | nil => rfl
      | cons u us ih =>
        obtain ⟨hu, hus⟩ := List.forall_mem_cons.mp h
        simp only [List.map_cons, sort.concatWidth, hu, ih hus]
    rw [rename_app]
    cases op with
    | concat => simp only [sort, hwidth hargs]
    | _ => rcases args with _ | ⟨u, _ | ⟨v, us⟩⟩ <;> simp_all [sort]

@[simp] theorem width?_rename (t : Term) : (t.rename r).width? = t.width? := by
  rw [width?, width?, sort_rename]

@[simp] theorem width_rename (t : Term) : (t.rename r).width = t.width := by
  rw [width, width, width?_rename]

/-- **Checked terms**: what is made of renamed parts is the renaming of what is made of the parts,
faults included. -/
theorem mk_rename (op : Op) (args : List Term) :
    mk op (args.map (rename r)) = rename r <$> mk op args := by
  have hsorts : (args.map (rename r)).map sort = args.map sort := by
    simp [Function.comp_def, sort_rename]
  unfold mk
  rw [hsorts]
  split
  · exact congrArg Except.ok (rename_app op args).symm
  · rfl

@[simp] theorem mk_rename_one (op : Op) (t : Term) :
    mk op [t.rename r] = rename r <$> mk op [t] :=
  mk_rename op [t]

@[simp] theorem mk_rename_two (op : Op) (t u : Term) :
    mk op [t.rename r, u.rename r] = rename r <$> mk op [t, u] :=
  mk_rename op [t, u]

@[simp] theorem mk_rename_three (op : Op) (t u v : Term) :
    mk op [t.rename r, u.rename r, v.rename r] = rename r <$> mk op [t, u, v] :=
  mk_rename op [t, u, v]

@[simp] theorem rename_numeral (w : Nat) (n : Int) : (numeral w n).rename r = numeral w n := rfl

/-- A renaming changes no width, so the same bits are taken. -/
@[simp] theorem mkExtract_rename (hi lo : Int) (t : Term) :
    mkExtract hi lo (t.rename r) = rename r <$> mkExtract hi lo t := by
  unfold mkExtract
  split
  · simp
  · rfl

@[simp] theorem mkExtend_rename (extend : Nat → Op) (k : Int) (t : Term) :
    mkExtend extend k (t.rename r) = rename r <$> mkExtend extend k t := by
  simp [mkExtend]

/-- Words are cut and extended alike. -/
@[simp] theorem fit_rename (t : Term) (width : Int) :
    (t.rename r).fit width = rename r <$> t.fit width := by
  simp only [fit, width_rename, map_bind]
  refine bind_congr fun w => ?_
  split
  · rfl
  · split <;> simp

/-- A renaming makes no numeral, so sides are exchanged alike. -/
@[simp] theorem numeralFirst_rename (t u : Term) :
    numeralFirst (t.rename r) (u.rename r) = numeralFirst t u := by
  simp [numeralFirst]

@[simp] theorem mkEq_rename (t u : Term) :
    mkEq (t.rename r) (u.rename r) = rename r <$> mkEq t u := by
  rw [mkEq, mkEq, numeralFirst_rename]
  split <;> simp

@[simp] theorem mkDistinct_rename (t u : Term) :
    mkDistinct (t.rename r) (u.rename r) = rename r <$> mkDistinct t u := by
  rw [mkDistinct, mkDistinct, numeralFirst_rename]
  split <;> simp

@[simp] theorem mkSlt_rename (t u : Term) :
    mkSlt (t.rename r) (u.rename r) = rename r <$> mkSlt t u := by
  rw [mkSlt, mkSlt, numeralFirst_rename]
  split <;> simp

@[simp] theorem mkSle_rename (t u : Term) :
    mkSle (t.rename r) (u.rename r) = rename r <$> mkSle t u := by
  rw [mkSle, mkSle, numeralFirst_rename]
  split <;> simp

@[simp] theorem rename_boolToBit (t : Term) : (boolToBit t).rename r = boolToBit (t.rename r) := by
  simp [boolToBit]

/-- Conditions made of words. -/
theorem bitToBool_rename (t : Term) : bitToBool (t.rename r) = rename r <$> bitToBool t := by
  simp only [bitToBool, width_rename, map_bind]
  refine bind_congr fun w => ?_
  split
  · exact mkEq_rename t (.num 1 1)
  · exact mkDistinct_rename t (.num w 0)

/-- Addresses of bytes. -/
@[simp] theorem offsetAddr_rename (t : Term) (i : Nat) :
    offsetAddr (t.rename r) i = rename r <$> offsetAddr t i := by
  unfold offsetAddr
  split
  · rfl
  · simp only [width_rename, map_bind]
    exact bind_congr fun w => mk_rename_two _ t (numeral w i)

/-- Bytes that are put together. -/
theorem concatAll_rename (t : Term) (us : List Term) :
    concatAll (t.rename r) (us.map (rename r)) = rename r <$> concatAll t us := by
  induction us generalizing t with
  | nil => rfl
  | cons u us ih => simp [concatAll, ih]

theorem bytesAt_rename (mem addr : Term) (count : Nat) (endian : Endian) :
    bytesAt (mem.rename r) (addr.rename r) count endian =
      rename r <$> bytesAt mem addr count endian := by
  -- bytes are loaded one by one, and each of them is renamed
  have hbytes : ∀ is : List Nat,
      (is.mapM fun i => offsetAddr (addr.rename r) i >>= fun a => mk .select [mem.rename r, a]) =
        List.map (rename r) <$>
          is.mapM fun i => offsetAddr addr i >>= fun a => mk .select [mem, a] := by
    intro is
    induction is with
    | nil => rfl
    | cons i is ih =>
      rw [List.mapM_cons, List.mapM_cons, ih]
      simp
  simp only [bytesAt, hbytes, map_bind, bind_map_left]
  refine bind_congr fun bytes => ?_
  -- their order does not depend on the names
  have horder :
      (if endian = .little then (bytes.map (rename r)).reverse else bytes.map (rename r)) =
        (if endian = .little then bytes.reverse else bytes).map (rename r) := by
    split <;> simp
  rw [horder]
  cases if endian = .little then bytes.reverse else bytes with
  | nil => rfl
  | cons b bs => exact concatAll_rename b bs

/-- Loads of any size. -/
theorem loadBytes_rename (mem addr : Term) (size : Json) (endian : Endian) :
    loadBytes (mem.rename r) (addr.rename r) size endian =
      rename r <$> loadBytes mem addr size endian := by
  simp only [loadBytes, bytesAt_rename, map_bind, bind_map_left]
  refine bind_congr fun count => bind_congr fun word => ?_
  cases size.int? with
  | none => rfl
  | some n => exact fit_rename word n

/-- Stores of one byte. -/
theorem storeByte_rename (endian : Endian) (count : Nat) (addr value mem : Term) (i : Nat) :
    storeByte endian count (addr.rename r) (value.rename r) (mem.rename r) i =
      rename r <$> storeByte endian count addr value mem i := by
  simp [storeByte]

/-- Stores of any size. -/
theorem storeBytes_rename (mem addr value : Term) (size : Json) (endian : Endian) :
    storeBytes (mem.rename r) (addr.rename r) (value.rename r) size endian =
      rename r <$> storeBytes mem addr value size endian := by
  have hstore : ∀ (count : Nat) (value : Term) (is : List Nat) (mem : Term),
      is.foldlM (fun m i => storeByte endian count (addr.rename r) (value.rename r) m i)
          (mem.rename r) =
        rename r <$> is.foldlM (fun m i => storeByte endian count addr value m i) mem := by
    intro count value is
    induction is with
    | nil => exact fun mem => rfl
    | cons i is ih => exact fun mem => by simp [storeByte_rename, ih]
  simp [storeBytes, hstore]

theorem binary_rename (op : BinOp) (t u : Term) :
    binary op (t.rename r) (u.rename r) = rename r <$> binary op t u := by
  cases op <;> simp [binary]

/-- Operators with two operands, shifts included. -/
theorem applyBinary_rename (op : BinOp) (t u : Term) :
    applyBinary op (t.rename r) (u.rename r) = rename r <$> applyBinary op t u := by
  simp only [applyBinary, width_rename, fit_rename, map_bind]
  refine bind_congr fun v => ?_
  split
  · simp [binary_rename]
  · simp only [map_bind]
    refine bind_congr fun w => ?_
    split
    · exact binary_rename op t u
    · rfl

theorem applyUnary_rename (op : UnOp) (t : Term) :
    applyUnary op (t.rename r) = rename r <$> applyUnary op t := by
  unfold applyUnary
  rw [width?_rename]
  split
  · rfl
  · cases op <;> simp

/-- Casts of every kind. -/
theorem applyCast_rename (kind : CastKind) (width : Json) (t : Term) :
    applyCast kind width (t.rename r) = rename r <$> applyCast kind width t := by
  have hcast : ∀ w, castTo kind w (t.rename r) = rename r <$> castTo kind w t := by
    intro w
    simp only [castTo, width_rename, map_bind]
    refine bind_congr fun v => ?_
    cases kind with
    | low | high => simp
    | unsigned | signed => simp only; split <;> simp
  simp only [applyCast, width_rename, map_bind]
  refine bind_congr fun v => ?_
  split
  · rfl
  · split
    · exact hcast _
    · rfl

/-- Only constants are renamed to constants. -/
theorem rename_eq_const {t : Term} {name' : Symbol} {srt : Srt} :
    t.rename r = .const name' srt ↔ ∃ name, t = .const name srt ∧ r name = name' := by
  cases t <;> simp [eq_comm, and_comm]

end Term

/-! ## §2 Marked symbols -/

/-- The symbol with the suffix. -/
def Symbol.mark : Symbol → Symbol
  | .text s => if s = "" then .text s else .text (s ++ Environment.freshSuffix)
  | .anonymous => .text Environment.freshSuffix
  | x => x

/-- The symbol of a name without null characters. -/
def Symbol.Named (x : Symbol) : Prop :=
  ∃ s : String, '\x00' ∉ s.toList ∧ x = .ofText s

namespace Symbol

/-- **Marked symbols determine the symbols.** -/
theorem mark_injective : Function.Injective mark := by
  have hsuffix : ∀ {s s' : String}, s ++ Environment.freshSuffix = s' ++ Environment.freshSuffix →
      s = s' := fun h => by
    rw [← String.toList_inj, String.toList_append, String.toList_append] at h
    exact String.toList_inj.mp (List.append_left_injective _ h)
  have hne : ∀ s : String, s ++ Environment.freshSuffix ≠ "" := by simp [Environment.freshSuffix]
  have hempty : ∀ s : String, s ++ Environment.freshSuffix = Environment.freshSuffix → s = "" :=
    fun s h => hsuffix (h.trans (String.empty_append).symm)
  have hsome : Environment.freshSuffix ≠ "" := by decide
  intro x y h
  cases x <;> cases y <;> grind [mark]

/-- The symbol of a text without null characters. -/
theorem ofText_of_notMem {s : String} (h : '\x00' ∉ s.toList) :
    ofText s = if s = "" then .anonymous else .text s := by
  have htake : s.toList.takeWhile (· != '\x00') = s.toList := by
    rw [List.takeWhile_eq_self_iff]
    exact fun x hx => bne_iff_ne.mpr fun heq => h (heq ▸ hx)
  simp [ofText, htake]

/-- The symbol of a suffixed name is the marked symbol, if the name has no null character. -/
theorem ofText_append_suffix {s : String} (h : '\x00' ∉ s.toList) :
    ofText (s ++ Environment.freshSuffix) = (ofText s).mark := by
  have hsuffix : '\x00' ∉ (s ++ Environment.freshSuffix).toList := by
    simp [h, Environment.freshSuffix]
  rw [ofText_of_notMem hsuffix, ofText_of_notMem h]
  by_cases hs : s = ""
  · subst hs
    rfl
  · simp [hs, mark]

theorem Named.mark_ne {x : Symbol} (hx : x.Named) : x ≠ x.mark := by
  obtain ⟨s, hs, rfl⟩ := hx
  rw [ofText_of_notMem hs]
  split
  · simp [mark]
  · next hne =>
    rw [mark, if_neg hne]
    intro h
    have hlength := congrArg String.length (Symbol.text.inj h)
    simp [Environment.freshSuffix] at hlength

/-- No marked symbol is that of cut paths. -/
theorem mark_ne_cut (x : Symbol) : x.mark ≠ cutSymbol := by
  cases x with
  | text s =>
    intro h
    rw [mark] at h
    split at h
    · simp_all [cutSymbol]
    · have hlast := congrArg (·.toList.getLast?) (Symbol.text.inj h)
      simp [Environment.freshSuffix] at hlast
  | number n | anonymous | hidden s => simp [mark, cutSymbol, Environment.freshSuffix]

/-- The plain symbol is made of the text without its end. -/
theorem plainSymbol_eq (x : Symbol) : Environment.plainSymbol x = .ofText
    (String.ofList (x.shown.toList.take (x.shown.length - Environment.freshSuffix.length))) := by
  refine congrArg Symbol.ofText ?_
  change (x.shown.dropEnd Environment.freshSuffix.length).copy = _
  rw [← String.toList_inj, String.toList_copy_dropEnd, String.length_toList, String.toList_ofList]

/-- The suffix can be taken off again. -/
theorem Named.plainSymbol_mark {x : Symbol} (hx : x.Named) :
    Environment.plainSymbol x.mark = x := by
  obtain ⟨s, hs, rfl⟩ := hx
  have hshown : (ofText s).mark.shown = s ++ Environment.freshSuffix := by
    rw [ofText_of_notMem hs]
    split
    · next h => rw [h]; rfl
    · next h => rw [mark, if_neg h]; rfl
  rw [plainSymbol_eq, hshown, String.toList_append, String.length_append, Nat.add_sub_cancel,
    ← String.length_toList, List.take_left, String.ofList_toList]

end Symbol

/-! ## §3 Copies of trees -/

section Values

variable {P : Symbol → Srt → Prop} {r : Symbol → Symbol}

/-- The constants of a term, from those of the renamed one. -/
theorem Term.Over.of_rename {t : Term} (h : (t.rename r).Over P) :
    t.Over fun name srt => P (r name) srt := by
  induction t using Term.induction with
  | lit b => exact .lit b
  | num w n => exact .num w n
  | const name srt =>
    cases h with
    | const h => exact .const h
  | app op args ih =>
    rw [rename_app] at h
    cases h with
    | app hop hargs => exact .app hop fun u hu => ih u hu (hargs _ (List.mem_map_of_mem hu))

/-- A renamed term has the value of the term, where the new constants hold what the old ones do. -/
theorem Term.Over.eval_rename {t : Term} (h : t.Over P) {s s' : State}
    (hs : ∀ name srt, P name srt → s.const name srt = s'.const (r name) srt) :
    (t.rename r).eval s' = t.eval s := by
  induction h with
  | lit b => simp
  | num w n => simp
  | const h => simpa using (hs _ _ h).symm
  | @app op args hop _ ih =>
    have hargs : args.map (eval s' ∘ Term.rename r) = args.map (eval s) := List.map_congr_left ih
    rw [rename_app, eval_app, eval_app, List.map_map, hargs]
    exact Op.eval_congr hop s' s _

end Values

/-- A term that has a well-sorted copy is well sorted. -/
theorem Term.WellSorted.of_rename {r : Symbol → Symbol} {t : Term} (h : (t.rename r).WellSorted) :
    t.WellSorted := by
  induction t using Term.induction with
  | lit b => exact .lit b
  | num w n => exact h
  | const name srt => exact .const name srt
  | app op args ih =>
    rw [rename_app] at h
    cases h with
    | app hargs hs =>
      have hsorts : (args.map (Term.rename r)).map Term.sort = args.map Term.sort := by
        simp [Function.comp_def, Term.sort_rename]
      exact .app (fun u hu => ih u hu (hargs _ (List.mem_map_of_mem hu))) (hsorts ▸ hs)

/-- Two formulas are what a simplifier makes of a formula and of its copy over the marked constants,
which are those of an environment. -/
def Term.Twins (e : Environment) (c c' : Term) : Prop :=
  ∃ (S : Simplifier) (f : Term) (v : State → Bool), c = S.apply f ∧
    c' = S.apply (f.rename Symbol.mark) ∧
    (f.rename Symbol.mark).Denotes e.Owns fun s => .bool (v s)

namespace Term.Twins

variable {e : Environment} {c c' : Term}

/-- Both formulas are folded to one literal, or none is folded. -/
theorem eq_lit (h : Twins e c c') (b : Bool) : c' = .lit b ↔ c = .lit b := by
  obtain ⟨S, f, v, rfl, rfl, -⟩ := h
  exact S.literal_rename (fun _ _ heq => Symbol.mark_injective heq) f b

theorem mono (h : Twins e c c') {e' : Environment}
    (howns : ∀ name srt, e.Owns name srt → e'.Owns name srt) : Twins e' c c' := by
  obtain ⟨S, f, v, rfl, rfl, hf⟩ := h
  exact ⟨S, f, v, rfl, rfl, hf.proper.mono howns, hf.eval⟩

/-- The formulas have no other constants, and the same value wherever the marked constants hold what
the plain ones do. -/
theorem values (h : Twins e c c') : (c.Over fun name srt => e.Owns name.mark srt) ∧ c'.Over e.Owns ∧
    ∀ s s' : State, (∀ name srt, e.Owns name.mark srt → s.const name srt = s'.const name.mark srt) →
      c'.eval s' = c.eval s := by
  obtain ⟨S, f, v, rfl, rfl, hf⟩ := h
  have hover := hf.proper.uses.of_rename
  have hsorted := hf.proper.sorted.of_rename
  have hbool : f.sort = .bool := (Term.sort_rename f).symm.trans hf.sort_bool
  have hplain : f.Denotes (fun name srt => e.Owns name.mark srt) fun s => .bool (f.holds s) := by
    refine ⟨⟨hsorted, hover⟩, fun s => ?_⟩
    obtain ⟨b, hb⟩ := (hbool ▸ Term.eval_fits hsorted s : (f.eval s).Fits .bool).bool_inv
    rw [Term.holds, hb, Value.isTrue]
  refine ⟨(S.denotes hplain).proper.uses, (S.denotes hf).proper.uses, fun s s' hs => ?_⟩
  rw [(S.denotes hplain).eval, (S.denotes hf).eval, ← hplain.eval, ← hf.eval]
  exact hover.eval_rename hs

end Term.Twins

/-- Some constants hold what the marked constants hold in another state. -/
structure State.Mirrors (W : Symbol → Srt → Prop) (s s' : State) : Prop where
  const : ∀ name srt, W name srt → s.const name srt = s'.const name.mark srt
  apply : s.apply = s'.apply

/-- Writes of one value to both constants keep states mirrored. -/
theorem State.Mirrors.set {W : Symbol → Srt → Prop} {s s' : State} (h : s.Mirrors W s')
    (name : Symbol) {srt : Srt} {v : Value} (hv : v.Fits srt) :
    (s.set name srt v).Mirrors W (s'.set name.mark srt v) := by
  refine ⟨fun name' srt' hmem => ?_, h.apply⟩
  by_cases heq : name' = name ∧ srt' = srt
  · obtain ⟨rfl, rfl⟩ := heq
    rw [const_set_self _ hv, const_set_self _ hv]
  · have hne : name' ≠ name ∨ srt' ≠ srt := by tauto
    rw [const_set_ne _ hne, const_set_ne _ (hne.imp Symbol.mark_injective.ne id)]
    exact h.const _ _ hmem

namespace Constraint

/-- A tree does what another one does over the marked constants, which are those of an environment.
At the ends of paths they have conditions of their own, or are cut. -/
inductive Copies (e : Environment) (post post' : Constraint) : Constraint → Constraint → Prop where
  | post : Copies e post post' post post'
  | cut (i i' : Nat) (name : String) :
    Copies e post post' (.goal i name Term.loopCut) (.goal i' name Term.loopCut)
  | ite (i i' : Nat) (name : Json) {cond cond' : Term} {yes yes' no no' : Constraint}
    (hcond : cond.Twins e cond') (hyes : Copies e post post' yes yes')
    (hno : Copies e post post' no no') :
    Copies e post post' (.ite i name cond yes no) (.ite i' name cond' yes' no')
  | subst (i i' : Nat) {name : Symbol} {srt : Srt} {new : Term} {body body' : Constraint}
    (hcut : name ≠ cutSymbol ∨ srt ≠ .bool) (hnew : (new.rename Symbol.mark).Proper e.Owns)
    (hbody : Copies e post post' body body') :
    Copies e post post' (.subst i body [(.const name srt, new)])
      (.subst i' body' [(.const name.mark srt, new.rename Symbol.mark)])

namespace Copies

variable {e e' : Environment} {post post' c c' : Constraint}

theorem mono (h : Copies e post post' c c') (hg : e.Grows e') : Copies e' post post' c c' := by
  have howns : ∀ name srt, e.Owns name srt → e'.Owns name srt := fun _ _ hown =>
    (hg.vars.map _).subset hown
  induction h with
  | post => exact .post
  | cut i i' name => exact .cut i i' name
  | ite i i' name hcond _ _ ihy ihn => exact .ite i i' name (hcond.mono howns) ihy ihn
  | subst i i' hcut hnew _ ih => exact .subst i i' hcut (hnew.mono howns) ih

/-- A copy keeps sorts exactly if the tree does. -/
theorem sorted_iff (h : Copies e post post' c c') (hpost : post.Sorted ↔ post'.Sorted) :
    c.Sorted ↔ c'.Sorted := by
  induction h with
  | post => exact hpost
  | cut i i' name => simp
  | ite i i' name _ _ _ ihy ihn => rw [sorted_ite, sorted_ite, ihy, ihn]
  | subst i i' _ _ _ ih =>
    rw [sorted_subst, sorted_subst, ih]
    simp [Replacement.keepsSorts, Term.sort, Term.sort_rename]

/-- **Copies are true in the same states**, up to the names of constants. -/
theorem holds_iff (h : Copies e post post' c c') (hs : e.Sound) {W : Symbol → Srt → Prop}
    (howns : ∀ name srt, e.Owns name.mark srt → W name srt) {b : Bool}
    (hpost : ∀ s s', s.Mirrors W s' → (post.Holds b s ↔ post'.Holds b s')) (hc : c.Sorted)
    {s s' : State} (hmirrors : s.Mirrors W s') : c.Holds b s ↔ c'.Holds b s' := by
  -- renamed terms mention constants of the environment, so they are about words and memories
  have hwords : ∀ {t : Term}, (t.rename Symbol.mark).Over e.Owns →
      (t.Over fun _ srt => srt ≠ .bool) ∧
        ((t.rename Symbol.mark).Over fun _ srt => srt ≠ .bool) := fun ht =>
    ⟨ht.of_rename.mono fun _ _ => hs.owns_ne_bool, ht.mono fun _ _ => hs.owns_ne_bool⟩
  have heval : ∀ {t : Term} {s s' : State}, (t.rename Symbol.mark).Over e.Owns → s.Mirrors W s' →
      (t.rename Symbol.mark).eval s' = t.eval s := fun ht hm =>
    ht.of_rename.eval_rename fun _ _ hown => hm.const _ _ (howns _ _ hown)
  induction h generalizing s s' with
  | post => exact hpost s s' hmirrors
  | cut i i' name => exact Iff.rfl
  | ite i i' name hcond _ _ ihy ihn =>
    obtain ⟨hyes, hno⟩ := sorted_ite.mp hc
    obtain ⟨hover, hover', hsame⟩ := hcond.values
    rw [holds_ite, holds_ite, Term.holds, Term.holds,
      Term.eval_cutAs (hover.mono fun _ _ => hs.owns_ne_bool),
      Term.eval_cutAs (hover'.mono fun _ _ => hs.owns_ne_bool),
      hsame s s' fun _ _ hown => hmirrors.const _ _ (howns _ _ hown)]
    split
    · exact ihy hyes hmirrors
    · exact ihn hno hmirrors
  | @subst i i' name srt new body body' hcut hnew _ ih =>
    obtain ⟨hkeeps, hbody⟩ := sorted_subst.mp hc
    obtain ⟨hword, hword'⟩ := hwords hnew.uses
    have hsort : (new.rename Symbol.mark).sort = srt := by
      have hsame : srt = new.sort := by simpa [Replacement.keepsSorts, Term.sort] using hkeeps
      rw [Term.sort_rename, hsame]
    -- the new values agree, so the states mirror each other behind the substitution
    have hfits : ((new.rename Symbol.mark).eval s').Fits srt :=
      hsort ▸ Term.eval_fits hnew.sorted s'
    have heval := heval hnew.uses hmirrors
    rw [holds_subst hcut hword (heval ▸ hfits), holds_subst (.inl name.mark_ne_cut) hword' hfits,
      ← heval]
    exact ih hbody (hmirrors.set name hfits)

end Copies

end Constraint

end Antecedent
