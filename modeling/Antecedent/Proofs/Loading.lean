import Antecedent.Cache.Basic
import Antecedent.Proofs.Documents

/-!
# Faults of loading

Where documents are read, faults in their form, their fields and their values are turned into
announced ones.  Three kinds of faults are not: a value that is no object where a field with a
default is read, an infinite number where an integer is read, and a text that is nested too deep.

* `Except.Raises` says what the faults of a computation are like.
* `Decode.Shaped` says that every value of a document is one that its reader can use.
* `Cache.readProgram_announced` is the result, and `Cache.not_readProgram_announced` an entry that
  breaks reading.
-/

/-! ## §1 Faults that are raised -/

namespace Except

variable {ε α β : Type} {x : Except ε α} {S T : ε → Prop}

/-- All faults of a computation have a property. -/
def Raises (x : Except ε α) (S : ε → Prop) : Prop :=
  ∀ e, x = .error e → S e

theorem raises_ok (a : α) : Raises (.ok a) S :=
  nofun

theorem raises_error {e : ε} (h : S e) : Raises (.error e : Except ε α) S := by
  rintro e' ⟨⟩
  exact h

theorem Raises.mono (h : x.Raises S) (hST : ∀ e, S e → T e) : x.Raises T :=
  fun e he => hST e (h e he)

theorem Raises.bind {f : α → Except ε β} (h : x.Raises S) (hf : ∀ a, x = .ok a → (f a).Raises S) :
    (x >>= f).Raises S := by
  cases x with
  | error e => exact raises_error (h e rfl)
  | ok a => exact hf a rfl

theorem Raises.map {f : α → β} (h : x.Raises S) : (x.map f).Raises S := by
  cases x with
  | error e => exact raises_error (h e rfl)
  | ok a => exact raises_ok _

theorem raises_mapM {f : α → Except ε β} {as : List α} (h : ∀ a ∈ as, (f a).Raises S) :
    (as.mapM f).Raises S := by
  induction as with
  | nil => exact raises_ok _
  | cons a as ih =>
    obtain ⟨ha, has⟩ := List.forall_mem_cons.mp h
    rw [List.mapM_cons]
    exact ha.bind fun _ _ => (ih has).bind fun _ _ => raises_ok _

end Except

namespace ExceptT

variable {ε S α β : Type} {P : ε → Prop} {σ : S}

/-- All faults of a computation from a state have a property. -/
def Fails (act : ExceptT ε (StateM S) α) (σ : S) (P : ε → Prop) : Prop :=
  ∀ e σ', Id.run (act.run.run σ) = (.error e, σ') → P e

theorem Fails.mono {Q : ε → Prop} {act : ExceptT ε (StateM S) α} (h : act.Fails σ P)
    (hPQ : ∀ e, P e → Q e) : act.Fails σ Q :=
  fun e σ' he => hPQ e (h e σ' he)

theorem fails_pure (a : α) : (pure a : ExceptT ε (StateM S) α).Fails σ P :=
  nofun

theorem Fails.bind {act : ExceptT ε (StateM S) α} {f : α → ExceptT ε (StateM S) β}
    (h : act.Fails σ P) (hf : ∀ a τ, act.Ends σ a τ → (f a).Fails τ P) : (act >>= f).Fails σ P := by
  intro e σ' he
  unfold Fails at h
  unfold Ends at hf
  rw [run_bind, StateT.run_bind, Id.run_bind] at he
  generalize Id.run (act.run.run σ) = r at h hf he
  rcases r with ⟨e' | a, τ⟩
  · cases he
    exact h _ _ rfl
  · exact hf a τ rfl _ _ he

theorem fails_lift {x : Except ε α} (h : x.Raises P) :
    (liftM x : ExceptT ε (StateM S) α).Fails σ P := by
  intro e σ' he
  cases x with
  | ok a => cases he
  | error e' =>
    cases he
    exact h _ rfl

end ExceptT

namespace Antecedent

open Except (raises_ok raises_error raises_mapM)

variable {j v : Json} {f : Fault} {name : String}

/-! ## §2 The values of a document -/

/-- A fault that is announced, or turned into an announced one where documents are read. -/
def Fault.IsCaught (f : Fault) : Prop :=
  (Cache.documentDetail? f).isSome = true ∨ f.isAnnounced = true

namespace Decode

/-- What a value of a document is read as. -/
inductive Role where
  | program | subroutine | block | definition | jump | argument | symbol | var | expr | arch
  | number
deriving DecidableEq, Repr

namespace Role

/-- The value of a field, if it is there. -/
def one (r : Role) (j : Json) (name : String) : List (Role × Json) :=
  (j.get? name).toList.map (r, ·)

/-- The items of the value of a field, if it has any. -/
def run (r : Role) (j : Json) (name : String) : List (Role × Json) :=
  (j.get? name).toList.flatMap fun v => ((items v).toOption.getD []).map (r, ·)

/-- The fields of an expression of a kind that are expressions. -/
def operands : String → List String
  | "load" => ["mem", "addr"]
  | "store" => ["mem", "addr", "value"]
  | "binop" | "concat" => ["lhs", "rhs"]
  | "unop" | "cast" | "extract" => ["arg"]
  | "ite" => ["cond", "then", "else"]
  | _ => []

def kind (j : Json) : String :=
  ((j.get? "kind").bind Json.str?).getD ""

/-- The values that the reader of a role reads next, with their roles. -/
def parts : Role → Json → List (Role × Json)
  | program, j => run .subroutine j "subs" ++ run .symbol j "symbols" ++ one .arch j "arch"
  | subroutine, j => run .block j "blks" ++ run .argument j "args"
  | block, j => run .definition j "defs" ++ run .jump j "jmps"
  | definition, j => one .var j "lhs" ++ one .expr j "rhs"
  | jump, j => one .expr j "cond"
  | argument, j => one .var j "var"
  | symbol, j => one .number j "addr" ++ one .number j "size"
  | expr, j =>
    (operands (kind j)).flatMap (one .expr j) ++
      if kind j = "int" then one .number j "value" else []
  | var, _ | arch, _ | number, _ => []

/-- Whether the reader of a role can use a value: fields with a default are read from objects only,
an architecture is a text, and a number is not infinite. -/
def Fits : Role → Json → Prop
  | program, j | block, j | var, j | expr, j => ∃ ms, j = .obj ms
  | arch, j => ∃ s, j = .str s
  | number, j => ∀ negative, j ≠ .float (.infinity negative)
  | _, _ => True

end Role

/-- Every value that is read on the way can be used. -/
inductive Shaped : Role → Json → Prop where
  | mk {r : Role} {j : Json} (fits : r.Fits j) (parts : ∀ p ∈ r.parts j, Shaped p.1 p.2) :
      Shaped r j

theorem Shaped.fits {r : Role} : Shaped r j → r.Fits j
  | .mk fits _ => fits

theorem Shaped.part {r : Role} : Shaped r j → ∀ p ∈ r.parts j, Shaped p.1 p.2
  | .mk _ parts => parts

/-- What the faults of a reader are like: caught, or one of two that only bad values give. -/
def Strays (bad : Prop) (f : Fault) : Prop :=
  f.IsCaught ∨ (f = .notAnObject ∨ f = .infiniteInteger) ∧ bad

/-! ## §3 Readers -/

section Readers

variable {bad : Prop}

theorem strays_of_detail (h : (Cache.documentDetail? f).isSome = true) : Strays bad f :=
  .inl (.inl h)

theorem Strays.imp {bad' : Prop} (h : Strays bad f) (hbad : bad → bad') : Strays bad' f :=
  Or.imp_right (And.imp_right hbad) h

theorem raises_field (j : Json) (name : String) : (field j name).Raises (Strays bad) := by
  unfold field
  split
  · split
    · exact raises_ok _
    · exact raises_error (strays_of_detail rfl)
  · exact raises_error (strays_of_detail rfl)

theorem raises_items (j : Json) : (items j).Raises (Strays bad) := by
  unfold items
  split
  case h_4 => exact raises_error (strays_of_detail rfl)
  all_goals exact raises_ok _

theorem raises_label (j : Json) : j.label.Raises (Strays bad) := by
  unfold Json.label
  split
  · exact raises_ok _
  · exact raises_error (strays_of_detail rfl)

theorem raises_word {α : Type} {ofText? : String → Option α} {unknown : String → Fault}
    (h : ∀ s, (unknown s).isAnnounced = true) (j : Json) :
    (word ofText? unknown j).Raises (Strays bad) := by
  unfold word
  split
  · exact raises_error (strays_of_detail rfl)
  · split
    · exact raises_ok _
    · exact raises_error (.inl (.inr (h _)))

theorem raises_integer (h : ¬Role.number.Fits j → bad) : (integer j).Raises (Strays bad) := by
  unfold integer
  split
  case h_3 x =>
    split
    · exact raises_error (strays_of_detail rfl)
    · next negative =>
      exact raises_error (.inr ⟨.inr rfl, h fun hfits => hfits negative rfl⟩)
    · exact raises_ok _
  case h_4 s =>
    cases hread : Text.readDecimal s with
    | ok n => exact raises_ok _
    | error flaw =>
      cases flaw <;> exact raises_error (strays_of_detail rfl)
  case h_5 => exact raises_error (strays_of_detail rfl)
  all_goals exact raises_ok _

theorem raises_pairs (index : Nat) (js : List Json) : (pairs index js).Raises (Strays bad) := by
  induction js generalizing index with
  | nil => exact raises_ok _
  | cons x xs ih =>
    refine (raises_items x).bind fun row _ => ?_
    split
    · exact (raises_label _).bind fun _ _ => (ih _).bind fun _ _ => raises_ok _
    · exact raises_error (strays_of_detail rfl)

theorem raises_attributes (j : Json) : (attributes j).Raises (Strays bad) := by
  unfold attributes
  split
  · exact raises_ok _
  · exact (raises_items _).bind fun _ _ => (raises_pairs 0 _).bind fun _ _ => raises_ok _

theorem raises_fieldD (h : (¬∃ ms, j = .obj ms) → bad) (name : String) (default : Json) :
    (fieldD j name default).Raises (Strays bad) := by
  unfold fieldD members
  split
  · exact raises_ok _
  · next hne => exact raises_error (.inr ⟨.inl rfl, h fun ⟨ms, hms⟩ => hne ms hms⟩)

theorem of_fieldD {default : Json} (h : fieldD j name default = .ok v) :
    v = (j.get? name).getD default := by
  unfold fieldD members at h
  split at h
  · cases h
    rfl
  · cases h

/-- Only objects have fields, and a field is less deep than the object. -/
theorem of_field (h : field j name = .ok v) :
    (∃ ms, j = .obj ms) ∧ j.get? name = some v ∧ depth v < depth j := by
  unfold field at h
  split at h
  · next ms =>
    split at h
    · next hfind =>
      cases h
      obtain ⟨n, -, hn, -, -, hdepth⟩ := exists_parts Json.rewrites_id (le_refl (depth (.obj ms)))
      have := hdepth name v hfind
      exact ⟨⟨ms, rfl⟩, hfind, by simp only [id] at *; omega⟩
    · cases h
  · cases h

variable {r q : Role} {α β : Type}

theorem Raises.below {x : Except Fault α} (hpart : (q, v) ∈ r.parts j)
    (h : x.Raises (Strays (¬Shaped q v))) : x.Raises (Strays (¬Shaped r j)) :=
  h.mono fun _ hf => hf.imp fun hno hs => hno (hs.part _ hpart)

theorem raises_one_bind {read : Json → Except Fault α} {k : α → Except Fault β}
    (hparts : Role.one q j name ⊆ r.parts j)
    (hread : ∀ v, field j name = .ok v → (read v).Raises (Strays (¬Shaped q v)))
    (hk : ∀ a, (k a).Raises (Strays (¬Shaped r j))) :
    (field j name >>= fun v => read v >>= k).Raises (Strays (¬Shaped r j)) := by
  refine (raises_field j name).bind fun v hv => ?_
  have hpart : (q, v) ∈ r.parts j := hparts (by simp [Role.one, (of_field hv).2.1])
  exact (Raises.below hpart (hread v hv)).bind fun a _ => hk a

theorem raises_run_bind {read : Json → Except Fault α} {k : List α → Except Fault β}
    (hobj : (¬∃ ms, j = .obj ms) → ¬Shaped r j) (hparts : Role.run q j name ⊆ r.parts j)
    (hread : ∀ v, (read v).Raises (Strays (¬Shaped q v)))
    (hk : ∀ as, (k as).Raises (Strays (¬Shaped r j))) :
    (fieldD j name (.arr []) >>= fun v => items v >>= fun xs => xs.mapM read >>= k).Raises
      (Strays (¬Shaped r j)) := by
  refine (raises_fieldD hobj name _).bind fun v hv => (raises_items v).bind fun xs hxs => ?_
  refine Except.Raises.bind (raises_mapM fun x hx => Raises.below (hparts ?_) (hread x))
    fun as _ => hk as
  -- without the field there are no items
  rw [of_fieldD hv] at hxs
  cases hget : j.get? name with
  | none =>
    rw [hget] at hxs
    cases hxs
    cases hx
  | some v =>
    rw [hget, Option.getD_some] at hxs
    simp [Role.run, hget, hxs, Except.toOption, hx]

theorem raises_var (j : Json) : (var j).Raises (Strays (¬Shaped .var j)) := by
  have hobj : (¬∃ ms, j = .obj ms) → ¬Shaped .var j := fun hno hs => hno hs.fits
  refine (raises_fieldD hobj _ _).bind fun kind _ => ?_
  split
  · exact (raises_field _ _).bind fun _ _ => (raises_fieldD hobj _ _).bind fun _ _ =>
      (raises_fieldD hobj _ _).bind fun _ _ => raises_ok _
  · exact raises_error (.inl (.inr rfl))

/-- Expressions, where the bound leaves room for them. -/
theorem raises_exprWithin {bound : Nat} (h : depth j < bound) :
    (exprWithin bound j).Raises (Strays (¬Shaped .expr j)) := by
  induction bound generalizing j with
  | zero => omega
  | succ bound ih =>
    have hobj : (¬∃ ms, j = .obj ms) → ¬Shaped .expr j := fun hno hs => hno hs.fits
    unfold exprWithin
    refine (raises_fieldD hobj _ _).bind fun kind hkind => ?_
    have hname : ∀ s, kind.str? = some s → Role.kind j = s := by
      intro s hs
      rw [of_fieldD hkind] at hs
      cases hget : j.get? "kind" with
      | none => simp [hget, Json.str?] at hs
      | some v => simpa [Role.kind, hget] using congrArg (Option.getD · "") hs
    -- an operand is an expression of its own, with less depth
    have hsub : ∀ {name s : String}, kind.str? = some s → name ∈ Role.operands s →
        (do exprWithin bound (← field j name)).Raises (Strays (¬Shaped .expr j)) := by
      intro name s hs hmem
      refine (raises_field j name).bind fun v hv => ?_
      obtain ⟨-, hget, hdepth⟩ := of_field hv
      refine Raises.below ?_ (ih (by omega))
      rw [Role.parts, hname s hs]
      exact List.mem_append_left _ (List.mem_flatMap.mpr ⟨name, hmem, by simp [Role.one, hget]⟩)
    dsimp only
    split
    case h_1 =>
      exact Except.Raises.bind ((raises_field _ _).bind fun _ _ => (raises_fieldD hobj _ _).bind
        fun _ _ => (raises_fieldD hobj _ _).bind fun _ _ => raises_ok _) fun _ _ => raises_ok _
    case h_2 hs =>
      refine raises_one_bind (q := .number) ?_ (fun v _ => ?_) fun _ => (raises_field _ _).bind
        fun _ _ => raises_ok _
      · rw [Role.parts, hname _ hs]
        exact List.subset_append_right _ _
      · exact raises_integer fun hno hs => hno hs.fits
    case h_3 hs =>
      exact (hsub hs (by decide)).bind fun _ _ => (hsub hs (by decide)).bind fun _ _ =>
        (raises_field _ _).bind fun _ _ => (raises_fieldD hobj _ _).bind fun _ _ => raises_ok _
    case h_4 hs =>
      exact (hsub hs (by decide)).bind fun _ _ => (hsub hs (by decide)).bind fun _ _ =>
        (hsub hs (by decide)).bind fun _ _ => (raises_field _ _).bind fun _ _ =>
        (raises_fieldD hobj _ _).bind fun _ _ => raises_ok _
    case h_5 hs =>
      exact (raises_field _ _).bind fun _ _ => (raises_word (fun _ => rfl) _).bind fun _ _ =>
        (hsub hs (by decide)).bind fun _ _ => (hsub hs (by decide)).bind fun _ _ => raises_ok _
    case h_6 hs =>
      exact (raises_field _ _).bind fun _ _ => (raises_word (fun _ => rfl) _).bind fun _ _ =>
        (hsub hs (by decide)).bind fun _ _ => raises_ok _
    case h_7 hs =>
      exact (raises_field _ _).bind fun _ _ => (raises_word (fun _ => rfl) _).bind fun _ _ =>
        (raises_field _ _).bind fun _ _ => (hsub hs (by decide)).bind fun _ _ => raises_ok _
    case h_8 hs =>
      exact (hsub hs (by decide)).bind fun _ _ => (hsub hs (by decide)).bind fun _ _ =>
        (hsub hs (by decide)).bind fun _ _ => raises_ok _
    case h_9 hs =>
      exact (raises_field _ _).bind fun _ _ => (raises_field _ _).bind fun _ _ =>
        (hsub hs (by decide)).bind fun _ _ => raises_ok _
    case h_10 hs =>
      exact (hsub hs (by decide)).bind fun _ _ => (hsub hs (by decide)).bind fun _ _ => raises_ok _
    case h_11 =>
      exact (raises_field _ _).bind fun _ _ => (raises_fieldD hobj _ _).bind fun _ _ => raises_ok _
    case h_12 => exact raises_error (.inl (.inr rfl))

theorem raises_expr (j : Json) : (expr j).Raises (Strays (¬Shaped .expr j)) :=
  raises_exprWithin (Nat.lt_succ_self _)

theorem raises_definition (j : Json) : (definition j).Raises (Strays (¬Shaped .definition j)) := by
  refine (raises_field j "tid").bind fun _ htid => ?_
  have hobj : (¬∃ ms, j = .obj ms) → ¬Shaped .definition j :=
    fun hno => absurd (of_field htid).1 hno
  refine raises_one_bind (q := .var) (List.subset_append_left _ _) (fun v _ => raises_var v)
    fun _ => ?_
  refine raises_one_bind (q := .expr) (List.subset_append_right _ _) (fun v _ => raises_expr v)
    fun _ => ?_
  exact (raises_fieldD hobj _ _).bind fun _ _ => (raises_attributes _).bind fun _ _ => raises_ok _

theorem raises_jump (j : Json) : (jump j).Raises (Strays (¬Shaped .jump j)) := by
  refine (raises_field j "kind").bind fun _ hkind => ?_
  have hobj : (¬∃ ms, j = .obj ms) → ¬Shaped .jump j := fun hno => absurd (of_field hkind).1 hno
  refine (raises_word (fun _ => rfl) _).bind fun _ _ => ?_
  dsimp only
  split
  case h_1 c hcond =>
    refine (Raises.below (by simp [Role.parts, Role.one, hcond]) (raises_expr c)).bind fun _ _ => ?_
    exact (raises_field _ _).bind fun _ _ => (raises_fieldD hobj _ _).bind fun _ _ =>
      (raises_fieldD hobj _ _).bind fun _ _ => (raises_fieldD hobj _ _).bind fun _ _ =>
      (raises_attributes _).bind fun _ _ => raises_ok _
  case h_2 =>
    exact (raises_field _ _).bind fun _ _ => (raises_fieldD hobj _ _).bind fun _ _ =>
      (raises_fieldD hobj _ _).bind fun _ _ => (raises_fieldD hobj _ _).bind fun _ _ =>
      (raises_attributes _).bind fun _ _ => raises_ok _

theorem raises_argument (j : Json) : (argument j).Raises (Strays (¬Shaped .argument j)) := by
  refine (raises_field j "var").bind fun v hv => ?_
  obtain ⟨hobj, hget, -⟩ := of_field hv
  refine (Raises.below (by simp [Role.parts, Role.one, hget]) (raises_var v)).bind fun _ _ => ?_
  exact (raises_fieldD (absurd hobj) _ _).bind fun _ _ => raises_ok _

theorem raises_block (j : Json) : (block j).Raises (Strays (¬Shaped .block j)) := by
  have hobj : (¬∃ ms, j = .obj ms) → ¬Shaped .block j := fun hno hs => hno hs.fits
  refine raises_run_bind hobj (List.subset_append_left _ _) raises_definition fun _ => ?_
  refine raises_run_bind hobj (List.subset_append_right _ _) raises_jump fun _ => ?_
  exact (raises_field _ _).bind fun _ _ => (raises_fieldD hobj _ _).bind fun _ _ =>
    (raises_attributes _).bind fun _ _ => raises_ok _

theorem raises_subroutine (j : Json) : (subroutine j).Raises (Strays (¬Shaped .subroutine j)) := by
  refine (raises_field j "name").bind fun _ hname => ?_
  have hobj : (¬∃ ms, j = .obj ms) → ¬Shaped .subroutine j :=
    fun hno => absurd (of_field hname).1 hno
  refine raises_run_bind hobj (List.subset_append_left _ _) raises_block fun _ => ?_
  refine raises_run_bind hobj (List.subset_append_right _ _) raises_argument fun _ => ?_
  exact (raises_fieldD hobj _ _).bind fun _ _ => (raises_attributes _).bind fun _ _ => raises_ok _

theorem raises_symbol (j : Json) : (symbol j).Raises (Strays (¬Shaped .symbol j)) := by
  have hnumber : ∀ v, (integer v).Raises (Strays (¬Shaped .number v)) :=
    fun v => raises_integer fun hno hs => hno hs.fits
  refine (raises_field j "name").bind fun _ _ => ?_
  refine raises_one_bind (List.subset_append_left _ _) (fun v _ => hnumber v) fun _ => ?_
  exact raises_one_bind (List.subset_append_right _ _) (fun v _ => hnumber v) fun _ => raises_ok _

theorem raises_arch (j : Json) : (arch j).Raises (Strays (¬Shaped .arch j)) := by
  unfold arch
  split
  · unfold Arch.ofName
    split
    · exact raises_ok _
    · exact raises_error (.inl (.inr rfl))
  · next hne => exact raises_error (.inr ⟨.inl rfl, fun hs => hs.fits.elim fun s hs => hne s hs⟩)

/-- **Documents**: the faults of a document are caught, unless some value on the way has the wrong
shape. -/
theorem raises_program (j : Json) : (program j).Raises (Strays (¬Shaped .program j)) := by
  have hobj : (¬∃ ms, j = .obj ms) → ¬Shaped .program j := fun hno hs => hno hs.fits
  refine raises_run_bind hobj ?_ raises_subroutine fun _ => ?_
  · exact List.subset_append_of_subset_left _ (List.subset_append_left _ _)
  refine raises_run_bind hobj ?_ raises_symbol fun _ => ?_
  · exact List.subset_append_of_subset_left _ (List.subset_append_right _ _)
  exact raises_one_bind (List.subset_append_right _ _) (fun v _ => raises_arch v)
    fun _ => raises_ok _

end Readers

end Decode

/-! ## §4 Texts -/

namespace Json

/-- What can be wrong with a text: its form, or its depth. -/
def Misread (f : Fault) : Prop :=
  f.family = .value ∨ f = .deepDocument

theorem raises_readNumber (negative : Bool) (cs : List Char) :
    (readNumber negative cs).Raises Misread := by
  unfold readNumber
  dsimp only
  repeat' split
  all_goals first | exact raises_ok _ | exact raises_error (.inl rfl)

theorem raises_readText (cs : List Char) : (readText cs).Raises Misread := by
  unfold readText
  split
  · exact raises_ok _
  · exact raises_error (.inl rfl)

theorem raises_readSimple (cs : List Char) : (readSimple cs).Raises Misread := by
  unfold readSimple
  split
  · exact (raises_readText _).map
  · split
    · exact raises_ok _
    · exact raises_readNumber _ _
  · repeat' split
    all_goals first | exact raises_ok _ | exact raises_readNumber _ _

/-- Values, items and members, by the length that is left. -/
theorem raises_readValue (room fuel : Nat) (cs : List Char) :
    (readValue room fuel cs).Raises Misread ∧ (readItems room fuel cs).Raises Misread ∧
      (readMembers room fuel cs).Raises Misread := by
  -- the three readers call each other with less fuel
  induction fuel generalizing room cs with
  | zero =>
    refine ⟨?_, ?_, ?_⟩
    · rw [readValue]
      exact raises_error (.inl rfl)
    · rw [readItems]
      exact raises_error (.inl rfl)
    · rw [readMembers]
      exact raises_error (.inl rfl)
  | succ fuel ih =>
    refine ⟨?_, ?_, ?_⟩
    · unfold readValue
      split
      · exact raises_error (.inr rfl)
      · exact raises_error (.inr rfl)
      · split
        · exact raises_ok _
        · exact (ih _ _).2.1.map
      · split
        · exact raises_ok _
        · exact (ih _ _).2.2.map
      · exact raises_readSimple _
    · unfold readItems
      refine (ih _ _).1.bind fun r _ => ?_
      dsimp only
      split
      · exact raises_ok _
      · exact (ih _ _).2.1.bind fun _ _ => raises_ok _
      · exact raises_error (.inl rfl)
    · unfold readMembers
      split
      · refine (raises_readText _).bind fun r _ => ?_
        dsimp only
        split
        · refine (ih _ _).1.bind fun r _ => ?_
          split
          · exact raises_ok _
          · exact (ih _ _).2.2.bind fun _ _ => raises_ok _
          · exact raises_error (.inl rfl)
        · exact raises_error (.inl rfl)
      · exact raises_error (.inl rfl)

theorem raises_parse (s : String) : (parse s).Raises Misread := by
  refine (raises_readValue _ _ _).1.bind fun r _ => ?_
  dsimp only
  split
  · exact raises_ok _
  · exact raises_error (.inl rfl)

end Json

/-- Keys without an order are values of the wrong type. -/
theorem Label.raises_before (a b : Label) : (a.before b).Raises (· = .wrongType) := by
  unfold before
  repeat' split
  all_goals first | exact raises_ok _ | exact raises_error rfl

theorem Label.raises_sortBy {α : Type} {before : α → α → Except Fault Bool} {S : Fault → Prop}
    (h : ∀ x y, (before x y).Raises S) (xs : List α) : (sortBy before xs).Raises S := by
  have hinsert : ∀ (x : α) (ys : List α), (insertBy before x ys).Raises S := by
    intro x ys
    induction ys with
    | nil => exact raises_ok _
    | cons y ys ih =>
      refine (h y x).bind fun b _ => ?_
      split
      · exact ih.bind fun _ _ => raises_ok _
      · exact raises_ok _
  induction xs with
  | nil => exact raises_ok _
  | cons x xs ih => exact ih.bind fun _ _ => hinsert x _

mutual
/-- The keys of a document have an order, or are values of the wrong type. -/
theorem Json.raises_sortKeys (j : Json) : j.sortKeys.Raises (· = .wrongType) := by
  unfold sortKeys
  split
  · exact (raises_sortItems _).bind fun _ _ => raises_ok _
  · exact (raises_sortMembers _).bind fun _ _ =>
      (Label.raises_sortBy (fun _ _ => Label.raises_before _ _) _).bind fun _ _ => raises_ok _
  · exact raises_ok _
theorem Json.raises_sortItems (js : List Json) : (sortItems js).Raises (· = .wrongType) := by
  unfold sortItems
  split
  · exact raises_ok _
  · exact (raises_sortKeys _).bind fun _ _ => (raises_sortItems _).bind fun _ _ => raises_ok _
theorem Json.raises_sortMembers (ms : List (Label × Json)) :
    (sortMembers ms).Raises (· = .wrongType) := by
  unfold sortMembers
  split
  · exact raises_ok _
  · exact (raises_sortKeys _).bind fun _ _ => (raises_sortMembers _).bind fun _ _ => raises_ok _
end

/-! ## §5 Loading -/

/-- A document breaks its reader with a fault that is not turned into an announced one. -/
def Decode.Breaks (j : Json) (f : Fault) : Prop :=
  (f = .notAnObject ∨ f = .infiniteInteger) ∧ ¬Shaped .program j

namespace Cache

/-- Bytes that break their reader: they are nested too deep, or their document breaks its reader. -/
def EntryBreaks (bytes : ByteArray) (f : Fault) : Prop :=
  ∃ text, Text.decode? bytes = some text ∧
    (f = .deepDocument ∧ Json.parse text = .error f ∨
      ∃ j, Json.parse text = .ok j ∧ Decode.Breaks j f)

theorem detail_of_value (h : f.family = .value) : (documentDetail? f).isSome = true := by
  simp [documentDetail?, h]

/-- An entry is a program, or gives an announced fault, or breaks its reader. -/
theorem raises_decode (area : String) (bytes : ByteArray) :
    (decode area bytes).Raises fun f => f.isAnnounced = true ∨ EntryBreaks bytes f := by
  unfold decode
  dsimp only
  -- an entry may fail as text, as a document and as a program, one after the other
  cases htext : Text.decode? bytes with
  | none => exact raises_error (.inl rfl)
  | some text =>
    dsimp only
    cases hparse : Json.parse text with
    | error f =>
      simp only [bind, Except.bind]
      split
      · exact raises_error (.inl rfl)
      · next hnone =>
        refine raises_error (.inr ⟨text, htext, .inl ?_⟩)
        rcases Json.raises_parse text f hparse with hvalue | hdeep
        · simpa [hnone] using detail_of_value hvalue
        · exact ⟨hdeep, hparse⟩
    | ok j =>
      simp only [bind, Except.bind]
      cases hprogram : Decode.program j with
      | ok p => exact raises_ok _
      | error f =>
        dsimp only
        split
        · exact raises_error (.inl rfl)
        · next hnone =>
          rcases Decode.raises_program j f hprogram with (hdetail | hsaid) | hstray
          · simp [hnone] at hdetail
          · exact raises_error (.inl hsaid)
          · exact raises_error (.inr ⟨text, htext, .inr ⟨j, hparse, hstray⟩⟩)

/-- The store of entries, the files and the lifter give announced faults only. -/
structure Context.Announces {σ : Type} (ctx : Context σ) : Prop where
  load : ∀ area digest s, (ctx.backend.load area digest).Fails s (·.isAnnounced = true)
  save : ∀ area digest bytes s, (ctx.backend.save area digest bytes).Fails s (·.isAnnounced = true)
  lift : ∀ file s, (ctx.lift file).Fails s (·.isAnnounced = true)
  contents : ∀ file s, (ctx.contents file).Fails s (·.isAnnounced = true)

namespace Context

variable {σ : Type}

/-- Where reading a file gets to from a state: it has found out what the file's entries are called,
and has missed those of all areas but some. -/
inductive Reaches (ctx : Context σ) (file : String) (s : σ) : List String → String → σ → Prop where
  | start {subject : String} {s' : σ} : (Cache.subject ctx file).Ends s subject s' →
      Reaches ctx file s [knowledgeArea, projectArea] subject s'
  | miss {area subject : String} {areas : List String} {s1 s2 : σ} :
      Reaches ctx file s (area :: areas) subject s1 →
      (ctx.backend.load area (areaDigest ctx subject area)).Ends s1 none s2 →
      Reaches ctx file s areas subject s2

variable (ctx : Context σ) (file : String) (s : σ)

/-- The entry that reading a file from a state loads. -/
def Loads (area : String) (bytes : ByteArray) : Prop :=
  ∃ areas subject s1 s2, ctx.Reaches file s (area :: areas) subject s1 ∧
    (ctx.backend.load area (areaDigest ctx subject area)).Ends s1 (some bytes) s2

/-- The document that reading a file from a state gets from the lifter. -/
def Lifts (j : Json) : Prop :=
  ∃ subject s1 s2, ctx.Reaches file s [] subject s1 ∧ (ctx.lift file).Ends s1 j s2

/-- The programs that reading a file from a state writes entries for: the stripped form of a program
that was not stripped yet, and this program itself if it was lifted. -/
def Keeps (p : Program) : Prop :=
  (∃ bytes raw, ctx.Loads file s projectArea bytes ∧ decode projectArea bytes = .ok raw ∧
    p = raw.strip) ∨
  ∃ j raw, ctx.Lifts file s j ∧ Decode.program j = .ok raw ∧ (p = raw ∨ p = raw.strip)

/-- How reading a file from a state can break down: the entry that it loads or the document that it
lifts breaks its reader, or the keys of some object have no order when a program is to be kept. -/
def Breaks (f : Fault) : Prop :=
  (∃ area bytes, ctx.Loads file s area bytes ∧ EntryBreaks bytes f) ∨
  (∃ j, ctx.Lifts file s j ∧ Decode.Breaks j f) ∨
  f = .wrongType ∧ ∃ p, ctx.Keeps file s p ∧ encode p = .error f

end Context

section Reading

variable {σ : Type} {ctx : Context σ} (hctx : ctx.Announces) (file : String) (s : σ)

/-- A program that is lifted was read from the document of the lifter. -/
theorem exists_of_lifted {s' : σ} {p : Program} (h : (lifted ctx file).Ends s p s') :
    ∃ j τ, (ctx.lift file).Ends s j τ ∧ Decode.program j = .ok p := by
  suffices hinner : (do Decode.program (← ctx.lift file) : Run σ Program).Ends s p s' by
    obtain ⟨j, τ, hj, hp⟩ := ExceptT.ends_bind.mp hinner
    exact ⟨j, τ, hj, (ExceptT.ends_lift.mp hp).1⟩
  unfold ExceptT.Ends at h ⊢
  rw [lifted, ExceptT.run_mk, StateT.run_bind, Id.run_bind] at h
  generalize Id.run (StateT.run (ExceptT.run _) s) = r at h ⊢
  rcases r with ⟨g | q, τ⟩
  · cases hdetail : documentDetail? g with
    | some detail =>
      simp only [hdetail] at h
      cases h
    | none =>
      simp only [hdetail] at h
      cases h
  · exact h

include hctx

/-- Lifting gives a program, or an announced fault, or a document that breaks its reader. -/
theorem fails_lifted : (lifted ctx file).Fails s fun f =>
    f.isAnnounced = true ∨ ∃ j s', (ctx.lift file).Ends s j s' ∧ Decode.Breaks j f := by
  have hinner : (do Decode.program (← ctx.lift file) : Run σ Program).Fails s fun f =>
      f.IsCaught ∨ ∃ j s', (ctx.lift file).Ends s j s' ∧ Decode.Breaks j f := by
    refine ((hctx.lift file s).mono fun f hf => .inl (.inr hf)).bind fun j s' hj => ?_
    refine ExceptT.fails_lift ((Decode.raises_program j).mono fun f hf => ?_)
    exact hf.imp_right fun hstray => ⟨j, s', hj, hstray⟩
  intro f s' hf
  unfold ExceptT.Fails at hinner
  rw [lifted, ExceptT.run_mk, StateT.run_bind, Id.run_bind] at hf
  -- what the lifter and the reader do is one result, which is looked at afterwards
  generalize Id.run (StateT.run (ExceptT.run _) s) = r at hinner hf
  rcases r with ⟨g | p, τ⟩
  · cases hdetail : documentDetail? g with
    | some detail =>
      simp only [hdetail] at hf
      cases hf
      exact .inl rfl
    | none =>
      simp only [hdetail] at hf
      cases hf
      exact (hinner f _ rfl).imp_left fun hcaught => hcaught.resolve_left (by simp [hdetail])
  · cases hf

variable {s} in
/-- Keeping a program fails with announced faults only, if its keys have an order. -/
theorem fails_keep {p : Program} (hp : ctx.Keeps file s p) (area digest : String) (s' : σ) :
    (do ctx.backend.save area digest (← encode p) : Run σ Unit).Fails s' fun f =>
      f.isAnnounced = true ∨ ctx.Breaks file s f := by
  refine ExceptT.Fails.bind (ExceptT.fails_lift fun f hf => ?_) fun bytes τ _ =>
    (hctx.save area digest bytes τ).mono fun f => .inl
  have hkeys : f = .wrongType :=
    (Json.raises_sortKeys _).bind (fun _ _ => raises_ok _) f hf
  exact .inr (.inr (.inr ⟨hkeys, p, hp, hf⟩))

theorem fails_readProgram :
    (readProgram ctx file).Fails s fun f => f.isAnnounced = true ∨ ctx.Breaks file s f := by
  have hload : ∀ area digest s', (ctx.backend.load area digest).Fails s' fun f =>
      f.isAnnounced = true ∨ ctx.Breaks file s f :=
    fun area digest s' => (hctx.load area digest s').mono fun _ => .inl
  -- an entry that is loaded is read, or gives a fault of its own
  have hdecode : ∀ {area bytes} {s' : σ}, ctx.Loads file s area bytes →
      (liftM (decode area bytes) : Run σ Program).Fails s' fun f =>
        f.isAnnounced = true ∨ ctx.Breaks file s f := fun hloads =>
    ExceptT.fails_lift ((raises_decode _ _).mono fun f hf =>
      hf.imp_right fun hbreaks => .inl ⟨_, _, hloads, hbreaks⟩)
  unfold readProgram
  refine ExceptT.Fails.bind ?_ fun subject s1 hsubject => ?_
  · refine ExceptT.Fails.bind (ExceptT.Fails.bind ((hctx.contents file s).mono fun _ => .inl)
      fun _ _ _ => ExceptT.fails_pure _) fun _ _ _ => ExceptT.fails_pure _
  have hstart := Context.Reaches.start hsubject
  refine (hload _ _ _).bind fun entry s2 hends => ?_
  cases entry with
  | some bytes => exact hdecode ⟨_, _, _, _, hstart, hends⟩
  | none =>
    have hmissed := hstart.miss hends
    dsimp only
    refine (hload _ _ _).bind fun entry s3 hends => ?_
    -- whatever the program came from, its stripped form is kept and returned
    have hrest : ∀ raw : Program, ctx.Keeps file s raw.strip → ∀ area digest s', (do
        ctx.backend.save area digest (← encode raw.strip)
        return raw.strip : Run σ Program).Fails s' fun f =>
          f.isAnnounced = true ∨ ctx.Breaks file s f := by
      intro raw hraw area digest s'
      have hkeep := fails_keep hctx file hraw area digest s'
      simpa only [bind_assoc] using hkeep.bind fun _ _ _ => ExceptT.fails_pure raw.strip
    cases entry with
    | some bytes =>
      have hloads : ctx.Loads file s projectArea bytes := ⟨_, _, _, _, hmissed, hends⟩
      refine ExceptT.Fails.bind (hdecode hloads) fun raw _ hraw => hrest raw (.inl ?_) _ _ _
      exact ⟨bytes, raw, hloads, (ExceptT.ends_lift.mp hraw).1, rfl⟩
    | none =>
      have hreaches := hmissed.miss hends
      dsimp only
      refine ((fails_lifted hctx file s3).mono fun f hf => ?_).bind fun raw s4 hraw => ?_
      · exact hf.imp_right fun ⟨j, s', hj, hbreaks⟩ =>
          .inr (.inl ⟨j, ⟨_, _, _, hreaches, hj⟩, hbreaks⟩)
      obtain ⟨j, τ, hj, hraw⟩ := exists_of_lifted file s3 hraw
      have hkeeps : ∀ p, p = raw ∨ p = raw.strip → ctx.Keeps file s p := fun p hp =>
        .inr ⟨j, raw, ⟨_, _, _, hreaches, hj⟩, hraw, hp⟩
      have hkeep := fails_keep hctx file (hkeeps raw (.inl rfl)) projectArea
      simpa only [bind_assoc, pure_bind] using
        (hkeep _ _).bind fun _ _ _ => hrest raw (hkeeps _ (.inr rfl)) _ _ _

end Reading

/-- A store that answers everything with one entry and takes what it is given. -/
def still (entry : Option ByteArray) (document : Json) : Context Unit where
  backend := { load := fun _ _ => pure entry, save := fun _ _ _ => pure () }
  loader := "lifter"
  lift := fun _ => pure document
  contents := fun _ => pure ⟨#[]⟩
  digest := fun _ => ""
  configuration := ""

theorem announces_still (entry : Option ByteArray) (document : Json) :
    (still entry document).Announces :=
  ⟨fun _ _ _ => ExceptT.fails_pure _, fun _ _ _ _ => ExceptT.fails_pure _,
    fun _ _ => ExceptT.fails_pure _, fun _ _ => ExceptT.fails_pure _⟩

theorem readProgram_brackets :
    Id.run ((readProgram (still (some "[]".toUTF8) .null) "f").run.run ()) =
      (.error .notAnObject, ()) := by
  have htext : Text.decode? "[]".toUTF8 = some "[]" := by decide +kernel
  have hdecode : decode knowledgeArea "[]".toUTF8 = .error .notAnObject := by
    rw [decode, htext]
    rfl
  change (decode knowledgeArea "[]".toUTF8, ()) = _
  rw [hdecode]

/-- A document with an unknown architecture does not break its reader. -/
theorem not_breaks_still (f : Fault) :
    ¬(still none (.obj [("arch", .str "vax")])).Breaks "f" () f := by
  have hparts : Decode.Role.parts .program (.obj [("arch", .str "vax")]) =
      [(.arch, .str "vax")] := by
    rfl
  have hprogram : (Decode.program (.obj [("arch", .str "vax")])).isOk = false := by rfl
  rintro (⟨area, bytes, ⟨_, _, _, _, -, hload⟩, -⟩ | ⟨j, ⟨_, _, _, -, hlift⟩, -, hshape⟩ |
    ⟨-, p, ⟨bytes, raw, ⟨_, _, _, _, -, hload⟩, -⟩ | ⟨j, raw, ⟨_, _, _, -, hlift⟩, hraw, -⟩, -⟩)
  · cases (ends_pure.mp hload).1
  · obtain ⟨rfl, rfl⟩ := ends_pure.mp hlift
    refine hshape (.mk ⟨_, rfl⟩ ?_)
    rw [hparts]
    exact List.forall_mem_singleton.mpr (.mk ⟨_, rfl⟩ nofun)
  · cases (ends_pure.mp hload).1
  · obtain ⟨rfl, rfl⟩ := ends_pure.mp hlift
    simp [hraw, Except.isOk, Except.toBool] at hprogram

end Cache

end Antecedent
