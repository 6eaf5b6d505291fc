import Mathlib.Data.List.Infix
import Antecedent.Proofs.Entry
import Antecedent.Proofs.Naming

/-!
# Two environments with one supply

Of two environments that share a supply of numbers one is plain and one is freshened, and builders
run in either, in any order.  All names of the freshened one end in a suffix; as long as no name
that the code on the plain side mentions does, the two never share a name.

* `Twin.introduced_disjoint` says that the two sides share no name.
* `Twin.not_disjoint_of_marked` is the reason for its hypothesis.
-/

namespace Antecedent

open ExceptT (Preserves preserves_pure ends_pure)

/-! ## §1 Names with the suffix -/

/-- Whether a name ends in the suffix of freshened names. -/
def Label.Marked (l : Label) : Prop :=
  ∃ s, l = .text (s ++ Environment.freshSuffix)

/-- Whether a name may be mentioned on the plain side: it neither ends in the suffix nor is the
suffix without its first letter, which what is put before a name would complete. -/
def Label.Plain (l : Label) : Prop :=
  ¬l.Marked ∧ l ≠ .text "mod"

namespace Label

theorem marked_text_iff {s : String} :
    (Label.text s).Marked ↔ Environment.freshSuffix.toList <:+ s.toList := by
  constructor
  · rintro ⟨u, hu⟩
    rw [Label.text.inj hu, String.toList_append]
    exact List.suffix_append _ _
  · rintro ⟨u, hu⟩
    refine ⟨String.ofList u, ?_⟩
    rw [Label.text.injEq, ← String.toList_inj, ← hu, String.toList_append, String.toList_ofList]

/-- What is put before a plain name does not mark it, unless it does so to the last letters of the
suffix. -/
theorem Plain.not_marked_append {mark s : String} (h : (Label.text s).Plain)
    (hmark : ∀ cs ∈ [['o', 'd'], ['d'], []],
      ¬Environment.freshSuffix.toList <:+ mark.toList ++ cs) :
    ¬(Label.text (mark ++ s)).Marked := by
  obtain ⟨hs, hne⟩ := h
  rw [marked_text_iff] at hs ⊢
  rw [String.toList_append]
  intro hall
  rcases List.suffix_or_suffix_of_suffix hall (List.suffix_append mark.toList s.toList) with h | h
  · exact hs h
  · have htails : s.toList ∈
        [Environment.freshSuffix.toList, "mod".toList, ['o', 'd'], ['d'], []] :=
      (List.mem_tails _ _).mpr h
    rcases List.mem_cons.mp htails with hlong | hshort
    · exact hs (hlong ▸ List.suffix_rfl)
    · rcases List.mem_cons.mp hshort with hmod | hshort
      · exact hne (congrArg Label.text (String.toList_inj.mp hmod))
      · exact hmark _ hshort hall

/-- A name that ends in a number is not marked. -/
theorem not_marked_number (stem : String) (n : Nat) : ¬(Label.text s!"{stem}_{n}").Marked := by
  have hdigits : (toString n).toList = Nat.toDigits 10 n := by
    rw [Nat.toString_eq_ofList_toDigits, String.toList_ofList]
  obtain ⟨c, hc, hdigit⟩ : ∃ c, (toString n).toList.getLast? = some c ∧ c.isDigit = true := by
    rw [hdigits]
    refine ⟨_, List.getLast?_eq_some_getLast Nat.toDigits_ne_nil, ?_⟩
    exact Nat.isDigit_of_mem_toDigits (by decide) le_rfl (List.getLast_mem _)
  rw [marked_text_iff]
  rintro ⟨u, hu⟩
  have hd : s!"{stem}_{n}".toList.getLast? = some 'd' := by
    rw [← hu]
    simp [Environment.freshSuffix]
  have hn : s!"{stem}_{n}".toList.getLast? = some c := by
    change (stem ++ "_" ++ toString n).toList.getLast? = some c
    rw [String.toList_append, List.getLast?_append, hc]
    rfl
  obtain rfl : 'd' = c := Option.some.inj (hd.symm.trans hn)
  exact absurd hdigit (by decide)

end Label

/-! ## §2 The names of either side -/

/-- On the plain side plain names are mentioned, and the names introduced do not end in the
suffix. -/
def Naming.plain (e : Environment) : Naming where
  arch := e.arch
  subs := e.subs
  freshened := false
  mentioned := Label.Plain
  introduced l := ¬l.Marked

/-- On the freshened side all names may be mentioned, and the names introduced end in the suffix. -/
def Naming.marked (e : Environment) : Naming where
  arch := e.arch
  subs := e.subs
  freshened := true
  mentioned _ := True
  introduced := Label.Marked

theorem Naming.sound_plain {e : Environment} (h : ∀ l, e.Mentions l → l.Plain) :
    (Naming.plain e).Sound := by
  -- a plain name is its base name
  have hadmits : ∀ base : Label, ¬base.Marked → (Naming.plain e).Admits base := by
    intro base hbase e' n hfresh hn
    have hplain : e'.freshened = false := hfresh
    unfold Environment.localName at hn
    rw [hplain] at hn
    obtain rfl : base = n := Except.ok.inj hn
    exact hbase
  exact {
    var := fun l hl => hadmits l hl.1
    init := fun s hs => hadmits _ (hs.not_marked_append (by decide))
    called := fun s hs => hadmits _ (hs.not_marked_append (by decide))
    fresh := fun stem n => hadmits _ (Label.not_marked_number stem n)
    register := fun r w hr => h _ (.inl ⟨r, w, hr, rfl⟩)
    memory := h _ (.inr (.inl rfl))
    subs := fun s hs l hl => h l (.inr (.inr ⟨s, hs, hl⟩)) }

theorem Naming.sound_marked (e : Environment) : (Naming.marked e).Sound := by
  have hadmits : ∀ base : Label, (Naming.marked e).Admits base := by
    intro base e' n hfresh hn
    have hmarked : e'.freshened = true := hfresh
    unfold Environment.localName at hn
    rw [hmarked] at hn
    cases base with
    | text s => exact ⟨s, (Except.ok.inj hn).symm⟩
    | _ => cases hn
  exact ⟨fun l _ => hadmits l, fun s _ => hadmits _, fun s _ => hadmits _, fun _ _ => hadmits _,
    fun _ _ _ => trivial, trivial, fun _ _ _ _ => trivial⟩

theorem Naming.Sound.seeded {N : Naming} (hN : N.Sound) {e f : Environment}
    (h : e.seeded = .ok f) (he : N.Kept { env := e }) (supply : Supply) :
    N.Kept { supply, env := f } := by
  obtain ⟨labels, -, h⟩ := bind_eq_ok.mp h
  have hseed := hN.seed { env := e } he
  change (match Id.run (Build.seed.run.run { env := e }) with
    | (.ok _, s) => Except.ok s.env
    | (.error f, _) => Except.error f) = .ok f at h
  revert hseed h
  rcases Id.run (Build.seed.run.run { env := e }) with ⟨r | a, σ⟩
  · intro _ h
    cases h
  · intro hseed h
    obtain rfl : σ.env = f := Except.ok.inj h
    exact hseed

/-! ## §3 Operations -/

inductive Operation where
  | getVar (v : Var)
  | getInit (v : Var)
  | callFlag (callee : String)
  | fresh (stem : String) (width : Json)
  | freshMemory (stem : String)
  | precondition (post : Constraint) (sub : Sub)

namespace Operation

def act : Operation → Build Unit
  | .getVar v => discard (Build.getVar v)
  | .getInit v => discard (Build.getInit v)
  | .callFlag callee => discard (Build.callFlag callee)
  | .fresh stem width => discard (Build.fresh stem width)
  | .freshMemory stem => discard (Build.freshMemory stem)
  | .precondition post sub => discard (Antecedent.precondition post sub)

def Mentions : Operation → Label → Prop
  | .getVar v, l => v.name.label = .ok l
  | .getInit v, l => v.name.label = .ok l
  | .callFlag callee, l => l = .text callee
  | .fresh _ _, _ => False
  | .freshMemory _, _ => False
  | .precondition _ sub, l => sub.Mentions l

/-- **One operation keeps the names.** -/
theorem preserves_act {N : Naming} (hN : N.Sound) {op : Operation}
    (h : ∀ l, op.Mentions l → N.mentioned l) : op.act.Preserves N.Kept := by
  cases op with
  | getVar v => exact (hN.getVar h).map _
  | getInit v => exact (hN.getInit h).map _
  | callFlag callee => exact (hN.callFlag (h _ rfl)).map _
  | fresh stem width => exact (hN.freshWord stem width).map _
  | freshMemory stem => exact (hN.freshMemory stem).map _
  | precondition post sub => exact (hN.precondition post h).map _

end Operation

namespace Twin

/-- One operation in the first or in the second environment; what it did before a fault stays. -/
def step (t : Twin) : Operation ⊕ Operation → Twin
  | .inl op => (Id.run ((onFirst op.act).run.run t)).2
  | .inr op => (Id.run ((onSecond op.act).run.run t)).2

def after (t : Twin) (ops : List (Operation ⊕ Operation)) : Twin :=
  ops.foldl step t

variable {M N : Naming}

def Kept (M N : Naming) (t : Twin) : Prop :=
  M.Kept { supply := t.supply, env := t.first } ∧ N.Kept { supply := t.supply, env := t.second }

theorem Kept.step {t : Twin} (h : t.Kept M N) (hM : M.Sound) (hN : N.Sound)
    {op : Operation ⊕ Operation} (hfirst : ∀ o, op = .inl o → ∀ l, o.Mentions l → M.mentioned l)
    (hsecond : ∀ o, op = .inr o → ∀ l, o.Mentions l → N.mentioned l) : (t.step op).Kept M N := by
  obtain ⟨h1, h2⟩ := h
  cases op with
  | inl o => exact ⟨Operation.preserves_act hM (hfirst o rfl) _ h1, h2⟩
  | inr o => exact ⟨h1, Operation.preserves_act hN (hsecond o rfl) _ h2⟩

/-- **Any sequence of operations keeps the names of both sides.** -/
theorem Kept.after {t : Twin} (h : t.Kept M N) (hM : M.Sound) (hN : N.Sound)
    {ops : List (Operation ⊕ Operation)}
    (hfirst : ∀ o, .inl o ∈ ops → ∀ l, o.Mentions l → M.mentioned l)
    (hsecond : ∀ o, .inr o ∈ ops → ∀ l, o.Mentions l → N.mentioned l) : (t.after ops).Kept M N := by
  induction ops generalizing t with
  | nil => exact h
  | cons op ops ih =>
    refine ih (h.step hM hN ?_ ?_) (fun o ho => hfirst o (List.mem_cons_of_mem _ ho))
      fun o ho => hsecond o (List.mem_cons_of_mem _ ho)
    · rintro o rfl
      exact hfirst o (List.mem_cons_self ..)
    · rintro o rfl
      exact hsecond o (List.mem_cons_self ..)

/-! ## §4 Disjoint names -/

/-- **Freshening keeps the two sides apart**: if no register, variable or function that the plain
side mentions has a name that ends in the suffix or completes it, then after every sequence of
operations on either side all names of the freshened side end in the suffix, and the plain side has
none of them. -/
theorem introduced_disjoint {e1 e2 f1 f2 : Environment} (hplain : e1.freshened = false)
    (hnew : e1.introduced = []) (h1 : e1.seeded = .ok f1) (h2 : e2.freshen = .ok f2)
    (supply : Supply) (ops : List (Operation ⊕ Operation))
    (hmentions : ∀ l, (e1.Mentions l ∨ ∃ op, .inl op ∈ ops ∧ op.Mentions l) → l.Plain) :
    (∀ n ∈ ((Twin.mk supply f1 f2).after ops).second.introduced, n.Marked) ∧
      ∀ n ∈ ((Twin.mk supply f1 f2).after ops).first.introduced,
        n ∉ ((Twin.mk supply f1 f2).after ops).second.introduced := by
  have hfirst := Naming.sound_plain fun l hl => hmentions l (.inl hl)
  have hsecond := Naming.sound_marked e2
  have hstart : (Twin.mk supply f1 f2).Kept (.plain e1) (.marked e2) :=
    ⟨hfirst.seeded h1 ⟨⟨rfl, rfl, hplain⟩, by simp [hnew]⟩ supply,
      hsecond.seeded h2 ⟨⟨rfl, rfl, rfl⟩, by simp⟩ supply⟩
  obtain ⟨⟨-, hunmarked⟩, ⟨-, hmarked⟩⟩ := hstart.after hfirst hsecond
    (fun o ho l hl => hmentions l (.inr ⟨o, ho, hl⟩)) fun _ _ _ _ => trivial
  exact ⟨hmarked, fun n hn hn' => hunmarked n hn (hmarked n hn')⟩

def smallArch : Arch where
  name := "small"
  addressWidth := 8
  registers := [("a", 8)]

/-- The environment of the target, plain or freshened, with its constants. -/
def smallEnv (fresh : Bool) (bases : List (String × Srt)) : Environment where
  arch := smallArch
  freshened := fresh
  vars := bases.map fun (base, srt) =>
    (.text base, .const (.text (if fresh then base ++ "_mod" else base)) srt)
  introduced := (bases.map fun (base, _) => .text (if fresh then base ++ "_mod" else base)).reverse

theorem seeded_smallEnv (fresh : Bool) :
    (smallEnv fresh []).seeded = .ok (smallEnv fresh [("a", .bits 8), ("mem", .memory 8)]) := by
  cases fresh <;> rfl

theorem freshen_smallEnv : (smallEnv false []).freshen =
    .ok (smallEnv true [("a", .bits 8), ("mem", .memory 8)]) :=
  seeded_smallEnv true

/-- A subroutine that calls a function and keeps its result in a variable. -/
def smallSub : Sub where
  name := .str "f"
  blks := [
    { tid := .str "head"
      jmps := [{ tid := .str "c", kind := .call, target := .str "g", returnTo := .str "tail" }] },
    { tid := .str "tail"
      defs := [{ tid := .str "d", lhs := { name := .str "b", width := .int 8 }
                 rhs := .var { name := .str "a", width := .int 8 } }]
      jmps := [{ tid := .str "r", kind := .ret }] }]

/-- The register and its entry value, a new word, a flag, and the subroutine on both sides. -/
def smallOperations : List (Operation ⊕ Operation) :=
  [.inl (.getInit { name := .str "a", width := .int 8 }), .inl (.fresh "call" (.int 8)),
    .inr (.fresh "call" (.int 8)), .inl (.precondition default smallSub),
    .inr (.precondition default smallSub), .inr (.callFlag "a_mod"),
    .inr (.getVar { name := .str "init_mod", width := .int 8 })]

theorem mentions_smallSub {l : Label} (h : smallSub.Mentions l) :
    l = .text "a" ∨ l = .text "b" ∨ l = .text "g" := by
  rcases h with ⟨v, hv, hl⟩ | ⟨a, ha, -⟩ | ⟨b, hb, j, hj, hkind, name, hname, rfl⟩
  · have hvars : v = { name := .str "b", width := .int 8 } ∨
        v = { name := .str "a", width := .int 8 } := by
      simpa [Sub.vars, Blk.vars, smallSub, Expr.vars, Expr.always] using hv
    rcases hvars with rfl | rfl
    · exact .inr (.inl (Except.ok.inj hl).symm)
    · exact .inl (Except.ok.inj hl).symm
  · cases ha
  · simp only [smallSub, List.mem_cons, List.not_mem_nil, or_false] at hb
    rcases hb with rfl | rfl
    · obtain rfl := List.mem_singleton.mp hj
      exact .inr (.inr (congrArg Label.text (Except.ok.inj hname).symm))
    · obtain rfl := List.mem_singleton.mp hj
      cases hkind

/-- Operations of all kinds on two environments of the target. -/
theorem introduced_disjoint_small :
    (smallEnv false []).freshened = false ∧ (smallEnv false []).introduced = [] ∧
      ∃ f1 f2, (smallEnv false []).seeded = .ok f1 ∧ (smallEnv false []).freshen = .ok f2 ∧
        (∀ l, ((smallEnv false []).Mentions l ∨
          ∃ op, .inl op ∈ smallOperations ∧ op.Mentions l) → l.Plain) ∧
        ∀ n ∈ ((Twin.mk {} f1 f2).after smallOperations).first.introduced,
          n ∉ ((Twin.mk {} f1 f2).after smallOperations).second.introduced := by
  -- no name of the example ends in the suffix
  have hplain : ∀ s ∈ ["a", "b", "g", "mem"], (Label.text s).Plain := by
    simp only [Label.Plain, Label.marked_text_iff]
    decide
  have hmentions : ∀ l, ((smallEnv false []).Mentions l ∨
      ∃ op, .inl op ∈ smallOperations ∧ op.Mentions l) → l.Plain := by
    rintro l ((⟨r, w, hr, rfl⟩ | rfl | ⟨s, hs, -⟩) | ⟨op, hop, hl⟩)
    · obtain rfl : r = "a" := by
        by_contra hne
        simp [smallEnv, smallArch, Arch.width?, List.lookup_cons, beq_false_of_ne hne] at hr
      exact hplain "a" (by decide)
    · exact hplain "mem" (by decide)
    · cases hs
    · simp only [smallOperations, List.mem_cons, Sum.inl.injEq, reduceCtorEq, List.not_mem_nil,
        or_false, false_or] at hop
      rcases hop with rfl | rfl | rfl
      · obtain rfl : .text "a" = l := Except.ok.inj hl
        exact hplain "a" (by decide)
      · cases hl
      · rcases mentions_smallSub hl with rfl | rfl | rfl
        · exact hplain "a" (by decide)
        · exact hplain "b" (by decide)
        · exact hplain "g" (by decide)
  exact ⟨rfl, rfl, _, _, seeded_smallEnv false, freshen_smallEnv, hmentions,
    (introduced_disjoint rfl rfl (seeded_smallEnv false) freshen_smallEnv {} smallOperations
      hmentions).2⟩

/-- **A plain variable can be taken for a freshened one**: the name of the second side's register is
that of a variable on the first side. -/
theorem not_disjoint_of_marked :
    ∃ (e f1 f2 : Environment) (op : Operation), e.freshened = false ∧ e.introduced = [] ∧
      e.seeded = .ok f1 ∧ e.freshen = .ok f2 ∧
      ∃ n, n ∈ ((Twin.mk {} f1 f2).after [.inl op]).first.introduced ∧
        n ∈ ((Twin.mk {} f1 f2).after [.inl op]).second.introduced :=
  ⟨smallEnv false [], _, _, .getVar { name := .str "a_mod", width := .int 8 }, rfl, rfl,
    seeded_smallEnv false, freshen_smallEnv, .text "a_mod", .head _, .tail _ (.head _)⟩

end Twin

end Antecedent
