import Antecedent.Proofs.Reflexivity

/-!
# The stack of a run

The hypothesis about the stack pointer is computed in words of the pointer's width.  It says that
the pointer is an address of the stack as long as the stack does not reach below zero.

* `StackRange.holds_iff_contains` says for which stacks the hypothesis means the range.
* `stackInRange_iff_contains` is about the analyses that make the hypothesis.
-/

namespace Antecedent

variable {o : Options} {σ σ' : Session} {v : Var} {e e' : Environment} {w : Nat} {c : Constraint}

/-! ## §1 Stacks that options give -/

/-- A natural number that was read is not negative. -/
theorem Options.nonneg_of_readNatural? {j : Json} {n : Int} (h : readNatural? j = .ok (some n)) :
    0 ≤ n := by
  unfold readNatural? at h
  split at h
  · cases h
  · obtain ⟨m, -, h⟩ := bind_eq_ok.mp h
    split at h
    · next hm =>
      cases h
      exact hm
    · cases h

theorem Options.pos_of_readPositive? {j : Json} {n : Int} (h : readPositive? j = .ok (some n)) :
    0 < n := by
  unfold readPositive? at h
  split at h
  · cases h
  · obtain ⟨m, -, h⟩ := bind_eq_ok.mp h
    split at h
    · next hm =>
      cases h
      exact hm
    · cases h

/-- A field that is optional has been read, or there is nothing in it. -/
theorem Options.read_of_checkField {α : Type} {ms : List (Label × Json)} {name : String}
    {read : Reader (Option α)} {is : List Issue} {a : α}
    (h : ((checkField ms name none read).run is).1 = some a) : ∃ j, read j = .ok (some a) := by
  unfold checkField at h
  split at h
  · cases h
  · next j _ =>
    split at h
    · next b hb =>
      refine ⟨j, ?_⟩
      rw [hb]
      exact congrArg Except.ok h
    · cases h

structure StackRange.Sensible (r : StackRange) : Prop where
  base : 0 ≤ r.base
  size : 0 < r.size

/-- **Options that are accepted give a sensible stack**, whichever bounds are left to the
defaults. -/
theorem Options.sensible_stack {ms : List (Label × Json)} {d : StackRange}
    (h : ofMembers ms = .ok o) (hd : d.Sensible) : (o.stack d).Sensible := by
  have ho : ((check ms).run []).1 = o := by
    unfold ofMembers at h
    split at h
    · next hrun =>
      cases h
      rw [hrun]
    · cases h
  -- each bound is a field of its own
  obtain ⟨is, hbase⟩ : ∃ is, ((checkField ms "stack_base" none readNatural?).run is).1 =
      o.stackBase := ⟨_, congrArg Options.stackBase ho⟩
  obtain ⟨js, hsize⟩ : ∃ js, ((checkField ms "stack_size" none readPositive?).run js).1 =
      o.stackSize := ⟨_, congrArg Options.stackSize ho⟩
  constructor
  · cases hb : o.stackBase with
    | none => simpa [stack, hb] using hd.base
    | some b =>
      obtain ⟨j, hj⟩ := read_of_checkField (hbase.trans hb)
      simpa [stack, hb] using nonneg_of_readNatural? hj
  · cases hn : o.stackSize with
    | none => simpa [stack, hn] using hd.size
    | some n =>
      obtain ⟨j, hj⟩ := read_of_checkField (hsize.trans hn)
      simpa [stack, hn] using pos_of_readPositive? hj

/-! ## §2 Words in a stack -/

namespace StackRange

variable {r : StackRange} {x : Nat}

def Contains (r : StackRange) (x : Nat) : Prop :=
  r.base - r.size < x ∧ x ≤ r.base

theorem contains_base (h : r.Sensible) : r.Contains r.base.toNat := by
  have hbase := h.base
  have hsize := h.size
  constructor <;> omega

/-- The end of a stack is reduced, the base is as it stands. -/
theorem holds_bits (h : 0 ≤ r.base) (hbase : r.base < (2 ^ w : Nat)) :
    r.Holds (.bits w x) ↔ (r.base - r.size) % (2 ^ w : Nat) < x ∧ x ≤ r.base := by
  have hpos : (0 : Int) < (2 ^ w : Nat) := by positivity
  have hend := Int.emod_nonneg (r.base - r.size) hpos.ne'
  simp only [Holds, Value.width, Value.toNat, Int.emod_eq_of_lt h hbase]
  omega

/-- **The words that a hypothesis allows are the addresses of the stack** exactly if the stack does
not reach below zero. -/
theorem holds_iff_contains (h : r.Sensible) (hbase : r.base < (2 ^ w : Nat)) :
    (∀ x < 2 ^ w, r.Holds (.bits w x) ↔ r.Contains x) ↔ r.size ≤ r.base := by
  have hnonneg := h.base
  have hsize := h.size
  constructor
  · -- zero lies in a stack that reaches below it, and no word is below zero
    intro hall
    have hzero := hall 0 (by positivity)
    rw [holds_bits hnonneg hbase] at hzero
    have hpos : (0 : Int) < (2 ^ w : Nat) := by positivity
    have hend := Int.emod_nonneg (r.base - r.size) hpos.ne'
    unfold Contains at hzero
    omega
  · intro hle x _
    rw [holds_bits hnonneg hbase, Int.emod_eq_of_lt (by omega) (by omega), Contains]

/-- **Some word is allowed** exactly if the size, reduced, is between one and the base. -/
theorem exists_holds_iff (h : r.Sensible) (hbase : r.base < (2 ^ w : Nat)) :
    (∃ x < 2 ^ w, r.Holds (.bits w x)) ↔
      0 < r.size % (2 ^ w : Nat) ∧ r.size % (2 ^ w : Nat) ≤ r.base := by
  have hnonneg := h.base
  have hpos : (0 : Int) < (2 ^ w : Nat) := by positivity
  have hlow := Int.emod_nonneg r.size hpos.ne'
  have hhigh := Int.emod_lt_of_pos r.size hpos
  -- only the size modulo the words matters
  have hreduce : (r.base - r.size) % (2 ^ w : Nat) =
      (r.base - r.size % (2 ^ w : Nat)) % (2 ^ w : Nat) := by
    rw [Int.sub_emod_emod]
  simp only [holds_bits hnonneg hbase, hreduce]
  generalize r.size % (2 ^ w : Nat) = size at hlow hhigh
  by_cases hle : size ≤ r.base
  · rw [Int.emod_eq_of_lt (by omega) (by omega)]
    constructor
    · rintro ⟨x, -, hx⟩
      omega
    · intro hsize
      exact ⟨r.base.toNat, by omega, by omega⟩
  · -- the end wraps around to a word above the base
    have hwrap : (r.base - size) % (2 ^ w : Nat) = r.base - size + (2 ^ w : Nat) := by
      rw [← Int.add_emod_right, Int.emod_eq_of_lt (by omega) (by omega)]
    rw [hwrap]
    constructor
    · rintro ⟨x, -, hx⟩
      omega
    · intro hsize
      omega

end StackRange

/-! ## §3 The stack pointer's constant -/

/-- Every constant belongs to a register and has the register's sort. -/
def Environment.Registered (e : Environment) : Prop :=
  ∀ p ∈ e.vars, ∃ r v srt name, e.regVar r = .ok v ∧ p.1 = .text r ∧ e.sortOf v = .ok srt ∧
    p.2 = .const name srt

/-- The constant of a register has the register's sort, if that is so of the ones before it. -/
theorem Build.ends_getVar_registered {r : String} {t : Term} (hv : σ.env.regVar r = .ok v)
    (h : (getVar v).Ends σ t σ') (hσ : σ.env.Registered) :
    σ'.env.Registered ∧ ∃ name srt, σ'.env.sortOf v = .ok srt ∧ t = .const name srt := by
  have hlabel : v.name.label = .ok (.text r) := by
    obtain ⟨w, -, hv⟩ := bind_eq_ok.mp hv
    cases hv
    rfl
  obtain ⟨l, hl, ⟨ht, rfl⟩ | ⟨-, n, name, srt, -, -, hsrt, rfl, rfl⟩⟩ := getVar_cases h
  -- a constant that is there belongs to the register, as registers have one name each
  · refine ⟨hσ, ?_⟩
    obtain rfl : Label.text r = l := Except.ok.inj (hlabel.symm.trans hl)
    obtain ⟨p, hp, rfl⟩ := Option.map_eq_some_iff.mp ht
    obtain ⟨r', v', srt, name, hv', hr', hsrt, hconst⟩ := hσ p (List.mem_of_find?_eq_some hp)
    have hsame := Label.eq_of_same_text (by simpa using List.find?_some hp)
    obtain rfl : r' = r := Label.text.inj (hr'.symm.trans hsame)
    obtain rfl : v' = v := Except.ok.inj (hv'.symm.trans hv)
    exact ⟨name, srt, hsrt, hconst⟩
  · obtain rfl : Label.text r = l := Except.ok.inj (hlabel.symm.trans hl)
    refine ⟨fun p hp => ?_, name, srt, hsrt, rfl⟩
    rcases List.mem_append.mp hp with hp | hp
    · exact hσ p hp
    · obtain rfl := List.mem_singleton.mp hp
      exact ⟨r, v, srt, name, hv, rfl, hsrt, rfl⟩

theorem Environment.gives_of_seeded (h : e.seeded = .ok e') (hvars : e.vars = []) {r : String}
    (hv : e.regVar r = .ok v) :
    ∃ name srt, e.sortOf v = .ok srt ∧ e'.Gives v (.const name srt) := by
  obtain ⟨u, τ, hseed, rfl⟩ := ends_of_seeded h
  simp only [Build.seed, ends_bind, Build.ends_env, ends_pure] at hseed
  obtain ⟨_, _, ⟨rfl, rfl⟩, _, τ', hregs, m, _, hmem, -, rfl⟩ := hseed
  obtain ⟨hstep, -⟩ := Build.ends_getMemory hmem
  clear hmem
  -- the registers one by one, each of which keeps its constant
  have hloop : ∀ (regs : List String) {σ τ : Session} {u : PUnit}, σ.env.arch = e.arch →
      σ.env.Registered →
      (forIn regs PUnit.unit fun r _ => do
        let _ ← Build.getRegister r
        pure (ForInStep.yield PUnit.unit)).Ends σ u τ →
      σ.env.Grows τ.env ∧
        (r ∈ regs → ∃ name srt, e.sortOf v = .ok srt ∧ τ.env.Gives v (.const name srt)) := by
    intro regs
    induction regs with
    | nil =>
      intro σ τ u _ _ hrun
      rw [List.forIn_nil, ends_pure] at hrun
      exact ⟨hrun.2 ▸ .refl _, by simp⟩
    | cons r' regs ih =>
      intro σ τ u harch hσ hrun
      obtain ⟨v', t, τ1, hv', hr, hrun⟩ := Build.ends_registers_cons.mp hrun
      obtain ⟨hstep1, -, hgives⟩ := Build.ends_getVar hr
      obtain ⟨hτ1, name, srt, hsrt, rfl⟩ := Build.ends_getVar_registered hv' hr hσ
      have harch1 := hstep1.env.arch.trans harch
      obtain ⟨hgrows, hrest⟩ := ih harch1 hτ1 hrun
      refine ⟨hstep1.env.trans hgrows, fun hmem => ?_⟩
      rcases List.mem_cons.mp hmem with rfl | hmem
      · rw [regVar, harch] at hv'
        obtain rfl : v' = v := Except.ok.inj (hv'.symm.trans hv)
        rw [sortOf, harch1] at hsrt
        exact ⟨name, srt, hsrt, hgives.grows hgrows⟩
      · exact hrest hmem
  obtain ⟨-, hall⟩ := hloop _ rfl (by simp [Registered, hvars]) hregs
  obtain ⟨name, srt, hsrt, hgives⟩ := hall (mem_registerNames hv)
  exact ⟨name, srt, hsrt, hgives.grows hstep.env⟩

/-- An environment with a stack pointer: its variable and the width of its constant. -/
structure Environment.Points (e : Environment) (v : Var) (w : Nat) : Prop where
  sound : e.Sound
  register : ∃ name, e.arch.stackPointer = some name ∧ e.regVar name = .ok v
  gives : ∃ x, e.Gives v (.const x (.bits w))

theorem Environment.Points.grows (h : e.Points v w) (hg : e.Grows e') (hs : e'.Sound) :
    e'.Points v w := by
  obtain ⟨name, hname, hv⟩ := h.register
  obtain ⟨x, hx⟩ := h.gives
  exact ⟨hs, ⟨name, hg.arch ▸ hname, hg.regVar name ▸ hv⟩, x, hx.grows hg⟩

/-- **Every analysis starts with the stack pointer of its target** and the stack of its options. -/
theorem Options.points_environment {p : Program} {hooks : List Hook} {d : Defaults}
    {supply supply' : Supply} {name : String} {width : Int}
    (he : (o.environment d p hooks).Ends supply e supply')
    (hname : p.arch.stackPointer = some name) (hwidth : p.arch.width name = .ok width)
    (hw : Term.checkWidth width = .ok w) :
    e.stack = o.stack d.stack ∧ e.Points { name := .str name, width := .int width } w := by
  have hsound := (ends_environment he).1.sound
  simp only [environment, ends_bind, ends_lift] at he
  obtain ⟨_, _, -, he, rfl⟩ := he
  obtain ⟨hgrows, -⟩ := Environment.seeded_ok he
  -- the register is seeded with a constant of its width
  have hreg : (p.arch.width name).map (fun w => ({ name := .str name, width := .int w } : Var)) =
      .ok { name := .str name, width := .int width } := by
    rw [hwidth]
    rfl
  obtain ⟨x, srt, hsrt, hgives⟩ := Environment.gives_of_seeded he rfl hreg
  have hsort : srt = .bits w := by
    simp only [Environment.sortOf, Term.fieldWidth, Json.int?, hw] at hsrt
    cases hsrt
    rfl
  refine ⟨hgrows.stack, hsound, ⟨name, ?_, ?_⟩, x, hsort ▸ hgives⟩
  · rw [hgrows.arch]
    exact hname
  · rw [hgrows.regVar]
    exact hreg

/-! ## §4 The hypothesis -/

/-- A hypothesis says that a variable is an address of a stack, and there are states in which it is
met: from every state it is enough to move the variable to the base. -/
structure Environment.Confines (e : Environment) (v : Var) (w : Nat) (r : StackRange)
    (c : Constraint) : Prop where
  iff : ∀ b s, c.Holds b s ↔ ∃ x, e.look s v = .bits w x ∧ r.Contains x
  base : ∀ b s, c.Holds b (e.assign s v (.bits w r.base.toNat))

namespace Environment.Points

variable (h : e.Points v w)
include h

theorem exists_look (s : State) : ∃ x < 2 ^ w, e.look s v = .bits w x := by
  obtain ⟨name, hx⟩ := h.gives
  rw [hx.look_eq, Term.eval_const]
  obtain ⟨x, hword, hlt⟩ := (State.fits_const s name (.bits w)).bits_inv
  exact ⟨x, hlt, hword⟩

theorem look_assign {x : Nat} (hx : x < 2 ^ w) (s : State) :
    e.look (e.assign s v (.bits w x)) v = .bits w x := by
  obtain ⟨name, hgives⟩ := h.gives
  rw [hgives.look_assign]
  exact State.const_set_self _ ⟨rfl, hx⟩

theorem look_grows (hg : e.Grows e') (s : State) : e'.look s v = e.look s v := by
  obtain ⟨name, hgives⟩ := h.gives
  rw [hgives.look_eq, (hgives.grows hg).look_eq]

/-- The stack pointer is in range if its value is. -/
theorem spInRange_iff (s : State) : e.SpInRange s ↔ e.stack.Holds (e.look s v) := by
  obtain ⟨name, hname, hv⟩ := h.register
  constructor
  · exact fun hall => hall name v hname hv
  · intro hholds name' v' hname' hv'
    obtain rfl := Option.some.inj (hname.symm.trans hname')
    rwa [← Except.ok.inj (hv.symm.trans hv')]

theorem ends_stackInRange (hg : e.Grows σ.env) : ∃ c σ', Build.stackInRange.Ends σ c σ' := by
  obtain ⟨name, hname, hv⟩ := h.register
  obtain ⟨x, l, hl, hfind⟩ := h.gives
  rw [← hg.arch] at hname
  rw [← hg.regVar] at hv
  have hget : (Build.getRegister name).Ends σ (.const x (.bits w)) σ := by
    simp only [Build.getRegister, ends_bind, Build.ends_env, ends_lift]
    exact ⟨_, _, ⟨rfl, rfl⟩, v, _, ⟨hv, rfl⟩, Build.getVar_old hl (hg.findVar?_eq_some hfind)⟩
  -- both bounds are words of the width of the pointer
  have horder : ∀ (o : Order) (n : Int), Term.mk (.order o) [.const x (.bits w), Term.numeral w n] =
      .ok (.app (.order o) [.const x (.bits w), Term.numeral w n]) := by
    intro o n
    simp [Term.mk, Op.sort?, Term.sort, Term.numeral_eq]
  have hand : ∀ t u : Term, t.sort = .bool → u.sort = .bool →
      Term.mk .and [t, u] = .ok (.app .and [t, u]) := by
    intro t u ht hu
    simp [Term.mk, Op.sort?, ht, hu]
  refine ⟨.goal σ.supply.nodes "stack pointer in range" (.app .and
    [.app (.order .ule) [.const x (.bits w), Term.numeral w σ.env.stack.base],
      .app (.order .ugt) [.const x (.bits w),
        Term.numeral w (σ.env.stack.base - σ.env.stack.size)]]), σ.bump, ?_⟩
  simp only [Build.stackInRange, ends_bind, Build.ends_env]
  refine ⟨_, _, ⟨rfl, rfl⟩, ?_⟩
  rw [hname]
  simp only [ends_bind, ends_lift]
  exact ⟨_, _, hget, w, _, ⟨rfl, rfl⟩, _, _, ⟨horder _ _, rfl⟩, _, _, ⟨horder _ _, rfl⟩, _, _,
    ⟨hand _ _ rfl rfl, rfl⟩, rfl⟩

theorem holds_stackInRange (hg : e.Grows σ.env) (hs : σ.env.Sound)
    (hc : Build.stackInRange.Ends σ c σ') (b : Bool) (s : State) :
    c.Holds b s ↔ e.stack.Holds (e.look s v) := by
  obtain ⟨_, hb, -, -, hmeans⟩ := Build.ends_stackInRange (ν := fun _ => default) hc
  have hg' := hg.trans hb.step.env
  have hs' := hb.step.sound hs
  rw [hmeans σ'.env (.refl _) hs', (h.grows hg' hs').spInRange_iff, h.look_grows hg', hg'.stack]

/-- **The hypothesis confines the stack pointer to the stack**, if the stack does not reach below
zero. -/
theorem confines (hr : e.stack.Sensible) (hbase : e.stack.base < (2 ^ w : Nat))
    (hsize : e.stack.size ≤ e.stack.base) (hc : ∀ b s, c.Holds b s ↔ e.stack.Holds (e.look s v)) :
    e.Confines v w e.stack c := by
  have hcontains := (StackRange.holds_iff_contains hr hbase).mpr hsize
  have hiff : ∀ b s, c.Holds b s ↔ ∃ x, e.look s v = .bits w x ∧ e.stack.Contains x := by
    intro b s
    obtain ⟨x, hx, hlook⟩ := h.exists_look s
    rw [hc, hlook, hcontains x hx]
    simp
  refine ⟨hiff, fun b s => (hiff b _).mpr ⟨_, h.look_assign ?_ s, StackRange.contains_base hr⟩⟩
  have := hr.base
  omega

end Environment.Points

/-- Where the equality of both sides' constants can be built, they have one sort. -/
theorem Comparator.gives_of_sameValue {t t' : Twin} {u : Term} (h : (sameValue v).Ends t u t')
    (hp : t.first.Points v w) (hs : t.second.Sound) :
    ∃ y, t'.second.Gives v (.const y (.bits w)) := by
  simp only [sameValue, ends_bind, ends_lift, ends_onFirst, ends_onSecond] at h
  obtain ⟨a, _, ⟨σ1, ha, rfl⟩, c, _, ⟨σ2, hc, rfl⟩, heq, rfl⟩ := h
  obtain ⟨hstep1, -, hgives1⟩ := Build.ends_getVar ha
  obtain ⟨hstep2, -, hgives2⟩ := Build.ends_getVar hc
  obtain ⟨x, hx⟩ := hp.gives
  obtain rfl : a = .const x (.bits w) := by
    have := hgives1.termOf_eq.symm.trans (hx.grows hstep1.env).termOf_eq
    exact Except.ok.inj this
  obtain ⟨y, srt, rfl, -⟩ := hgives2.const (hstep2.sound hs)
  obtain rfl : Srt.bits w = srt := Term.sort_eq_of_mkEq heq
  exact ⟨y, hgives2⟩

/-- **The hypothesis of the comparator of stack pointers can be met**: from every state it is enough
to move both pointers to the base. -/
theorem Comparator.holds_hypothesis_base {t t' : Twin} {f1 f2 : Sub} (hp : t.first.Points v w)
    (hs : t.second.Sound) (hr : t.first.stack.Sensible) (hbase : t.first.stack.base < (2 ^ w : Nat))
    (hsize : t.first.stack.size ≤ t.first.stack.base)
    (hc : ((Comparator.stackPointer v).hypothesis f1 f2).Ends t c t') (b : Bool) (s : State) :
    c.Holds b (t'.second.assign (t'.first.assign s v (.bits w t.first.stack.base.toNat)) v
      (.bits w t.first.stack.base.toNat)) := by
  have hlt : t.first.stack.base.toNat < 2 ^ w := by
    have := hr.base
    omega
  have hcontains := (StackRange.holds_iff_contains hr hbase).mpr hsize _ hlt
  have hplain : (Comparator.stackPointer v).IsPlain := True.intro
  obtain ⟨_, hbuilds, -, -, hmeans⟩ := means_hypothesis hplain (ν := fun _ => default) hc
  have hs1 := hbuilds.soundFirst hp.sound
  have hp' := hp.grows hbuilds.first hs1
  rw [hmeans t'.first t'.second ⟨.refl _, .refl _, hs1, hbuilds.soundSecond hs⟩]
  obtain ⟨x, hx⟩ := hp'.gives
  obtain ⟨y, hy⟩ : ∃ y, t'.second.Gives v (.const y (.bits w)) := by
    simp only [hypothesis, ends_bind, ends_onFirst] at hc
    obtain ⟨same, t1, hsame, g, _, ⟨σ2, hg, rfl⟩, r, _, ⟨σ3, hr, rfl⟩, σ4, hc, rfl⟩ := hc
    obtain ⟨y, hy⟩ := gives_of_sameValue hsame hp hs
    exact ⟨y, hy⟩
  have hfits : (Value.bits w t.first.stack.base.toNat).Fits (.bits w) := ⟨rfl, hlt⟩
  rw [hy.assign_eq, hx.assign_eq]
  -- the second write may be to the constant of the first one
  have hfirst : t'.first.look (((s.set x (.bits w) (.bits w t.first.stack.base.toNat))).set y
      (.bits w) (.bits w t.first.stack.base.toNat)) v = .bits w t.first.stack.base.toNat := by
    rw [hx.look_eq, Term.eval_const]
    by_cases hxy : x = y
    · rw [hxy, State.const_set_self _ hfits]
    · rw [State.const_set_ne _ (.inl hxy), State.const_set_self _ hfits]
  refine ⟨?_, ?_⟩
  · rw [Var.SameIn, hfirst, hy.look_eq, Term.eval_const, State.const_set_self _ hfits]
    exact Value.same_refl _
  · rw [hp'.spInRange_iff, hfirst, hbuilds.first.stack, hcontains]
    exact StackRange.contains_base hr

/-! ## §5 Analyses -/

theorem Build.exists_stackInRange_of_single {f : Sub} (h : (Build.single o f).Ends σ c σ')
    (hs : σ.env.Sound) :
    ∃ i range inits body τ τ', c = .clause i (range :: inits) [body] ∧ σ.env.Grows τ.env ∧
      τ.env.Sound ∧ stackInRange.Ends τ range τ' := by
  obtain ⟨inits, τ, hinits, h⟩ := ends_bind.mp h
  obtain ⟨range, τ', hrange, h⟩ := ends_bind.mp h
  obtain ⟨_, hb, -, -⟩ := Build.ends_entryHypotheses (ν := fun _ => default) hinits
  -- the last step puts the hypotheses in front, with or without a condition on exit
  obtain ⟨i, body, rfl⟩ : ∃ i body, c = .clause i (range :: inits) [body] := by
    dsimp only at h
    split at h <;> simp only [clause, ends_bind, ends_pure] at h <;>
      obtain ⟨_, _, -, _, _, -, _, _, -, body, _, -, i, _, -, rfl, -⟩ := h <;> exact ⟨i, body, rfl⟩
  exact ⟨i, range, inits, body, τ, τ', rfl, hb.step.env, hb.step.sound hs, hrange⟩

/-- **The hypothesis about the stack pointer** says that the pointer is an address of the stack that
accepted options give, if the base is a word of the pointer and the stack does not reach below zero.
It is met at the base, so neither analysis takes for granted what cannot be. -/
theorem stackInRange_iff_contains {ms : List (Label × Json)} {o : Options} {d : Defaults}
    {p : Program} {name : String} {width : Int} {w : Nat} (ho : Options.ofMembers ms = .ok o)
    (hd : d.stack.Sensible) (hname : p.arch.stackPointer = some name)
    (hwidth : p.arch.width name = .ok width) (hw : Term.checkWidth width = .ok w)
    (hbase : (o.stack d.stack).base < (2 ^ w : Nat))
    (hsize : (o.stack d.stack).size ≤ (o.stack d.stack).base) :
    let r := o.stack d.stack
    let sp : Var := { name := .str name, width := .int width }
    r.Sensible ∧ r.Contains r.base.toNat ∧
    ∀ hooks supply e supply', (o.environment d p hooks).Ends supply e supply' →
      -- wherever the hypothesis is made, it can be made
      (∀ σ, e.Grows σ.env → σ.env.Sound →
        ∃ c σ', Build.stackInRange.Ends σ c σ' ∧ e.Confines sp w r c) ∧
      -- the analysis of one program
      (∀ f supply0 c σ', (Build.single o f).Ends ⟨supply0, e⟩ c σ' →
        ∃ i range inits body, c = .clause i (range :: inits) [body] ∧ e.Confines sp w r range) ∧
      -- the comparison of two programs
      ∀ t, e.Grows t.first → t.first.Sound → t.second.Sound → ∀ f1 f2 c t',
        ((Comparator.stackPointer sp).hypothesis f1 f2).Ends t c t' → ∀ b s,
          c.Holds b (t'.second.assign (t'.first.assign s sp (.bits w r.base.toNat)) sp
            (.bits w r.base.toNat)) := by
  intro r sp
  have hr : r.Sensible := Options.sensible_stack ho hd
  refine ⟨hr, StackRange.contains_base hr, fun hooks supply e supply' he => ?_⟩
  obtain ⟨hstack, hp⟩ := Options.points_environment he hname hwidth hw
  -- wherever the hypothesis is made, it says the same of the stack pointer
  have hconfines : ∀ {σ c σ'}, e.Grows σ.env → σ.env.Sound → Build.stackInRange.Ends σ c σ' →
      e.Confines sp w r c := by
    intro σ c σ' hg hs hc
    have h := hp.confines (c := c) (by rwa [hstack]) (by rwa [hstack]) (by rwa [hstack])
      (hp.holds_stackInRange hg hs hc)
    rwa [hstack] at h
  refine ⟨fun σ hg hs => ?_, fun f supply0 c σ' hc => ?_, fun t hg hs1 hs2 f1 f2 c t' hc b s => ?_⟩
  · obtain ⟨c, σ', hc⟩ := hp.ends_stackInRange hg
    exact ⟨c, σ', hc, hconfines hg hs hc⟩
  · obtain ⟨i, range, inits, body, τ, τ', rfl, hg, hs, hrange⟩ :=
      Build.exists_stackInRange_of_single hc hp.sound
    exact ⟨i, range, inits, body, rfl, hconfines hg hs hrange⟩
  · have hstack' : t.first.stack = r := hg.stack.trans hstack
    have h := Comparator.holds_hypothesis_base (hp.grows hg hs1) hs2 (by rwa [hstack'])
      (by rwa [hstack']) (by rwa [hstack']) hc b s
    rwa [hstack'] at h

def readerOptions : Options where
  func := "f"

theorem ends_readerEnvironment :
    (readerOptions.environment {} (byteProgram reader) []).Ends {}
      (byteEnv false [] reader byteBases) {} :=
  rfl

theorem stackInRange_iff_contains_reader :
    (readerOptions.stack {}).size ≤ (readerOptions.stack {}).base ∧
      (byteEnv false [] reader byteBases).Sound ∧
      ∃ c σ', Build.stackInRange.Ends ⟨{}, byteEnv false [] reader byteBases⟩ c σ' ∧
        (byteEnv false [] reader byteBases).Confines byteSp 64 {} c := by
  have hsound := (Options.ends_environment ends_readerEnvironment).1.sound
  have hread : Options.ofMembers [("func", .str "f")] = .ok readerOptions := rfl
  obtain ⟨-, -, h⟩ := stackInRange_iff_contains hread (d := {}) (p := byteProgram reader) (w := 64)
    ⟨by decide, by decide⟩ rfl rfl rfl (by decide) (by decide)
  exact ⟨by decide, hsound, (h _ _ _ _ ends_readerEnvironment).1 _ (.refl _) hsound⟩

/-- A stack that reaches below zero is accepted, and its base is a word; but the hypothesis is false
in every state, also where the stack pointer is at the base. -/
theorem not_stackInRange_of_large_size : ∃ ms o e c σ', Options.ofMembers ms = .ok o ∧
    o.stackBase = some 16 ∧ o.stackSize = some 256 ∧ e.stack = o.stack {} ∧ e.Points byteSp 64 ∧
    Build.stackInRange.Ends ⟨{}, e⟩ c σ' ∧ (o.stack {}).Contains 16 ∧ ∀ b s, ¬c.Holds b s := by
  let o : Options := { func := "f", stackBase := some 16, stackSize := some 256 }
  let e : Environment := { byteEnv false [] reader byteBases with stack := o.stack {} }
  have hsound : e.Sound := (Options.ends_environment ends_readerEnvironment).1.sound
  have hp : e.Points byteSp 64 := ⟨hsound, ⟨"sp", rfl, rfl⟩, .text "sp", .text "sp", rfl, rfl⟩
  obtain ⟨c, σ', hc⟩ := hp.ends_stackInRange (σ := ⟨{}, e⟩) (.refl _)
  refine ⟨[("func", .str "f"), ("stack_base", .int 16), ("stack_size", .int 256)], o, e, c, σ', rfl,
    rfl, rfl, rfl, hp, hc, ⟨by decide, by decide⟩, fun b s => ?_⟩
  rw [hp.holds_stackInRange (.refl _) hsound hc]
  obtain ⟨x, hx, hlook⟩ := hp.exists_look s
  rw [hlook]
  intro hholds
  have := (StackRange.exists_holds_iff (r := ⟨16, 256⟩) (w := 64) ⟨by decide, by decide⟩
    (by decide)).mp ⟨x, hx, hholds⟩
  exact absurd this.2 (by decide)

end Antecedent
