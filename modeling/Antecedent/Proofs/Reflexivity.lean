import Antecedent.Proofs.Polarity
import Antecedent.Proofs.Producing
import Antecedent.Proofs.Recall

/-!
# A program compared with itself

The two sides of a comparison have constants of their own.  Where both sides are the same program,
each run of the first side is mirrored by a run of the second one: if the variables start with the
same values they have the same values at every step, whichever constants they stand for.

* `Environment.Mirrors` says that the constants of both sides hold the same values.
* `comparative_self_proved` says when the comparison of a program with itself proves it equal to
  itself: the compared registers have to be among the variables that are equal on entry.
-/

namespace Antecedent

variable {srt : Srt} {s a b a' : State} {name : Symbol} {vs : List Var} {v : Var}

/-! ## §1 Values of expressions -/

namespace Value

variable {u v : Value}

theorem Fits.of_same (hu : u.Fits srt) (h : u.same v = true) : v.Fits srt := by
  rcases same_iff.mp h with rfl | ⟨a, m, n, rfl, rfl, -⟩
  · exact hu
  · cases srt <;> exact hu

theorem sort_of_same (h : u.same v = true) : u.sort = v.sort := by
  rcases same_iff.mp h with rfl | ⟨a, m, n, rfl, rfl, -⟩ <;> rfl

theorem toNat_of_same (h : u.same v = true) : u.toNat = v.toNat := by
  rcases same_iff.mp h with rfl | ⟨a, m, n, rfl, rfl, -⟩ <;> rfl

end Value

@[simp] theorem State.sort_const (s : State) (name : Symbol) (srt : Srt) :
    (s.const name srt).sort = srt :=
  (State.fits_const s name srt).sort_eq

/-- Constants that are given the same value of their sort hold the same value. -/
theorem State.const_set_same {s' : State} {name' : Symbol} {x y : Value} (h : x.same y = true)
    (hx : x.Fits srt) :
    ((s.set name srt x).const name srt).same ((s'.set name' srt y).const name' srt) = true := by
  rwa [State.const_set_self _ hx, State.const_set_self _ (hx.of_same h)]

/-! ## §2 Paired environments -/

/-- Two environments give constants to some variables in the same way: of one sort, and to the same
variables one constant. -/
structure Environment.Paired (e1 e2 : Environment) (V : Var → Prop) : Prop where
  gives : ∀ v, V v → ∃ x y srt, e1.Gives v (.const x srt) ∧ e2.Gives v (.const y srt)
  alike : ∀ v w, V v → V w → (e1.termOf v = e1.termOf w ↔ e2.termOf v = e2.termOf w)

/-- Some variables have in a state of one environment the values that they have in a state of
another one. -/
def Environment.Mirrors (e1 e2 : Environment) (V : Var → Prop) (a b : State) : Prop :=
  ∀ v, V v → (e1.look a v).same (e2.look b v) = true

namespace Environment

variable {e e1 e2 : Environment} {V : Var → Prop} {w : Var}

theorem look_congr (h : e.termOf v = e.termOf w) (s : State) : e.look s v = e.look s w := by
  rw [look, look, h]

/-- A variable that was written holds the value that was written, as far as it fits. -/
theorem Gives.look_assign (h : e.Gives v (.const name srt)) (s : State) (x : Value) :
    e.look (e.assign s v x) v = (s.set name srt x).const name srt := by
  rw [h.assign_eq, h.look_eq, Term.eval_const]

theorem Gives.look_assign_ne {name' : Symbol} {srt' : Srt} (hv : e.Gives v (.const name srt))
    (hw : e.Gives w (.const name' srt')) (h : e.termOf w ≠ e.termOf v) (s : State) (x : Value) :
    e.look (e.assign s v x) w = e.look s w := by
  rw [hv.assign_eq, hw.look_eq, hw.look_eq, Term.eval_const, Term.eval_const, State.const_set_ne]
  by_contra hsame
  obtain ⟨rfl, rfl⟩ : name' = name ∧ srt' = srt := by simpa [not_or] using hsame
  exact h (hw.termOf_eq.trans hv.termOf_eq.symm)

/-- A state in which the constants of the first environment hold what those of the second one do,
and so what they held before. -/
theorem Paired.exists_transfer (h : e1.Paired e2 V) (hm : e1.Mirrors e2 V a b) (hvs : ∀ v ∈ vs, V v)
    :
    ∃ u : State, (∀ name srt, (a.const name srt).same (u.const name srt) = true) ∧
      ∀ v ∈ vs, e1.look u v = e2.look b v := by
  -- the values of the other side are written variable by variable
  induction vs with
  | nil => exact ⟨a, fun _ _ => Value.same_refl _, by simp⟩
  | cons v vs ih =>
    obtain ⟨hv, hvs⟩ := List.forall_mem_cons.mp hvs
    obtain ⟨u, hconst, hlook⟩ := ih hvs
    obtain ⟨x, y, srt, hx, -⟩ := h.gives v hv
    have hsame := hm v hv
    rw [hx.look_eq, Term.eval_const] at hsame
    have hfits : (e2.look b v).Fits srt := (State.fits_const a x srt).of_same hsame
    have hself : e1.look (e1.assign u v (e2.look b v)) v = e2.look b v := by
      rw [hx.look_assign, State.const_set_self _ hfits]
    refine ⟨e1.assign u v (e2.look b v), fun name srt' => ?_, List.forall_mem_cons.mpr
      ⟨hself, fun w hw => ?_⟩⟩
    · rw [hx.assign_eq]
      by_cases hname : name = x ∧ srt' = srt
      · obtain ⟨rfl, rfl⟩ := hname
        rwa [State.const_set_self _ hfits]
      · rw [State.const_set_ne _ (by tauto)]
        exact hconst name srt'
    -- variables with one constant on this side have one on the other side
    · by_cases hterm : e1.termOf w = e1.termOf v
      · rw [look_congr hterm, hself, look_congr ((h.alike w v (hvs w hw) hv).mp hterm)]
      · obtain ⟨x', _, srt', hx', -⟩ := h.gives w (hvs w hw)
        rw [hx.look_assign_ne hx' hterm, hlook w hw]

/-- **Expressions have the same values on both sides.** -/
theorem Paired.value_same (h : e1.Paired e2 V) (hm : e1.Mirrors e2 V a b) {x : Expr}
    (hlocal : x.Local e1) (hvars : ∀ v ∈ x.vars, V v) :
    (x.value (e1.look a)).same (x.value (e2.look b)) = true := by
  obtain ⟨u, hconst, hlook⟩ := h.exists_transfer hm hvars
  obtain ⟨t, hsorted, hover, heval⟩ := hlocal.term
  rw [← Expr.value_congr hlook, ← heval, ← heval]
  exact Term.eval_same ⟨hsorted, hover⟩ fun name srt _ => hconst name srt

/-- **Writes of the same values are mirrored.** -/
theorem Paired.mirrors_assign (h : e1.Paired e2 V) (hm : e1.Mirrors e2 V a b) (hv : V v)
    {x y : Value} (hxy : x.same y = true)
    (hfits : ∀ name srt, e1.Gives v (.const name srt) → x.Fits srt) :
    e1.Mirrors e2 V (e1.assign a v x) (e2.assign b v y) := by
  intro w hw
  obtain ⟨n1, n2, srt, hv1, hv2⟩ := h.gives v hv
  obtain ⟨m1, m2, srt', hw1, hw2⟩ := h.gives w hw
  by_cases hterm : e1.termOf w = e1.termOf v
  · rw [look_congr hterm, look_congr ((h.alike w v hw hv).mp hterm), hv1.look_assign,
      hv2.look_assign]
    exact State.const_set_same hxy (hfits n1 srt hv1)
  · rw [hv1.look_assign_ne hw1 hterm, hv2.look_assign_ne hw2 (mt (h.alike w v hw hv).mpr hterm)]
    exact hm w hw

end Environment

/-! ## §3 Mirrored runs -/

section Mirror

variable {e1 e2 : Environment} {V : Var → Prop} (h : e1.Paired e2 V) (he2 : e2.hooks = [])
include h he2

theorem Def.run_mirror {d : Def} (hm : e1.Mirrors e2 V a b) (hlhs : V d.lhs)
    (hvars : ∀ v ∈ d.rhs.vars, V v) (hlocal : d.rhs.Local e1) (hkeeps : d.KeepsSort e1)
    (hrun : Def.run e1 a d = .ok a') :
    ∃ b', Def.run e2 b d = .ok b' ∧ e1.Mirrors e2 V a' b' := by
  rw [Def.run] at hrun
  split at hrun
  · cases hrun
  · cases hrun
    refine ⟨e2.assign b d.lhs (d.rhs.value (e2.look b)), ?_, ?_⟩
    · rw [Def.run, Environment.objection?_eq_none he2]
    · refine h.mirrors_assign hm hlhs (h.value_same hm hlocal hvars) fun name srt hgives => ?_
      -- the value fits its own sort, which is the sort of the variable
      obtain ⟨t, hsorted, -, heval⟩ := hlocal.term
      have hfits := Term.eval_fits hsorted a
      have hsort := hkeeps a
      rw [hgives.look_eq, Term.eval_const, State.sort_const, ← heval, hfits.sort_eq] at hsort
      rwa [← heval, ← hsort]

/-- Definitions are mirrored one after the other. -/
theorem Def.foldlM_run_mirror {ds : List Def} (hlhs : ∀ d ∈ ds, V d.lhs)
    (hvars : ∀ d ∈ ds, ∀ v ∈ d.rhs.vars, V v) (hlocal : ∀ d ∈ ds, d.rhs.Local e1)
    (hkeeps : ∀ d ∈ ds, d.KeepsSort e1) (hm : e1.Mirrors e2 V a b)
    (hrun : ds.foldlM (Def.run e1) a = .ok a') :
    ∃ b', ds.foldlM (Def.run e2) b = .ok b' ∧ e1.Mirrors e2 V a' b' := by
  induction ds generalizing a b with
  | nil =>
    cases hrun
    exact ⟨b, rfl, hm⟩
  | cons d ds ih =>
    obtain ⟨hlhs, hlhss⟩ := List.forall_mem_cons.mp hlhs
    obtain ⟨hvars, hvarss⟩ := List.forall_mem_cons.mp hvars
    obtain ⟨hlocal, hlocals⟩ := List.forall_mem_cons.mp hlocal
    obtain ⟨hkeeps, hkeepss⟩ := List.forall_mem_cons.mp hkeeps
    rw [List.foldlM_cons] at hrun
    obtain ⟨a1, ha1, hrun⟩ := bind_eq_ok.mp hrun
    obtain ⟨b1, hb1, hm1⟩ := Def.run_mirror h he2 hm hlhs hvars hlocal hkeeps ha1
    obtain ⟨b', hb', hm'⟩ := ih hlhss hvarss hlocals hkeepss hm1 hrun
    exact ⟨b', by rw [List.foldlM_cons, hb1]; exact hb', hm'⟩

theorem Jmp.choose_mirror {js : List Jmp} (hvars : ∀ j ∈ js, ∀ v ∈ j.cond.vars, V v)
    (hlocal : ∀ j ∈ js, j.cond.Local e1) (hm : e1.Mirrors e2 V a b) {j : Option Jmp}
    (hrun : Jmp.choose e1 a js = .ok j) : Jmp.choose e2 b js = .ok j := by
  induction js with
  | nil => exact hrun
  | cons k js ih =>
    obtain ⟨hvars, hvarss⟩ := List.forall_mem_cons.mp hvars
    obtain ⟨hlocal, hlocals⟩ := List.forall_mem_cons.mp hlocal
    have hcond := Value.toNat_of_same (h.value_same hm hlocal hvars)
    rw [Jmp.choose] at hrun ⊢
    rw [Environment.objection?_eq_none he2, ← hcond]
    split at hrun
    · cases hrun
    · split at hrun
      · next htaken => rwa [if_pos htaken]
      · next hnot =>
        rw [if_neg hnot]
        exact ih hvarss hlocals hrun

theorem Blk.run_mirror {blk : Blk} (hvars : ∀ v ∈ blk.vars, V v) (hlocal : blk.Local e1)
    (hsorts : blk.WellSorted e1) {j : Option Jmp} (hm : e1.Mirrors e2 V a b)
    (hrun : blk.run e1 a = .ok (a', j)) :
    ∃ b', blk.run e2 b = .ok (b', j) ∧ e1.Mirrors e2 V a' b' := by
  simp only [Blk.vars, List.forall_mem_append, List.forall_mem_flatMap, List.forall_mem_cons]
    at hvars
  obtain ⟨hdefs, hjmps⟩ := hvars
  simp only [Blk.run, bind_eq_ok, pure_eq_ok, Prod.mk.injEq] at hrun ⊢
  obtain ⟨_, hrun, _, hchoose, rfl, rfl⟩ := hrun
  obtain ⟨b', hb', hm'⟩ := Def.foldlM_run_mirror h he2 (fun d hd => (hdefs d hd).1)
    (fun d hd => (hdefs d hd).2) hlocal.reads hsorts hm hrun
  exact ⟨b', ⟨b', hb', _, Jmp.choose_mirror h he2 hjmps hlocal.jumps hm' hchoose, rfl, rfl⟩, hm'⟩

theorem Flow.Travels.mirror (hunroll : e2.unroll = e1.unroll) {f : Flow} {k : Key} {o : Ending}
    (hvars : ∀ n ∈ f.graph, ∀ v ∈ n.block.vars, V v)
    (hsorts : ∀ n ∈ f.graph, n.block.WellSorted e1) (hrun : f.Travels e1 k a o)
    (hm : e1.Mirrors e2 V a b) :
    ∀ a', o = .exit a' → ∃ b', f.Runs e2 k b (.exit b') ∧ e1.Mirrors e2 V a' b' := by
  induction hrun generalizing b with
  | cut => simp
  | stop _ _ _ hstop =>
    rintro a' rfl
    obtain ⟨_, _, ho⟩ := Blk.objection_of_run hstop
    exact absurd ho Environment.objection?_ne_exit
  | leave hcut hnode hlocal hrun hout =>
    rintro _ ⟨⟩
    have hn := Flow.mem_of_node hnode
    obtain ⟨b', hb', hm'⟩ := Blk.run_mirror h he2 (hvars _ hn) hlocal (hsorts _ hn) hm hrun
    exact ⟨b', .leave (hunroll ▸ hcut) hnode hb' hout, hm'⟩
  | go hcut hnode hlocal hrun hblock _ ih =>
    intro a' ha'
    have hn := Flow.mem_of_node hnode
    obtain ⟨b1, hb1, hm1⟩ := Blk.run_mirror h he2 (hvars _ hn) hlocal (hsorts _ hn) hm hrun
    obtain ⟨b', hb', hm'⟩ := ih hm1 a' ha'
    exact ⟨b', .go (hunroll ▸ hcut) hnode hb1 hblock hb', hm'⟩

/-- **A run of one side is mirrored on the other side**: if the variables of a subroutine start with
the same values, both runs leave, and they leave with the same values. -/
theorem Sub.Runs.mirror (hunroll : e2.unroll = e1.unroll) {sub : Sub} (hvars : ∀ v ∈ sub.vars, V v)
    (hsub : sub.Settled e1) (hsorts : sub.WellSorted e1) (hm : e1.Mirrors e2 V a b)
    (hrun : sub.Runs e1 a (.exit a')) :
    ∃ b', sub.Runs e2 b (.exit b') ∧ e1.Mirrors e2 V a' b' := by
  rcases hsub with hempty | ⟨f, n, rest, hf, hcons, hk⟩
  · rw [Sub.Runs, if_pos hempty] at hrun
    cases hrun
    exact ⟨b, by rw [Sub.Runs, if_pos hempty], hm⟩
  · have hblk := Sub.block_mem_of_flow hf
    rw [Sub.runs_iff hf hcons] at hrun
    obtain ⟨b', hb', hm'⟩ := (hrun.travels hk).mirror h he2 hunroll
      (fun n hn v hv => hvars v (List.mem_flatMap.mpr ⟨_, hblk n hn, hv⟩))
      (fun n hn => hsorts _ (hblk n hn)) hm a' rfl
    exact ⟨b', (Sub.runs_iff hf hcons).mpr hb', hm'⟩

end Mirror

/-! ## §4 The names of both sides -/

namespace Symbol

variable {a b : String}

/-- What stands behind a null character is not part of a symbol. -/
theorem ofText_append_of_null (h : '\x00' ∈ a.toList) (b : String) :
    ofText (a ++ b) = ofText a := by
  have hshort : (a.toList.takeWhile (· != '\x00')).length ≠ a.toList.length := by
    intro hlen
    have hall := List.takeWhile_eq_self_iff.mp
      ((List.takeWhile_prefix (· != '\x00')).eq_of_length hlen)
    simpa using hall _ h
  have htake : (a ++ b).toList.takeWhile (· != '\x00') = a.toList.takeWhile (· != '\x00') := by
    rw [String.toList_append, List.takeWhile_append, if_neg hshort]
  rw [ofText, ofText, htake]

/-- Texts without null characters have different symbols. -/
theorem ofText_inj (ha : '\x00' ∉ a.toList) (hb : '\x00' ∉ b.toList) (h : ofText a = ofText b) :
    a = b := by
  have htake : ∀ c : String, '\x00' ∉ c.toList → c.toList.takeWhile (· != '\x00') = c.toList := by
    intro c hc
    rw [List.takeWhile_eq_self_iff]
    exact fun x hx => bne_iff_ne.mpr fun heq => hc (heq ▸ hx)
  rw [ofText, ofText, htake a ha, htake b hb] at h
  split at h <;> split at h
  · next hae hbe => rw [← String.toList_inj, List.isEmpty_iff.mp hae, List.isEmpty_iff.mp hbe]
  · cases h
  · cases h
  · simpa using h

end Symbol

namespace Environment

variable {e e1 e2 : Environment} {sub : Sub} {w : Var} {t : Term}

/-- A variable has the name of one that matters to a subroutine. -/
def Names (e : Environment) (sub : Sub) (v : Var) : Prop :=
  ∃ u, e.Matters sub u ∧ u.name = v.name

theorem Gives.of_name (h : e.Gives v t) (hname : w.name = v.name) : e.Gives w t := by
  obtain ⟨l, hl, hfind⟩ := h
  exact ⟨l, hname ▸ hl, hfind⟩

theorem Labels.gives (h : e.Labels sub) (hv : e.Names sub v) :
    ∃ base srt, v.name = .str base ∧
      e.Gives v (.const (.ofText (base ++ e.suffix)) srt) := by
  obtain ⟨u, hu, hname⟩ := hv
  obtain ⟨base, n, name, _, srt, hbase, hn, hsymbol, -, hfind⟩ := h u hu
  have hgives : e.Gives u (.const name srt) := ⟨.text base, by rw [hbase]; rfl, hfind⟩
  obtain rfl : .ofText (base ++ e.suffix) = name := by
    rw [symbolOf_localName hn] at hsymbol
    exact Except.ok.inj hsymbol
  exact ⟨base, srt, hname ▸ hbase, hgives.of_name hname.symm⟩

/-- The variables of a subroutine, the memory and the stack pointer have the names of variables that
matter to it. -/
theorem Labels.names (h : e.Labels sub) (hvs : e.relevantVars sub = .ok vs)
    (hv : v ∈ sub.vars ∨ v = e.memVar ∨ ∃ r, e.arch.stackPointer = some r ∧ e.regVar r = .ok v) :
    e.Names sub v := by
  obtain ⟨u, hu, hname⟩ := exists_name_of_relevantVars hvs hv
  obtain ⟨base, _, _, _, _, hbase, -⟩ := h u ⟨vs, hvs, hu⟩
  exact ⟨u, ⟨vs, hvs, hu⟩, hbase.trans (hname base hbase).symm⟩

/-- Where no name holds a null character, variables of different names have different constants. -/
theorem Labels.termOf_eq_iff (h : e.Labels sub) (hv : e.Names sub v) (hw : e.Names sub w)
    (hvnull : ∀ base, v.name = .str base → '\x00' ∉ base.toList)
    (hwnull : ∀ base, w.name = .str base → '\x00' ∉ base.toList) :
    e.termOf v = e.termOf w ↔ v.name = w.name := by
  obtain ⟨a, srt, ha, hgives⟩ := h.gives hv
  obtain ⟨b, srt', hb, hgives'⟩ := h.gives hw
  constructor
  · intro hterm
    rw [hgives.termOf_eq, hgives'.termOf_eq] at hterm
    obtain ⟨hsymbol, -⟩ := Term.const.inj (Except.ok.inj hterm)
    -- the suffix has no null character, so symbols tell the names apart
    have hfree : ∀ c : String, '\x00' ∉ c.toList → '\x00' ∉ (c ++ e.suffix).toList := by
      intro c hc
      rw [String.toList_append, List.mem_append, not_or]
      refine ⟨hc, ?_⟩
      rw [suffix]
      split <;> decide
    have happend := Symbol.ofText_inj (hfree a (hvnull a ha)) (hfree b (hwnull b hb)) hsymbol
    rw [← String.toList_inj, String.toList_append, String.toList_append, List.append_left_inj,
      String.toList_inj] at happend
    rw [ha, hb, happend]
  · intro hname
    rw [hgives.termOf_eq, (hgives.of_name hname.symm).termOf_eq]

/-- **The two sides of a comparison are paired**, if they share no symbols: a name with a null
character would have one symbol on both sides. -/
theorem paired_of_labels (h1 : e1.Labels sub) (h2 : e2.Labels sub) (hs1 : e1.Sound) (hs2 : e2.Sound)
    (hnames : ∀ v, e1.Names sub v → e2.Names sub v) (hdisjoint : ∀ x ∈ e1.symbols, x ∉ e2.symbols)
    (hm : e1.Mirrors e2 (e1.Names sub) a b) : e1.Paired e2 (e1.Names sub) := by
  have hnull : ∀ v base, e1.Names sub v → v.name = .str base → '\x00' ∉ base.toList := by
    intro v base hv hbase hmem
    obtain ⟨base1, srt1, hbase1, hgives1⟩ := h1.gives hv
    obtain ⟨base2, srt2, hbase2, hgives2⟩ := h2.gives (hnames v hv)
    cases hbase.symm.trans hbase1
    cases hbase.symm.trans hbase2
    obtain ⟨_, _, heq1, howns1⟩ := hgives1.const hs1
    obtain ⟨_, _, heq2, howns2⟩ := hgives2.const hs2
    cases heq1
    cases heq2
    refine hdisjoint _ (hs1.owns_symbol howns1) ?_
    rw [Symbol.ofText_append_of_null hmem, ← Symbol.ofText_append_of_null hmem e2.suffix]
    exact hs2.owns_symbol howns2
  refine ⟨fun v hv => ?_, fun v w hv hw => ?_⟩
  · obtain ⟨base1, srt1, hbase1, hgives1⟩ := h1.gives hv
    obtain ⟨base2, srt2, hbase2, hgives2⟩ := h2.gives (hnames v hv)
    -- values that are the same have one sort
    have hsame := hm v hv
    rw [hgives1.look_eq, hgives2.look_eq, Term.eval_const, Term.eval_const] at hsame
    obtain rfl : srt1 = srt2 := by simpa using Value.sort_of_same hsame
    exact ⟨_, _, _, hgives1, hgives2⟩
  · rw [h1.termOf_eq_iff hv hw (hnull v · hv) (hnull w · hw),
      h2.termOf_eq_iff (hnames v hv) (hnames w hw) (hnull v · hv) (hnull w · hw)]

end Environment

/-- A run leaves the variables of an environment alone whose symbols are not in its own. -/
theorem Sub.Runs.look_eq {e e' : Environment} {sub : Sub} {s' : State} {t : Term}
    (h : sub.Runs e s (.exit s')) (hs : e.Sound) (hsub : sub.Settled e) (hs' : e'.Sound)
    (hdisjoint : ∀ x ∈ e'.symbols, x ∉ e.symbols) (hv : e'.Gives v t) :
    e'.look s' v = e'.look s v := by
  obtain ⟨name, srt, rfl, howns⟩ := hv.const hs'
  rw [hv.look_eq, hv.look_eq, Term.eval_const, Term.eval_const, ← h.patch hs hsub,
    State.const_patch_not_mem (hdisjoint _ (hs'.owns_symbol howns))]

/-! ## §5 What is equal on entry -/

theorem Var.isMember_of_distinct {us : List Var} (h : Var.distinct vs = .ok us) (hv : v ∈ us) :
    v.isMember = true := by
  have hmem := (Var.covers_distinct h).sub v hv
  rw [Var.distinct] at h
  split at h
  · next hall => exact List.all_eq_true.mp hall v hmem
  · cases h

section Compared

variable {o : Options} {p : Program} {d : Defaults} {f : Sub} {q : Question} {t t' : Twin}
  {cs : List Comparator} {hooks : List Hook} {post inner outer : Constraint}

theorem Question.names_iff (h1 : o.Configures p d q.first)
    (h2 : o.Configures p d q.second) (hready1 : q.first.Ready p.arch hooks false)
    (hready2 : q.second.Ready p.arch [] true) : q.second.Names f v ↔ q.first.Names f v := by
  have hvars : q.second.relevantVars f = q.first.relevantVars f :=
    Environment.relevantVars_congr (hready2.arch.trans hready1.arch.symm)
      (h2.subs.trans h1.subs.symm) (h2.useInputs.trans h1.useInputs.symm) f
  rw [Environment.Names, Environment.Names]
  simp only [Environment.Matters, hvars]

/-- If registers are compared, it is known which variables matter. -/
theorem Options.exists_relevantVars (hcs : (o.comparators f f).Ends t cs t')
    (hcompare : o.compareCalls = false) (hpre : o.precond = "") (hpost : o.postcond = "")
    (hsome : o.compareRegisters ≠ []) : ∃ vs, t.first.relevantVars f = .ok vs := by
  obtain ⟨_, _, hregs, -⟩ := Options.comparators_cases hcs hcompare hpre hpost
  obtain ⟨_, _, us, _, -, hus, -⟩ := hregs.resolve_left fun h => hsome h.1
  exact ⟨us, hus⟩

/-- If registers are compared, all variables with the names of those that matter are equal on
entry. -/
theorem Question.Compared.mirrors (hq : q.Compared f f cs post inner outer)
    (hcs : (o.comparators f f).Ends t cs t') (hgrows1 : t.first.Grows q.first)
    (hgrows2 : t.second.Grows q.second) (hnames : ∀ v, q.second.Names f v ↔ q.first.Names f v)
    (hcompare : o.compareCalls = false) (hpre : o.precond = "") (hpost : o.postcond = "")
    (hsome : o.compareRegisters ≠ []) (hgiven : ∀ cmp ∈ cs, cmp.Assumes q.first q.second s) :
    q.first.Mirrors q.second (q.first.Names f) s s := by
  obtain ⟨regs, sp, hregs, -, rfl⟩ := Options.comparators_cases hcs hcompare hpre hpost
  obtain ⟨pre, vs, us1, us2, rfl, hus1, hus2, hdistinct, -⟩ := hregs.resolve_left fun h => hsome h.1
  obtain ⟨hregs, -⟩ := (Options.forall_comparators True.intro).mp hgiven
  have hequal : ∀ v ∈ Var.arranged pre, v.SameIn q.first q.second s :=
    hregs _ (List.mem_singleton_self _)
  rw [← hgrows1.relevantVars] at hus1
  rw [← hgrows2.relevantVars] at hus2
  have htext : ∀ v ∈ us1 ++ us2, ∃ base, v.name = .str base := by
    intro v hv
    rcases List.mem_append.mp hv with hv | hv
    · obtain ⟨base, _, _, _, _, hbase, -⟩ := hq.labelsFirst v ⟨us1, hus1, hv⟩
      exact ⟨base, hbase⟩
    · obtain ⟨base, _, _, _, _, hbase, -⟩ := hq.labelsSecond v ⟨us2, hus2, hv⟩
      exact ⟨base, hbase⟩
  -- the hypothesis lists each variable that matters under its name
  have hcovers := Var.covers_distinct hdistinct
  have harranged : Var.Covers (Var.arranged pre) pre :=
    Var.covers_arranged (fun v hv => Var.isMember_of_distinct hdistinct hv)
      fun v hv => htext v (hcovers.sub v hv)
  intro v hv
  obtain ⟨u, ⟨us, hus, hu⟩, hname⟩ := id hv
  cases hus1.symm.trans hus
  obtain ⟨u1, hu1, hname1⟩ := hcovers.exists_name (List.mem_append_left us2 hu)
  obtain ⟨u2, hu2, hname2⟩ := harranged.exists_name hu1
  obtain ⟨base, hbase⟩ := htext u2 (hcovers.sub _ (harranged.sub _ hu2))
  have hsame : u2.name = v.name := by
    rw [hbase, ← hname, hname1 base (hname2 base hbase)]
  obtain ⟨_, _, -, hgives1⟩ := hq.labelsFirst.gives hv
  obtain ⟨_, _, -, hgives2⟩ := hq.labelsSecond.gives ((hnames v).mpr hv)
  have hequal := hequal u2 hu2
  rw [Var.SameIn, (hgives1.of_name hsame).look_eq, (hgives2.of_name hsame).look_eq] at hequal
  rwa [hgives1.look_eq, hgives2.look_eq]

/-- **A comparison with itself is true in all states**, if the sides share no symbols and every
register that is compared has the name of a variable that matters: those are equal on entry, so each
run of the first side is mirrored by one of the second side. -/
theorem Question.Compared.valid (hq : q.Compared f f cs post inner outer)
    (hcs : (o.comparators f f).Ends t cs t') (hgrows1 : t.first.Grows q.first)
    (hgrows2 : t.second.Grows q.second) (hready1 : q.first.Ready p.arch hooks false)
    (hready2 : q.second.Ready p.arch [] true) (hconf1 : o.Configures p d q.first)
    (hconf2 : o.Configures p d q.second) (hcompare : o.compareCalls = false)
    (hpre : o.precond = "") (hpost : o.postcond = "") (hsome : o.compareRegisters ≠ [])
    (houter : outer.Sorted) (hsorts : f.WellSorted q.first)
    (hmatter : ∀ r ∈ o.compareRegisters, ∀ v, q.first.regVar r = .ok v → q.first.Names f v)
    (hdisjoint : ∀ x ∈ q.first.symbols, x ∉ q.second.symbols) (s : State) :
    q.condition.Holds true s := by
  have hnames : ∀ v, q.second.Names f v ↔ q.first.Names f v := fun v =>
    Question.names_iff hconf1 hconf2 hready1 hready2
  obtain ⟨vs, hvs⟩ := Options.exists_relevantVars hcs hcompare hpre hpost hsome
  rw [← hgrows1.relevantVars] at hvs
  obtain ⟨-, -, -, hdemands⟩ := Options.ends_comparators hcs hcompare hpre hpost
  rw [hq.condition]
  intro _ _ hgiven
  have hm := hq.mirrors hcs hgrows1 hgrows2 hnames hcompare hpre hpost hsome hgiven
  have hpaired := Environment.paired_of_labels hq.labelsFirst hq.labelsSecond hready1.sound
    hready2.sound (fun v => (hnames v).mpr) hdisjoint hm
  rw [hq.first.means houter]
  obtain ⟨o1, hrun1⟩ := hq.first.settled.runs s
  refine ⟨o1, hrun1, ?_⟩
  rcases hrun1.exit_cut_or_excused hq.assumed with ⟨s1, rfl⟩ | rfl | rfl
  · change inner.Holds true s1
    rw [hq.second.means (houter.of_mem (hq.first.exits _ _ hrun1))]
    -- the first run leaves the second side alone, so its mirror starts where it has ended
    have hm1 : q.first.Mirrors q.second (q.first.Names f) s s1 := by
      intro v hv
      obtain ⟨_, _, _, -, hgives2⟩ := hpaired.gives v hv
      rw [hrun1.look_eq hready1.sound hq.first.settled hready2.sound
        (fun x hx hx' => hdisjoint x hx' hx) hgives2]
      exact hm v hv
    obtain ⟨s2, hrun2, hm2⟩ := hrun1.mirror hpaired hready2.hooks
      (hconf2.unroll.trans hconf1.unroll.symm)
      (fun v hv => hq.labelsFirst.names hvs (.inl hv)) hq.first.settled hsorts hm1
    refine ⟨.exit s2, hrun2, ?_⟩
    change post.Holds true s2
    rw [hq.post, hdemands]
    intro r hr v hv
    have hname : q.first.Names f v := by
      rw [← hgrows1.regVar] at hv
      rw [← hgrows1.arch] at hr
      rcases List.mem_append.mp hr with hr | hr
      · exact hmatter r hr v hv
      · exact hq.labelsFirst.names hvs (.inr (.inr ⟨r, Option.mem_toList.mp hr, hv⟩))
    obtain ⟨_, _, _, hgives1, -⟩ := hpaired.gives v hname
    rw [Var.SameIn, hrun2.look_eq hready2.sound hq.second.settled hready1.sound hdisjoint hgives1]
    exact hm2 v hname
  · exact rfl
  · exact True.intro

end Compared

/-! ## §6 What a comparison with itself proves -/

section SelfProved

variable {o : Options} {d : Defaults} {p : Program} {f : Sub} {Γ : String → Srt}

/-- What is asked of options and a program for a comparison of a subroutine with itself: only
registers are compared, nothing is inlined, the target and the subroutine are well typed, and the
subroutines have labels for names. -/
structure Options.SelfCompares (o : Options) (d : Defaults) (p : Program) (f : Sub)
    (Γ : String → Srt) : Prop where
  offset : o.memoryOffset = false
  null : o.checkNull = false
  calls : o.compareCalls = false
  precond : o.precond = ""
  postcond : o.postcond = ""
  inline : o.inline = none
  unroll : 0 ≤ o.unroll.getD d.unroll
  asked : o.compareRegisters ≠ []
  registers : ∀ r ∈ o.compareRegisters, ∃ w, p.arch.width? r = some w
  target : p.arch.Types Γ
  names : ∀ s ∈ p.subs, ∃ l, s.name.label = .ok l
  sub : f.Comparable p.arch d.logic Γ

/-- **Such a comparison is built and has a formula.**  In all states in which the formula is false,
either the sides share a symbol or a register is compared that does not matter. -/
theorem Options.SelfCompares.exists_formula (h : o.SelfCompares d p f Γ) (supply : Supply) :
    ∃ q supply', (o.comparative d p p f f).Ends supply q supply' ∧
      q.condition.flatten? true = .ok (q.condition.flatten true) ∧
      (∀ s, (q.condition.flatten true).holds s = true ↔ q.condition.Holds true s) ∧
      ((∀ r ∈ o.compareRegisters, ∃ v, (o.blank d p [] false).Matters f v ∧ v.name = .str r) →
        (∀ x ∈ q.first.symbols, x ∉ q.second.symbols) → ∀ s, q.condition.Holds true s) := by
  obtain ⟨q, supply', hrun, ⟨hooks', htypes1⟩, htypes2⟩ := Options.exists_comparative h.inline
    h.target h.names h.offset h.null h.calls h.precond h.postcond h.asked h.unroll h.registers h.sub
    supply
  have hcalls := (h.sub.formed (o.blank d p [] false) rfl).calls
  obtain ⟨hooks, t, t', cs, hcs, hgrows1, hgrows2, hready1, hready2, hconf1, hconf2, post, inner,
    outer, hq⟩ := Options.ends_comparison hrun h.offset h.null h.calls h.precond h.postcond hcalls
      hcalls h.sub.known h.sub.known
  obtain ⟨vs, hvs⟩ := Options.exists_relevantVars hcs h.calls h.precond h.postcond h.asked
  rw [← hgrows1.relevantVars] at hvs
  -- the definitions keep sorts on both sides, so every substitution does
  have hgives : ∀ v ∈ f.vars, (∃ t, q.first.Gives v t) ∧ ∃ t, q.second.Gives v t := by
    intro v hv
    have hname := hq.labelsFirst.names hvs (.inl hv)
    obtain ⟨_, _, -, hgives1⟩ := hq.labelsFirst.gives hname
    obtain ⟨_, _, -, hgives2⟩ :=
      hq.labelsSecond.gives ((Question.names_iff hconf1 hconf2 hready1 hready2).mpr hname)
    exact ⟨⟨_, hgives1⟩, _, hgives2⟩
  have hsorts : f.WellSorted q.first := Sub.Comparable.wellSorted (e := o.blank d p hooks' false)
    h.sub htypes1 hready1.sound fun v hv => (hgives v hv).1
  have houter : outer.Sorted := by
    refine hq.first.sorts (hq.second.sorts hq.sortedPost ?_) hsorts
    exact Sub.Comparable.wellSorted (e := o.blank d p [] true) h.sub htypes2 hready2.sound
      fun v hv => (hgives v hv).2
  obtain ⟨ν, n, hl⟩ := hq.listed
  refine ⟨q, supply', hrun, hl.flatten?_eq_ok.mpr ⟨hq.sorted.mpr houter, rfl⟩,
    fun s => hl.holds_flatten true s, fun hmatter hdisjoint => ?_⟩
  refine hq.valid hcs hgrows1 hgrows2 hready1 hready2 hconf1 hconf2 h.calls h.precond h.postcond
    h.asked houter hsorts (fun r hr v hv => ?_) hdisjoint
  obtain ⟨u, ⟨us, hus, hu⟩, hname⟩ := hmatter r hr
  obtain ⟨w, -, hw⟩ := bind_eq_ok.mp hv
  cases hw
  refine ⟨u, ⟨us, ?_, hu⟩, hname⟩
  rw [← hus]
  exact Environment.relevantVars_congr hready1.arch hconf1.subs hconf1.useInputs f

/-- **A comparison of a well-typed program with itself proves it equal to itself.**  It is built and
has a formula.  If every register that is compared has the name of a variable that matters to the
subroutine, and the two sides share no symbol, then the formula is true in all states, so that a
solver that decides every formula proves it. -/
theorem comparative_self_proved {solver : Solver} (supply : Supply) (h : o.SelfCompares d p f Γ)
    (hmatter : ∀ r ∈ o.compareRegisters, ∃ v, (o.blank d p [] false).Matters f v ∧ v.name = .str r)
    (hsolver : solver.Decides) :
    ∃ q supply' φ, (o.comparative d p p f f).Ends supply q supply' ∧
      q.condition.flatten? true = .ok φ ∧
      ((∀ x ∈ q.first.symbols, x ∉ q.second.symbols) →
        (∀ s, φ.holds s = true) ∧ (check solver q.condition).verdict = .proved) := by
  obtain ⟨q, supply', hrun, hφ, hholds, hvalid⟩ := h.exists_formula supply
  refine ⟨q, supply', _, hrun, hφ, fun hdisjoint => ?_⟩
  have hall := fun s => (hholds s).mpr (hvalid hmatter hdisjoint s)
  refine ⟨hall, ?_⟩
  rw [check, hsolver.eq_valid_iff.mpr hall]
  dsimp only
  split
  · split <;> rfl
  · rfl

end SelfProved

/-- A loop that counts the register down. -/
def unwindBlk : Blk where
  tid := .str "loop"
  defs := [{ tid := .str "less", lhs := byteReg,
             rhs := .binop .minus (.var byteReg) (.int 1 (.int 8)) }]
  jmps := [{ tid := .str "again", kind := .goto, target := .str "loop",
             cond := .binop .neq (.var byteReg) (.int 0 (.int 8)) },
    { tid := .str "leave", kind := .ret }]

def unwind : Sub where
  name := .str "f"
  blks := [unwindBlk]

/-- The subroutine that does nothing; it mentions no register. -/
def bare : Sub :=
  .straight []

def byteSort (name : String) : Srt :=
  if name = "mem" then .memory 8 else if name = "sp" then .bits 64 else .bits 8

theorem types_byteArch : byteArch.Types byteSort where
  registers r w h := by
    obtain ⟨before, after, hregs, -⟩ := List.lookup_eq_some_iff.mp h
    have hmem : (r, w) ∈ byteArch.registers := by rw [hregs]; simp
    simp only [byteArch, List.mem_cons, Prod.mk.injEq, List.not_mem_nil, or_false] at hmem
    rcases hmem with ⟨rfl, rfl⟩ | ⟨rfl, rfl⟩ <;> exact ⟨⟨by decide, by decide⟩, rfl⟩
  memory := ⟨8, rfl, rfl⟩
  special := by
    simp only [byteArch, Option.toList_some, Option.toList_none, List.append_nil, List.nil_append,
      List.forall_mem_singleton]
    exact ⟨64, rfl⟩

theorem comparable_unwind : unwind.Comparable byteArch {} byteSort := by
  have hreg : ∀ e : Environment, byteReg.HasSort e byteSort (.bits 8) := fun e =>
    ⟨⟨"a", rfl, rfl⟩, rfl⟩
  have hkeeps : ∀ e : Environment, ∀ b ∈ unwind.blks, ∀ d ∈ b.defs,
      ∃ srt, d.lhs.HasSort e byteSort srt ∧ d.rhs.Sorted e byteSort srt := by
    simp only [unwind, unwindBlk, List.forall_mem_singleton]
    -- everything about the loop comes down to its one block
    exact fun e => ⟨_, hreg e, .binop (.var (hreg e)) (.int rfl) (.inr rfl)⟩
  have hgraph : unwind.graph = .ok
      [{ label := .text "loop", block := unwindBlk, exits := [.text "loop"] }] := rfl
  refine ⟨?_, by decide, fun e _ => ⟨?_, ?_, fun b hb d hd => ?_, ?_, ?_⟩, fun e _ => hkeeps e,
    fun g hg => ?_, fun e _ _ g hg => ?_⟩
  · simp [Sub.IsKnown, unwind, Blk.IsKnown, unwindBlk, Expr.isKnown, Expr.always]
  · simp [Sub.CallFree, unwind, Blk.CallFree, unwindBlk]
  · simp [unwind, unwindBlk]
  · exact (hkeeps e b hb d hd).elim fun srt h => ⟨⟨srt, h.1⟩, srt, h.2⟩
  · simp only [unwind, unwindBlk, List.forall_mem_singleton, List.forall_mem_cons]
    exact ⟨⟨1, .binop (.var (hreg e)) (.int rfl) (.inr rfl)⟩, 1, .int rfl⟩
  · simp [unwind, unwindBlk, Json.IsTarget]
  · cases hgraph.symm.trans hg
    exact Graph.reducible_single (by decide)
  · cases hgraph.symm.trans hg
    exact Graph.not_malformed_single (by decide) (by simp [unwindBlk, Jmp.Dangling])

theorem comparable_bare : bare.Comparable byteArch {} byteSort := by
  have hgraph : bare.graph = .ok
      [{ label := .text "only", block := { tid := .str "only" }, exits := [] }] := rfl
  refine ⟨Sub.isKnown_straight (by simp), by decide, fun e _ => ⟨Sub.callFree_straight, ?_, ?_, ?_,
    ?_⟩, ?_, fun g hg => ?_, fun e _ _ g hg => ?_⟩
  rotate_right 2
  · cases hgraph.symm.trans hg
    exact Graph.reducible_single (by decide)
  · cases hgraph.symm.trans hg
    exact Graph.not_malformed_single (by decide) (by simp)
  all_goals simp [bare, Sub.straight]

theorem selfCompares_byte {f : Sub} (hname : f.name = .str "f")
    (hf : f.Comparable byteArch {} byteSort) :
    byteOptions.SelfCompares {} (byteProgram f) f byteSort where
  offset := rfl
  null := rfl
  calls := rfl
  precond := rfl
  postcond := rfl
  inline := rfl
  unroll := by decide
  asked := by simp [byteOptions]
  registers := by simp [byteOptions, byteProgram, byteArch, Arch.width?]
  target := types_byteArch
  names := by
    simp only [byteProgram, List.forall_mem_singleton, hname]
    exact ⟨_, rfl⟩
  sub := hf

/-- The sides of the comparison of the loop with itself share no symbol, and it is proved. -/
theorem comparative_self_proved_unwind :
    ∃ q supply', (byteOptions.comparative {} (byteProgram unwind) (byteProgram unwind) unwind
      unwind).Ends {} q supply' ∧ (∀ x ∈ q.first.symbols, x ∉ q.second.symbols) ∧
      (check Solver.ideal q.condition).verdict = .proved := by
  have hpasses : (byteOptions.comparative {} (byteProgram unwind) (byteProgram unwind) unwind
      unwind).passes {} (fun q => decide (∀ x ∈ q.first.symbols, x ∉ q.second.symbols)) = true := by
    decide +kernel
  obtain ⟨q, supply', hends, hdisjoint⟩ := ExceptT.exists_ends_of_passes hpasses
  have hmatter : ∀ r ∈ byteOptions.compareRegisters,
      ∃ v, (byteOptions.blank {} (byteProgram unwind) [] false).Matters unwind v ∧
        v.name = .str r := by
    simp only [byteOptions, List.forall_mem_singleton]
    exact ⟨byteReg, ⟨_, rfl, List.mem_cons_self ..⟩, rfl⟩
  obtain ⟨q', supply'', φ, hends', -, hproved⟩ := comparative_self_proved {}
    (selfCompares_byte rfl comparable_unwind) hmatter Solver.decides_ideal
  cases hends'.symm.trans hends
  exact ⟨q, supply', hends, of_decide_eq_true hdisjoint, (hproved (of_decide_eq_true hdisjoint)).2⟩

/-- A state in which the register differs between the sides. -/
def bareState : State :=
  { State.zero with
    word := fun name _ => if name = .text "a" then 1 else 0x40000000 }

/-- A program is not always proved equal to itself: a register that it never mentions, and that does
not matter to it in another way, may differ on entry and then differs on exit. -/
theorem not_self_proved_of_unmentioned :
    ¬∀ (o : Options) (d : Defaults) (p : Program) (f : Sub) (Γ : String → Srt)
      (supply supply' : Supply) (q : Question) (φ : Term), o.SelfCompares d p f Γ →
      p.arch.stackPointer.isSome = true → f.LoopFree →
      (o.comparative d p p f f).Ends supply q supply' →
      (∀ x ∈ q.first.symbols, x ∉ q.second.symbols) →
      q.condition.flatten? true = .ok φ → ∀ s, φ.holds s = true := by
  intro hall
  have hself := selfCompares_byte rfl comparable_bare
  have hpasses : (byteOptions.comparative {} (byteProgram bare) (byteProgram bare) bare bare).passes
      {} (fun q => decide ((∀ x ∈ q.first.symbols, x ∉ q.second.symbols) ∧
        q.condition.plain.holds (bareState.cutAs true) = false)) = true := by
    decide +kernel
  obtain ⟨q, supply', hends, htest⟩ := ExceptT.exists_ends_of_passes hpasses
  obtain ⟨hdisjoint, hfalse⟩ := of_decide_eq_true htest
  obtain ⟨q', supply'', hends', hφ, hholds, -⟩ := hself.exists_formula {}
  cases hends'.symm.trans hends
  have htrue := (hholds bareState).mp (hall _ _ _ _ _ _ _ _ _ hself rfl Sub.loopFree_straight hends
    hdisjoint hφ bareState)
  exact Bool.false_ne_true (hfalse.symm.trans htrue)

end Antecedent
