import Antecedent.Proofs.Calling
import Antecedent.Proofs.Entry
import Mathlib.Data.List.Count

/-!
# Callees that can be reached

The callees of a subroutine are searched in depth, through all bodies that are known.  The bound on
the search is large enough: every step down passes a subroutine that was not passed before.

* `Environment.explored_reach` says what a search leaves behind.
* `Environment.Reaches.cases_of_reachableCallees` says that it finds all callees.
-/

namespace Antecedent

variable {l a b : Label} {ls : List Label} {name : Json} {g : Sub} {v : Var}

/-! ## §1 Labels in lists -/

namespace Label

theorem isAmong_of_same (h : a.same b = true) (hb : b.isAmong ls = true) : a.isAmong ls = true := by
  obtain ⟨l, hl, hsame⟩ := List.any_eq_true.mp hb
  exact List.any_eq_true.mpr ⟨l, hl, same_trans h hsame⟩

theorem isAmong_mono {ls' : List Label} (hsub : ls ⊆ ls') (h : a.isAmong ls = true) :
    a.isAmong ls' = true := by
  obtain ⟨l, hl, hsame⟩ := List.any_eq_true.mp h
  exact List.any_eq_true.mpr ⟨l, hsub hl, hsame⟩

/-- What is among labels is also when each is listed once. -/
theorem isAmong_distinct (h : a.isAmong ls = true) : a.isAmong (distinct ls) = true := by
  have hfold : ∀ (ls found : List Label), a.isAmong ls = true ∨ a.isAmong found = true → a.isAmong
      (ls.foldl (fun found l => if l.isAmong found then found else found ++ [l]) found) = true := by
    intro ls
    induction ls with
    | nil => simp [isAmong]
    | cons l ls ih =>
      intro found h
      refine ih _ ?_
      beta_reduce
      simp only [isAmong, List.any_cons, Bool.or_eq_true] at h
      rcases h with (h | h) | h
      · right
        split
        · next hin => exact isAmong_of_same h hin
        · simp [isAmong, h]
      · exact .inl h
      · right
        split
        · exact h
        · exact isAmong_mono (List.subset_append_left _ _) h
  exact hfold ls [] (.inl h)

/-- A text is among labels only as itself. -/
theorem mem_of_isAmong_text {s : String} (h : Label.isAmong (.text s) ls = true) :
    .text s ∈ ls := by
  obtain ⟨l, hl, hsame⟩ := List.any_eq_true.mp h
  rwa [← eq_of_text_same hsame]

end Label

theorem Json.exists_label_of_alike {x y : Json} (h : x.alike y = true) (hl : x.label? = some l) :
    ∃ l', y.label? = some l' ∧ l.same l' = true := by
  unfold alike at h
  split at h
  · cases hl
  · cases hl
  · rw [hl] at h
    cases hy : y.label? with
    | none => simp [hy] at h
    | some l' => exact ⟨l', rfl, by simpa [hy] using h⟩

/-! ## §2 The search for callees -/

theorem Sub.mem_callees {sub : Sub} {b : Blk} {j : Jmp} {name : String} (hb : b ∈ sub.blks)
    (hj : j ∈ b.jmps) (hkind : j.kind = .call) (htarget : j.target = .str name)
    (hname : name ≠ "") : .str name ∈ sub.callees := by
  -- a name that is among those found so far stays there
  have hfold : ∀ (jmps : List Jmp) (names : List Json), j ∈ jmps ∨ .str name ∈ names →
      .str name ∈ jmps.foldl (fun names j =>
        if j.kind == .call && j.target.truthy && !names.any (Json.alike j.target) then
          names ++ [j.target]
        else names) names := by
    intro jmps
    induction jmps with
    | nil =>
      intro names h
      simpa using h
    | cons k jmps ih =>
      intro names h
      rw [List.foldl_cons]
      refine ih _ ?_
      by_cases hmem : .str name ∈ names
      · right
        split
        · exact List.mem_append_left _ hmem
        · exact hmem
      rcases h with h | h
      · rcases List.mem_cons.mp h with rfl | h
        · -- the name is a new one
          have hnew : names.any (Json.alike (.str name)) = false := by
            rw [List.any_eq_false]
            intro x hx halike
            obtain ⟨l, hl, hsame⟩ := Json.exists_label_of_alike halike rfl
            rw [Label.eq_of_text_same hsame] at hl
            exact hmem (Json.eq_str_of_label? hl ▸ hx)
          right
          simp [hkind, htarget, Json.truthy, hname, hnew]
        · exact .inl h
      · exact absurd h hmem
  exact hfold _ [] (.inl (List.mem_flatMap.mpr ⟨b, hb, hj⟩))

namespace Environment

variable {e : Environment} {sub : Sub} {found found' : List Label}

def calleesOf (e : Environment) (l : Label) : List Json :=
  ((e.findSub? l).map Sub.callees).getD []

/-- Whether the name of a subroutine was not found. -/
def isUnexplored (found : List Label) (g : Sub) : Bool :=
  (g.name.label?.map (!·.isAmong found)).getD false

theorem isUnexplored_iff (hl : g.name.label? = some l) :
    isUnexplored found g = true ↔ l.isAmong found = false := by
  simp [isUnexplored, hl]

theorem isUnexplored_anti (h : found ⊆ found') (hg : isUnexplored found' g = true) :
    isUnexplored found g = true := by
  cases hl : g.name.label? with
  | none => simp [isUnexplored, hl] at hg
  | some l =>
    rw [isUnexplored_iff hl] at hg ⊢
    exact Bool.eq_false_iff.mpr fun hmem => Bool.eq_false_iff.mp hg (Label.isAmong_mono h hmem)

/-- How many subroutines have names that were not found. -/
def unexplored (e : Environment) (found : List Label) : Nat :=
  e.subs.countP (isUnexplored found)

theorem unexplored_anti (h : found ⊆ found') : e.unexplored found' ≤ e.unexplored found :=
  List.countP_mono_left fun _ _ => isUnexplored_anti h

theorem unexplored_cons_lt (hfind : e.findSub? l = some sub) (hnew : l.isAmong found = false) :
    e.unexplored (l :: found) < e.unexplored found := by
  have hmem : sub ∈ e.subs := List.mem_reverse.mp (List.mem_of_find?_eq_some hfind)
  obtain ⟨l', hl', hsame⟩ : ∃ l', sub.name.label? = some l' ∧ l.same l' = true := by
    have hname := List.find?_some hfind
    cases hl : sub.name.label? with
    | none => simp [hl] at hname
    | some l' => exact ⟨l', rfl, by simpa [hl] using hname⟩
  have hbefore : isUnexplored found sub = true := by
    rw [isUnexplored_iff hl']
    exact Bool.eq_false_iff.mpr fun hl => Bool.eq_false_iff.mp hnew (Label.isAmong_of_same hsame hl)
  have hafter : isUnexplored (l :: found) sub = false := by
    rw [Bool.eq_false_iff, ne_eq, isUnexplored_iff hl', Bool.not_eq_false, Label.isAmong,
      List.any_cons, Label.same_symm hsame, Bool.true_or]
  -- those that are left after it are some of those that were left before it
  have hcount : e.unexplored (l :: found) =
      (e.subs.filter (isUnexplored found)).countP (isUnexplored (l :: found)) := by
    rw [unexplored, List.countP_filter]
    refine List.countP_congr fun g _ => ?_
    rw [Bool.and_eq_true]
    exact ⟨fun hg => ⟨hg, isUnexplored_anti (List.subset_cons_self ..) hg⟩, fun hg => hg.1⟩
  rw [hcount, unexplored, List.countP_eq_length_filter (l := e.subs), List.countP_lt_length_iff]
  exact ⟨sub, List.mem_filter.mpr ⟨hmem, hbefore⟩, hafter⟩

/-- What a search from some names leaves behind: what was found before, the names, and the callees
of what was found since.  Callees are named by texts. -/
structure Explored (e : Environment) (names : List Json) (found found' : List Label) : Prop where
  old : found ⊆ found'
  names : ∀ s, .str s ∈ names → .text s ∈ found'
  new : ∀ l ∈ found', l ∈ found ∨ ∀ s, .str s ∈ e.calleesOf l → .text s ∈ found'

theorem explored_nil : e.Explored [] found found :=
  ⟨fun _ hl => hl, by simp, fun _ hl => .inl hl⟩

/-- One name after the other. -/
theorem Explored.cons {names : List Json} {found'' : List Label}
    (h : e.Explored [name] found found') (hs : e.Explored names found' found'') :
    e.Explored (name :: names) found found'' := by
  refine ⟨fun _ hl => hs.old (h.old hl), fun s hmem => ?_, fun l hl => ?_⟩
  · rcases List.mem_cons.mp hmem with hname | hmem
    · exact hs.old (h.names s (List.mem_singleton.mpr hname))
    · exact hs.names s hmem
  · rcases hs.new l hl with hl' | hnew
    · exact (h.new l hl').imp_right fun hall s hmem => hs.old (hall s hmem)
    · exact .inr hnew

/-- A name that was found before. -/
theorem explored_old (hl : name.label = .ok l) (h : l.isAmong found = true) :
    e.Explored [name] found found := by
  refine ⟨fun _ hl => hl, fun s hmem => ?_, fun _ hl => .inl hl⟩
  obtain rfl := List.mem_singleton.mp hmem
  cases hl
  exact Label.mem_of_isAmong_text h

/-- A new name, once its callees are searched. -/
theorem Explored.descend (hl : name.label = .ok l)
    (h : e.Explored (e.calleesOf l) (l :: found) found') : e.Explored [name] found found' := by
  refine ⟨fun _ hk => h.old (List.mem_cons_of_mem _ hk), fun s hmem => ?_, fun k hk => ?_⟩
  · obtain rfl := List.mem_singleton.mp hmem
    cases hl
    exact h.old (List.mem_cons_self ..)
  · rcases h.new k hk with hk | hnew
    · rcases List.mem_cons.mp hk with rfl | hk
      · exact .inr h.names
      · exact .inl hk
    · exact .inr hnew

/-- **The search is complete**, if the bound is above the number of subroutines that are left or
there is nothing to search for. -/
theorem explored_reach {bound : Nat} {names : List Json}
    (hbound : names = [] ∨ e.unexplored found < bound)
    (h : e.reach bound names found = .ok found') : e.Explored names found found' := by
  induction bound generalizing names found found' with
  | zero =>
    obtain rfl := hbound.resolve_right (Nat.not_lt_zero _)
    cases h
    exact explored_nil
  | succ bound ih =>
    induction names generalizing found with
    | nil =>
      cases h
      exact explored_nil
    | cons name names ihn =>
      have hbound := hbound.resolve_left (List.cons_ne_nil _ _)
      rw [reach, List.foldlM_cons, bind_eq_ok] at h
      obtain ⟨found1, hname, hnames⟩ := h
      obtain ⟨l, hl, hname⟩ := bind_eq_ok.mp hname
      have hfirst : e.Explored [name] found found1 := by
        split at hname
        · next hold =>
          cases hname
          exact explored_old hl hold
        · next hnew =>
          refine .descend hl (ih ?_ hname)
          -- a step down passes a subroutine, or there is nothing below
          cases hfind : e.findSub? l with
          | none => exact .inl (by rw [calleesOf, hfind]; rfl)
          | some g =>
            right
            have := unexplored_cons_lt hfind (Bool.eq_false_iff.mpr hnew)
            omega
      exact hfirst.cons (ihn (.inr ((unexplored_anti hfirst.old).trans_lt hbound)) hnames)

/-- The callees of a subroutine, and those of all callees, are found. -/
theorem explored_reachableCallees (h : e.reachableCallees sub = .ok ls) :
    e.Explored sub.callees [] ls := by
  refine explored_reach (.inr ?_) h
  have : e.unexplored [] ≤ e.subs.length := List.countP_le_length
  omega

/-- **All subroutines that calls can reach are found.** -/
theorem Reaches.cases_of_reachableCallees (h : e.reachableCallees sub = .ok ls)
    (hg : e.Reaches sub g) :
    g = sub ∨ ∃ name : String, .text name ∈ ls ∧ e.findSub? name = some g := by
  have hls := explored_reachableCallees h
  induction hg with
  | refl => exact .inl rfl
  | @tail g g' _ hcall ih =>
    obtain ⟨b, hb, j, hj, name, hcalls⟩ := hcall
    have hmem := Sub.mem_callees hb hj hcalls.kind hcalls.target hcalls.named
    refine .inr ⟨name, ?_, hcalls.found⟩
    rcases ih with rfl | ⟨name', hname', hfound⟩
    · exact hls.names name hmem
    · refine (hls.new _ hname').resolve_left (List.not_mem_nil) name ?_
      rw [calleesOf, hfound]
      exact hmem

end Environment

/-! ## §3 Variables that matter -/

/-- A variable is given whatever another one is given. -/
def Var.Shares (v u : Var) : Prop :=
  ∀ ⦃e : Environment⦄ ⦃t : Term⦄, e.Gives v t → e.Gives u t

theorem Var.shares_of_alike {u : Var} (h : v.name.alike u.name = true) : v.Shares u := by
  rintro e t ⟨l, hl, ht⟩
  obtain ⟨l', hl', hsame⟩ := Json.exists_label_of_alike h (Json.label?_eq_of_label hl)
  refine ⟨l', by rw [Json.label, hl'], ?_⟩
  rw [Environment.findVar?] at ht ⊢
  simpa only [Label.same_congr_right hsame] using ht

theorem Var.Covers.exists_shares {us vs : List Var} (h : Var.Covers us vs) (hv : v ∈ vs) :
    ∃ u ∈ us, v.Shares u := by
  obtain ⟨u, hu, rfl | halike⟩ := h.all v hv
  · exact ⟨u, hu, fun _ _ ht => ht⟩
  · simp only [Var.alike, Var.row, Json.alike, Json.alikeItems, Bool.and_eq_true] at halike
    exact ⟨u, hu, Var.shares_of_alike halike.1⟩

namespace Environment

variable {e : Environment} {sub : Sub} {vs : List Var}

theorem exists_shares_of_reaches (h : e.relevantVars sub = .ok vs) (hg : e.Reaches sub g)
    (hv : v ∈ g.vars) : ∃ u ∈ vs, v.Shares u := by
  obtain ⟨own, ls, known, inputs, special, hown, hls, hknown, -, -, hall⟩ := relevantVars_cases h
  obtain ⟨u1, hu1, hshares1⟩ : ∃ u ∈ known, v.Shares u := by
    rcases hg.cases_of_reachableCallees hls with rfl | ⟨name, hname, hfound⟩
    · obtain ⟨u0, hu0, hshares0⟩ := (Var.covers_distinct hown).exists_shares hv
      obtain ⟨u, hu, hshares⟩ :=
        (Var.covers_distinct hknown).exists_shares (List.mem_append_left _ hu0)
      exact ⟨u, hu, fun _ _ ht => hshares (hshares0 ht)⟩
    · refine (Var.covers_distinct hknown).exists_shares (List.mem_append_right _ ?_)
      exact List.mem_flatMap.mpr ⟨g, List.mem_filterMap.mpr ⟨_, hname, hfound⟩, hv⟩
  obtain ⟨u, hu, hshares⟩ := (Var.covers_distinct hall).exists_shares (v := u1) (by simp [hu1])
  exact ⟨u, hu, fun _ _ ht => hshares (hshares1 ht)⟩

theorem exists_shares_memVar (h : e.relevantVars sub = .ok vs) : ∃ u ∈ vs, e.memVar.Shares u := by
  obtain ⟨own, ls, known, inputs, special, -, -, -, -, -, hall⟩ := relevantVars_cases h
  exact (Var.covers_distinct hall).exists_shares (by simp)

/-- The input registers matter, if call results depend on them. -/
theorem exists_shares_input (h : e.relevantVars sub = .ok vs) (huse : e.useInputs = true)
    {r : String} (hr : r ∈ e.arch.inputRegisters) (hv : e.regVar r = .ok v) :
    ∃ u ∈ vs, v.Shares u := by
  obtain ⟨own, ls, known, inputs, special, -, -, -, hinputs, -, hall⟩ := relevantVars_cases h
  obtain ⟨v', hmem, hv'⟩ := (mem_of_mapM_eq_ok (hinputs huse)).1 r hr
  cases hv.symm.trans hv'
  exact (Var.covers_distinct hall).exists_shares (by simp [hmem])

end Environment

end Antecedent
