import Antecedent.Proofs.Parallel
import Antecedent.Proofs.Unknowns

/-!
# A plain and a freshened session side by side

Builders do the same in a plain session and in a freshened one, with marked constants in the latter.

* `Environment.Freshens` says how the environments of the two sessions belong together.
-/

namespace Antecedent

/-! ## §1 Environments side by side -/

/-- A label that is no text with a null character. -/
def Label.Clear (l : Label) : Prop :=
  ∀ s, l = .text s → '\x00' ∉ s.toList

namespace Environment

/-- The second environment has marked constants for variables that the first one knows too, and is
like it otherwise.  What it does not know, the first one knows as it did at the start. -/
structure Freshens (start : Environment × Environment) (e e' : Environment) : Prop where
  sound : e'.Sound
  flagged : e.Flagged
  flagged' : e'.Flagged
  plain : e.freshened = false
  fresh : e'.freshened = true
  hooks : e.hooks = []
  hooks' : e'.hooks = []
  arch : e.arch = start.1.arch
  resembles : e.Resembles e'
  inits : e'.inits = []
  vars : ∀ l, e'.findVar? l = none ∧ start.2.findVar? l = none ∧ e.findVar? l = start.1.findVar? l ∨
    ∃ t, e.findVar? l = some t ∧ e'.findVar? l = some (t.rename Symbol.mark)
  named : ∀ p ∈ e'.vars, ∃ name srt, Symbol.Named name ∧ p.2 = .const name.mark srt
  called : ∀ p ∈ e'.calls, '\x00' ∉ p.1.toList

variable {start : Environment × Environment}

/-- What builders may do without giving constants to variables. -/
theorem Freshens.step {σ τ σ' τ' : Session} (h : σ.env.Freshens start σ'.env)
    (hs : σ.Step τ) (hs' : σ'.Step τ') (hvars : τ.env.vars = σ.env.vars)
    (hvars' : τ'.env.vars = σ'.env.vars) (hinits : τ'.env.inits = σ'.env.inits)
    (hcalled : ∀ p ∈ τ'.env.calls, '\x00' ∉ p.1.toList) : τ.env.Freshens start τ'.env where
  sound := hs'.sound h.sound
  flagged := hs.flagged h.flagged
  flagged' := hs'.flagged h.flagged'
  plain := hs.env.freshened.trans h.plain
  fresh := hs'.env.freshened.trans h.fresh
  hooks := hs.env.hooks.trans h.hooks
  hooks' := hs'.env.hooks.trans h.hooks'
  arch := hs.env.arch.trans h.arch
  resembles := hs.resembles_both hs' h.resembles
  inits := hinits.trans h.inits
  vars := by
    have hfind : ∀ {e e' : Environment}, e'.vars = e.vars → e'.findVar? = e.findVar? := fun heq =>
      funext fun l => by rw [findVar?, heq, findVar?]
    rw [hfind hvars, hfind hvars']
    exact h.vars
  named := hvars' ▸ h.named
  called := hcalled

theorem Freshens.setDepth {e e' : Environment} (h : e.Freshens start e') (l : Label) (n : Nat) :
    (e.setDepth l n).Freshens start (e'.setDepth l n) where
  sound := h.sound
  flagged := h.flagged
  flagged' := h.flagged'
  plain := h.plain
  fresh := h.fresh
  hooks := h.hooks
  hooks' := h.hooks'
  arch := h.arch
  resembles := h.resembles.setDepth l n
  inits := h.inits
  vars := h.vars
  named := h.named
  called := h.called

end Environment

/-- Builders in a plain session beside builders in a freshened one. -/
def Link.freshening (start : Environment × Environment) : Link where
  Linked p := p.1.env.Freshens start p.2.env
  Later p q := p.1.Step q.1 ∧ p.2.Step q.2
  refl p := ⟨.refl p.1, .refl p.2⟩
  trans h h' := ⟨h.1.trans h'.1, h.2.trans h'.2⟩

/-- Both environments make the same of a variable: its name has no null characters, and if only the
first one knows it, then by the constant that it would be given. -/
structure Var.Agrees (start : Environment × Environment) (v : Var) : Prop where
  clear : v.Within Label.Clear
  known : ∀ s t, v.name.label = .ok (.text s) → start.1.findVar? (.text s) = some t →
    start.2.findVar? (.text s) = none →
    ∃ srt, start.1.sortOf v = .ok srt ∧ t = .const (.ofText s) srt

/-! ## §2 Variables and flags -/

namespace Build

variable {start : Environment × Environment} {p : Session × Session}

/-- **Variables** have marked constants on the freshened side. -/
theorem follows_getVar {v : Var} (hv : v.Agrees start) :
    Follows (.freshening start) (getVar v) (getVar v) p fun q t t' =>
      t' = t.rename Symbol.mark ∧ q.2.env.Gives v t' := by
  intro h t' τ' hends
  obtain ⟨hstep', -, hgives⟩ := ends_getVar hends
  obtain ⟨l, hl, hcase⟩ := getVar_cases hends
  obtain ⟨hnone', hstart, hknown⟩ | ⟨t, ht, ht'⟩ := h.vars l
  · -- only texts have freshened names
    rw [hnone'] at hcase
    obtain ⟨hsome, -⟩ | ⟨-, n', name', srt, hn', hname', hsrt, rfl, rfl⟩ := hcase
    · cases hsome
    obtain ⟨s, rfl, rfl⟩ : ∃ s, l = .text s ∧ n' = .text (s ++ Environment.freshSuffix) := by
      cases l with
      | text s => exact ⟨s, rfl, by simpa [Environment.localName, h.fresh, eq_comm] using hn'⟩
      | null | bool | int | float => simp [Environment.localName, h.fresh] at hn'
    have hclear := hv.clear _ hl s rfl
    obtain rfl : (Symbol.ofText s).mark = name' :=
      (Symbol.ofText_append_suffix hclear).symm.trans (Except.ok.inj hname')
    have hsrt' : p.1.env.sortOf v = .ok srt := by
      rwa [Environment.sortOf, h.resembles.arch] at hsrt
    -- the variable is new on the plain side as well, or known from the start
    obtain ⟨τ, hplain, hfind⟩ : ∃ τ, (getVar v).Ends p.1 (.const (.ofText s) srt) τ ∧
        ∀ l, (Label.text s).same l = false → τ.env.findVar? l = p.1.env.findVar? l := by
      cases hfind : p.1.env.findVar? (.text s) with
      | none =>
        have hlocal : p.1.env.localName (.text s) = .ok (.text s) := by
          rw [Environment.localName, h.plain]
          rfl
        exact ⟨_, getVar_new hl hfind hlocal rfl hsrt', fun l hne => by
          simp [Environment.findVar?_append, hne]⟩
      | some t =>
        obtain ⟨srt', hsort, rfl⟩ := hv.known s t hl (hknown.symm.trans hfind) hstart
        rw [Environment.sortOf, ← h.arch] at hsort
        obtain rfl : srt' = srt := Except.ok.inj (hsort.symm.trans hsrt')
        exact ⟨p.1, getVar_old hl hfind, fun _ _ => rfl⟩
    obtain ⟨hstep, -, l', hl', hfound⟩ := ends_getVar hplain
    obtain ⟨l'', hl'', hfound'⟩ := id hgives
    obtain ⟨rfl, rfl⟩ : .text s = l' ∧ .text s = l'' :=
      ⟨Except.ok.inj (hl.symm.trans hl'), Except.ok.inj (hl.symm.trans hl'')⟩
    refine ⟨_, τ, hplain, ⟨hstep, hstep'⟩, ⟨hstep'.sound h.sound, hstep.flagged h.flagged,
      h.flagged', hstep.env.freshened.trans h.plain, h.fresh, hstep.env.hooks.trans h.hooks,
      h.hooks', hstep.env.arch.trans h.arch, hstep.resembles_both hstep' h.resembles, h.inits,
      fun l => ?_, ?_, h.called⟩, rfl, hgives⟩
    · cases hsame : (Label.text s).same l with
      | true =>
        obtain rfl := Label.eq_of_text_same hsame
        exact .inr ⟨_, hfound, hfound'⟩
      | false =>
        rw [hfind l hsame, Environment.findVar?_append, hsame, if_neg Bool.false_ne_true,
          Option.or_none]
        exact h.vars l
    · simp only [List.forall_mem_append, List.forall_mem_singleton]
      exact ⟨h.named, _, srt, ⟨s, hclear, rfl⟩, rfl⟩
  · rw [ht'] at hcase
    obtain ⟨hsome, rfl⟩ | ⟨hnone, -⟩ := hcase
    · obtain rfl := Option.some.inj hsome
      exact ⟨t, p.1, getVar_old hl ht, ⟨.refl _, .refl _⟩, h, rfl, hgives⟩
    · cases hnone

/-- **Flags** are marked on the freshened side. -/
theorem follows_callFlag {callee : String} (hcallee : '\x00' ∉ callee.toList) :
    Follows (.freshening start) (callFlag callee) (callFlag callee) p fun _ t t' =>
      ∃ name : Symbol, t = .const name .bool ∧ name ≠ cutSymbol ∧ t' = t.rename Symbol.mark := by
  intro h t' τ' hends
  have hsymbol : p.2.env.flagSymbol callee = (p.1.env.flagSymbol callee).mark := by
    rw [Environment.flagSymbol, Environment.flagSymbol, Environment.suffix, Environment.suffix,
      if_pos h.fresh, h.plain, if_neg Bool.false_ne_true, String.append_empty,
      Symbol.ofText_append_suffix (by simp [Environment.calledMark, hcallee])]
  -- a plain name can always be introduced
  obtain ⟨t, τ, hplain⟩ : ∃ t τ, (callFlag callee).Ends p.1 t τ := by
    have hname : p.1.env.localName (Environment.calledMark ++ callee) =
        .ok (Environment.calledMark ++ callee) := by
      rw [Environment.localName, h.plain]
      rfl
    cases hc : p.1.env.calls.lookup callee with
    | some t => exact ⟨t, p.1, callFlag_old hc⟩
    | none => exact ⟨_, _, callFlag_new hc hname rfl⟩
  obtain ⟨hstep, -, rfl⟩ := ends_callFlag hplain h.flagged
  obtain ⟨hstep', -, rfl⟩ := ends_callFlag hends h.flagged'
  refine ⟨_, τ, hplain, ⟨hstep, hstep'⟩, ?_, _, rfl, p.1.env.flagSymbol_ne_cut callee,
    by rw [hsymbol]; rfl⟩
  have hvars : τ.env.vars = p.1.env.vars := by
    obtain ⟨-, rfl⟩ | ⟨-, n, -, rfl⟩ := callFlag_cases hplain <;> rfl
  obtain ⟨-, rfl⟩ | ⟨-, n, -, rfl⟩ := callFlag_cases hends
  · exact h.step hstep hstep' hvars rfl rfl h.called
  · exact h.step hstep hstep' hvars rfl rfl
      (List.forall_mem_append.mpr ⟨h.called, List.forall_mem_singleton.mpr hcallee⟩)

end Build

/-! ## §3 Definitions and branches -/

def Constraint.Copied (post post' : Constraint) (p : Session × Session) :
    Constraint → Constraint → Prop :=
  Copies p.2.env post post'

theorem Constraint.Copied.mono {post post' c c' : Constraint} {p q : Session × Session}
    (hlater : p.1.Step q.1 ∧ p.2.Step q.2) (h : Copied post post' p c c') :
    Copied post post' q c c' :=
  Copies.mono h hlater.2.env

open Constraint (Copied)

namespace Build

variable {post post' c c' : Constraint}

theorem renames_getVar {v : Var} (hv : v.Agrees start) :
    Renames (.freshening start) Symbol.mark (getVar v) := fun _ =>
  (follows_getVar hv).imp fun _ _ _ h => h.1

/-- **Conditions** are twins: what is simplified is a formula and its renamed copy. -/
theorem follows_condition {x : Expr} {tid : Json} (hx : x.isKnown = true)
    (hvars : ∀ v ∈ x.vars, v.Agrees start) :
    Follows (.freshening start) (x.condition tid) (x.condition tid) p fun q c c' =>
      Term.Twins q.2.env c.1 c'.1 := by
  have hterm := follows_toTerm (p := p) tid (fun v hv => renames_getVar (hvars v hv))
    (.inl hx)
  refine hterm.ends.bind fun (t, _) (t', _) q _ ⟨hends, h⟩ => ?_
  obtain rfl : t' = _ := h
  refine follows_lift_bind fun b hb => ?_
  obtain ⟨f, hf, rfl⟩ := map_eq_ok.mp (Term.bitToBool_rename t ▸ hb)
  refine ⟨f, hf, follows_env_bind fun hlinked => follows_pure ?_⟩
  have hproper := ((Expr.ends_toTerm hends hx).translates q.2.env (.refl _)
    hlinked.sound).denotes.proper
  exact ⟨_, f, _, rfl, by rw [hlinked.resembles.logic], Term.bitToBool_ok hproper hb⟩

theorem follows_guarded (as as' : List Access) (h : Copied post post' p c c') :
    Follows (.freshening start) (guarded c as) (guarded c' as') p (Copied post post') := by
  intro hlinked g τ' hends
  obtain ⟨rfl, rfl⟩ := guarded_eq hends hlinked.hooks'
  exact ⟨c, p.1, guarded_ends _ c as hlinked.hooks, Link.refl _ p, hlinked, h⟩

theorem follows_node {f f' : Nat → Constraint} (h : ∀ i i', Copied post post' p (f i) (f' i')) :
    Follows (.freshening start) (do return f (← nodeId)) (do return f' (← nodeId)) p
      (Copied post post') := by
  intro hlinked c' τ' hends
  have hstep : ∀ σ : Session, σ.Step σ.bump := fun _ => (Builds.bump (ν := f) (f 0)).step
  simp only [ends_bind, ends_nodeId, ends_pure] at hends ⊢
  obtain ⟨i', _, ⟨rfl, rfl⟩, rfl, rfl⟩ := hends
  exact ⟨_, _, ⟨_, _, ⟨rfl, rfl⟩, rfl, rfl⟩, ⟨hstep p.1, hstep p.2⟩, hlinked, h _ _⟩

theorem follows_substitution {name : Symbol} {srt : Srt} {new : Term}
    (hcut : name ≠ cutSymbol ∨ srt ≠ .bool) (hnew : (new.rename Symbol.mark).Proper p.2.env.Owns)
    (hc : Copied post post' p c c') :
    Follows (.freshening start) (substitution c [.const name srt] [new])
      (substitution c' [.const name.mark srt] [new.rename Symbol.mark]) p (Copied post post') :=
  follows_node fun i i' => .subst i i' hcut hnew hc

/-- **Definitions** become substitutions. -/
theorem follows_definition {d : Def} (hd : d.rhs.isKnown = true)
    (hvars : ∀ v ∈ d.lhs :: d.rhs.vars, v.Agrees start) (hc : Copied post post' p c c') :
    Follows (.freshening start) (definition c d) (definition c' d) p (Copied post post') := by
  obtain ⟨hlhs, hrhs⟩ := List.forall_mem_cons.mp hvars
  have hterm := follows_toTerm (p := p) d.tid (fun v hv => renames_getVar (hrhs v hv))
    (.inl hd)
  refine hterm.ends.bind fun (rhs, _) (rhs', _) q hlater ⟨hends, h⟩ => ?_
  obtain rfl : rhs' = _ := h
  refine (follows_getVar hlhs).bind fun t t' r hlater' ⟨ht, hgives⟩ =>
    Follows.of_linked fun hlinked => ?_
  obtain ⟨name', srt, rfl, howns⟩ := hgives.const hlinked.sound
  obtain ⟨name, rfl, rfl⟩ := Term.rename_eq_const.mp ht.symm
  have hproper := ((Expr.ends_toTerm hends hd).translates r.2.env hlater'.2.env
    hlinked.sound).denotes.proper
  exact (follows_substitution (.inr (hlinked.sound.owns_ne_bool howns)) hproper
    (hc.mono (Link.trans _ hlater hlater'))).bind fun _ _ _ _ h => follows_guarded _ _ h

theorem branch_of_ne_lit {name : Json} {cond : Term} {yes no : Constraint}
    (h : ¬∃ b, cond = .lit b) :
    branch name cond yes no = do return .ite (← nodeId) name cond yes no := by
  unfold branch
  split
  · exact absurd ⟨_, rfl⟩ h
  · exact absurd ⟨_, rfl⟩ h
  · rfl

/-- **Branches** are folded on both sides, or on none. -/
theorem follows_branch {name : Json} {cond cond' : Term} {no no' : Constraint}
    (hcond : cond.Twins p.2.env cond') (hyes : Copied post post' p c c')
    (hno : Copied post post' p no no') :
    Follows (.freshening start) (branch name cond c no) (branch name cond' c' no') p
      (Copied post post') := by
  by_cases hlit : ∃ b, cond = .lit b
  · obtain ⟨b, rfl⟩ := hlit
    obtain rfl : cond' = .lit b := (hcond.eq_lit b).mpr rfl
    cases b with
    | true => exact follows_pure hyes
    | false => exact follows_pure hno
  · have hlit' : ¬∃ b, cond' = .lit b := fun ⟨b, hb⟩ => hlit ⟨b, (hcond.eq_lit b).mp hb⟩
    rw [branch_of_ne_lit hlit, branch_of_ne_lit hlit']
    exact follows_node fun i i' => .ite i i' name hcond hyes hno

end Build

end Antecedent
