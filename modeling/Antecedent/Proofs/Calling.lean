import Antecedent.Proofs.Conditions
import Mathlib.Logic.Relation

/-!
# Running subroutines that call each other

The concrete meaning of subroutines whose calls go to other subroutines of the environment.  A call
marks its callee as called, runs it from its first block with loop counts of its own, on the same
registers and memory, and goes on where it comes back to once the callee has left.

* `Flow.Executes` are the runs from every point of a subroutine.
* `Flow.Executes.mark` is the frame rule for marks: a run neither reads nor removes them.
-/

namespace Antecedent

variable {s : State} {P : State → Prop} {b : Bool} {o : Ending}

/-! ## §1 Calls -/

/-- A jump calls a subroutine of the environment by its name. -/
structure Environment.Calls (e : Environment) (j : Jmp) (name : String) (callee : Sub) : Prop where
  kind : j.kind = .call
  target : j.target = .str name
  named : name ≠ ""
  found : e.findSub? name = some callee

theorem Json.eq_str_of_label? {j : Json} {s : String} (h : j.label? = some (.text s)) :
    j = .str s := by
  cases j <;> simp_all [label?]

theorem Environment.name_eq_of_findSub? {e : Environment} {name : String} {callee : Sub}
    (h : e.findSub? name = some callee) : callee.name = .str name := by
  have hfound := List.find?_some h
  cases hl : callee.name.label? with
  | none => simp [hl] at hfound
  | some l =>
    have hsame : Label.same (.text name) l = true := by simpa [hl] using hfound
    rw [Label.eq_of_text_same hsame] at hl
    exact Json.eq_str_of_label? hl

namespace Environment.Calls

variable {e : Environment} {j : Jmp} {name name' : String} {callee callee' : Sub}

theorem goal?_eq (h : e.Calls j name callee) : j.goal? = none := by
  rw [Jmp.goal?, h.kind]

theorem callee_eq (h : e.Calls j name callee) : j.callee = .ok name := by
  simp [Jmp.callee, h.target, Json.truthy, h.named]

theorem name_eq (h : e.Calls j name callee) : callee.name = .str name :=
  name_eq_of_findSub? h.found

theorem unique (h : e.Calls j name callee) (h' : e.Calls j name' callee') :
    name = name' ∧ callee = callee' := by
  obtain rfl : name = name' := Json.str.inj (h.target.symm.trans h'.target)
  exact ⟨rfl, Option.some.inj (h.found.symm.trans h'.found)⟩

end Environment.Calls

namespace Environment

/-- A block of a subroutine has a call of another one. -/
def Invokes (e : Environment) (sub callee : Sub) : Prop :=
  ∃ b ∈ sub.blks, ∃ j ∈ b.jmps, ∃ name, e.Calls j name callee

/-- A subroutine is another one, or calls it with others between. -/
def Reaches (e : Environment) : Sub → Sub → Prop :=
  Relation.ReflTransGen e.Invokes

variable {e e' : Environment}

/-- Calls depend on the subroutines only. -/
theorem Grows.calls_eq (h : e.Grows e') : e'.Calls = e.Calls := by
  funext j name callee
  have hfound : e'.findSub? name = e.findSub? name := by rw [findSub?, findSub?, h.subs]
  refine propext ⟨fun hc => ⟨hc.kind, hc.target, hc.named, ?_⟩,
    fun hc => ⟨hc.kind, hc.target, hc.named, ?_⟩⟩
  · exact hfound ▸ hc.found
  · exact hfound.trans hc.found

theorem Grows.invokes_eq (h : e.Grows e') : e'.Invokes = e.Invokes := by
  funext sub callee
  rw [Invokes, Invokes, h.calls_eq]

end Environment

/-- A flag is set, as it is when a callee is entered. -/
def State.mark (s : State) (x : Symbol) : State :=
  s.set x .bool (.bool true)

theorem State.mark_comm (s : State) (x y : Symbol) : (s.mark x).mark y = (s.mark y).mark x := by
  by_cases hxy : y = x
  · rw [hxy]
  · exact s.set_comm (.inl hxy)

/-! ## §2 Runs -/

/-- Where a run stands: on entry, before a block, on the way to a target, or at the jump that is
taken, with the loop counts that it carries. -/
inductive Point where
  | entry
  | block (k : Key)
  | target (counts : Counts) (t : Target)
  | jump (counts : Counts) (j : Jmp)

/-- Runs from a point of a subroutine, to the end. -/
inductive Flow.Executes (e : Environment) : Flow → Point → State → Ending → Prop where
  /-- A subroutine without blocks is left at once. -/
  | empty {f : Flow} {s : State} (hgraph : f.graph = []) : Executes e f .entry s (.exit s)
  /-- Control starts at the first block, where no loop has been entered. -/
  | start {f : Flow} {s : State} {n : Node} {rest : List Node} {o : Ending}
      (hgraph : f.graph = n :: rest) (next : Executes e f (.block (f.key n.label [])) s o) :
      Executes e f .entry s o
  /-- Unrolling cuts the run. -/
  | cut {f : Flow} {k : Key} {s : State} (hcut : f.isCut e.unroll k = .ok true) :
      Executes e f (.block k) s .cut
  /-- A condition on an access ends the run. -/
  | stop {f : Flow} {k : Key} {s : State} {n : Node} {o : Ending}
      (hcut : f.isCut e.unroll k = .ok false) (hnode : f.node k = .ok n)
      (hrun : n.block.run e s = .error o) : Executes e f (.block k) s o
  /-- A jump is taken at the end of the block. -/
  | jumps {f : Flow} {k : Key} {s s' : State} {n : Node} {j : Jmp} {o : Ending}
      (hcut : f.isCut e.unroll k = .ok false) (hnode : f.node k = .ok n)
      (hrun : n.block.run e s = .ok (s', some j)) (next : Executes e f (.jump k.counts j) s' o) :
      Executes e f (.block k) s o
  /-- No jump is taken at the end of the block. -/
  | falls {f : Flow} {k : Key} {s s' : State} {n : Node} {t : Target} {o : Ending}
      (hcut : f.isCut e.unroll k = .ok false) (hnode : f.node k = .ok n)
      (hrun : n.block.run e s = .ok (s', none)) (hafter : f.graph.after n none = some t)
      (next : Executes e f (.target k.counts t) s' o) : Executes e f (.block k) s o
  /-- Control leaves the subroutine. -/
  | leave {f : Flow} {counts : Counts} {s : State} :
      Executes e f (.target counts .outside) s (.exit s)
  /-- Control goes to another block. -/
  | go {f : Flow} {counts : Counts} {l : Label} {s : State} {o : Ending}
      (next : Executes e f (.block (f.key (f.graph.resolve l) counts)) s o) :
      Executes e f (.target counts (.block l)) s o
  /-- A jump other than a call goes to its target. -/
  | goes {f : Flow} {counts : Counts} {j : Jmp} {t : Target} {s : State} {o : Ending}
      (hgoal : j.goal? = some t) (next : Executes e f (.target counts t) s o) :
      Executes e f (.jump counts j) s o
  /-- The callee is left, and the call comes back. -/
  | back {f g : Flow} {counts : Counts} {j : Jmp} {name : String} {callee : Sub} {t : Target}
      {s s' : State} {o : Ending} (hcall : e.Calls j name callee) (hflow : callee.flow = .ok g)
      (body : Executes e g .entry (s.mark (e.flagSymbol name)) (.exit s'))
      (hreturn : j.returns? = some t) (next : Executes e f (.target counts t) s' o) :
      Executes e f (.jump counts j) s o
  /-- The run ends inside of the callee. -/
  | within {f g : Flow} {counts : Counts} {j : Jmp} {name : String} {callee : Sub} {s : State}
      {o : Ending} (hcall : e.Calls j name callee) (hflow : callee.flow = .ok g)
      (body : Executes e g .entry (s.mark (e.flagSymbol name)) o) (hends : ∀ s', o ≠ .exit s') :
      Executes e f (.jump counts j) s o

/-- Runs of a subroutine from its first block. -/
def Sub.Executes (sub : Sub) (e : Environment) (s : State) (o : Ending) : Prop :=
  ∃ f, sub.flow = .ok f ∧ f.Executes e .entry s o

namespace Flow

variable {f g : Flow} {e : Environment} {p : Point} {k : Key} {counts : Counts} {n : Node} {j : Jmp}
  {t : Target} {name : String} {callee : Sub} {o' : Ending}

theorem executes_entry {rest : List Node} (hgraph : f.graph = n :: rest) :
    f.Executes e .entry s o ↔ f.Executes e (.block (f.key n.label [])) s o := by
  constructor
  · intro h
    cases h with
    | empty hgraph' => cases hgraph.symm.trans hgraph'
    | start hgraph' next =>
      cases hgraph.symm.trans hgraph'
      exact next
  · exact .start hgraph

/-- What comes after a block, by how its own run ends. -/
def Proceeds (f : Flow) (e : Environment) (n : Node) (counts : Counts) (o : Ending) :
    Except Ending (State × Option Jmp) → Prop
  | .error o' => o = o'
  | .ok (s, some j) => f.Executes e (.jump counts j) s o
  | .ok (s, none) => ∃ t, f.graph.after n none = some t ∧ f.Executes e (.target counts t) s o

theorem executes_block (hcut : f.isCut e.unroll k = .ok false) (hnode : f.node k = .ok n) :
    f.Executes e (.block k) s o ↔ f.Proceeds e n k.counts o (n.block.run e s) := by
  constructor
  · intro h
    cases h with
    | cut hcut' => cases hcut.symm.trans hcut'
    | stop _ hnode' hrun =>
      cases hnode.symm.trans hnode'
      rw [hrun]
      rfl
    | jumps _ hnode' hrun next =>
      cases hnode.symm.trans hnode'
      rw [hrun]
      exact next
    | falls _ hnode' hrun hafter next =>
      cases hnode.symm.trans hnode'
      rw [hrun]
      exact ⟨_, hafter, next⟩
  · intro h
    cases hrun : n.block.run e s with
    | error o' =>
      rw [hrun] at h
      exact .stop hcut hnode (h ▸ hrun)
    | ok r =>
      obtain ⟨s', chosen⟩ := r
      rw [hrun] at h
      cases chosen with
      | some j => exact .jumps hcut hnode hrun h
      | none =>
        obtain ⟨t, hafter, next⟩ := h
        exact .falls hcut hnode hrun hafter next

theorem executes_outside : f.Executes e (.target counts .outside) s o ↔ o = .exit s := by
  constructor
  · intro h
    cases h with
    | leave => rfl
  · rintro rfl
    exact .leave

theorem executes_go {l : Label} :
    f.Executes e (.target counts (.block l)) s o ↔
      f.Executes e (.block (f.key (f.graph.resolve l) counts)) s o := by
  constructor
  · intro h
    cases h with
    | go next => exact next
  · exact .go

theorem executes_goes (hgoal : j.goal? = some t) :
    f.Executes e (.jump counts j) s o ↔ f.Executes e (.target counts t) s o := by
  constructor
  · intro h
    cases h with
    | goes hgoal' next =>
      cases hgoal.symm.trans hgoal'
      exact next
    | back hcall | within hcall => cases hgoal.symm.trans hcall.goal?_eq
  · exact .goes hgoal

/-- A run that goes on after a callee, or has ended in it. -/
def Resumes (f : Flow) (e : Environment) (p : Point) (o : Ending) : Ending → Prop
  | .exit s => f.Executes e p s o
  | o' => o = o'

/-- **Calls**: the callee runs in the state where it is marked, then the run goes on where the call
comes back to. -/
theorem executes_call (hcall : e.Calls j name callee) (hreturn : j.returns? = some t) :
    f.Executes e (.jump counts j) s o ↔
      ∃ o', callee.Executes e (s.mark (e.flagSymbol name)) o' ∧
        f.Resumes e (.target counts t) o o' := by
  constructor
  · intro h
    cases h with
    | goes hgoal => cases hcall.goal?_eq.symm.trans hgoal
    | back hcall' hflow body hreturn' next =>
      obtain ⟨rfl, rfl⟩ := hcall.unique hcall'
      cases hreturn.symm.trans hreturn'
      exact ⟨_, ⟨_, hflow, body⟩, next⟩
    | within hcall' hflow body hends =>
      obtain ⟨rfl, rfl⟩ := hcall.unique hcall'
      refine ⟨o, ⟨_, hflow, body⟩, ?_⟩
      cases o with
      | exit s' => exact absurd rfl (hends s')
      | cut | excused | failed => exact rfl
  · rintro ⟨o', ⟨g, hflow, body⟩, hresumes⟩
    cases o' with
    | exit s' => exact .back hcall hflow body hreturn hresumes
    | cut | excused | failed =>
      obtain rfl : o = _ := hresumes
      exact .within hcall hflow body (by simp)

/-- **Runs are deterministic**, those of callees included. -/
theorem Executes.unique (h : f.Executes e p s o) (h' : f.Executes e p s o') : o = o' := by
  -- the point and the block run there leave one rule for the second run
  induction h generalizing o' with
  | empty hgraph =>
    cases h' with
    | empty _ => rfl
    | start hgraph' _ => cases hgraph.symm.trans hgraph'
  | start hgraph _ ih => exact ih ((executes_entry hgraph).mp h')
  | cut hcut =>
    cases h' with
    | cut _ => rfl
    | stop hcut' | jumps hcut' | falls hcut' => simp [hcut] at hcut'
  | stop hcut hnode hrun =>
    rw [executes_block hcut hnode, hrun] at h'
    exact h'.symm
  | jumps hcut hnode hrun _ ih =>
    rw [executes_block hcut hnode, hrun] at h'
    exact ih h'
  | falls hcut hnode hrun hafter _ ih =>
    rw [executes_block hcut hnode, hrun] at h'
    obtain ⟨t', hafter', next'⟩ := h'
    cases hafter.symm.trans hafter'
    exact ih next'
  | leave => exact (executes_outside.mp h').symm
  | go _ ih => exact ih (executes_go.mp h')
  | goes hgoal _ ih => exact ih ((executes_goes hgoal).mp h')
  | back hcall hflow _ hreturn _ ihbody ih =>
    -- both runs enter the same callee, and leave it in the same state
    obtain ⟨o', ⟨g', hflow', body'⟩, next'⟩ := (executes_call hcall hreturn).mp h'
    cases hflow.symm.trans hflow'
    cases ihbody body'
    exact ih next'
  | within hcall hflow _ hends ihbody =>
    cases h' with
    | goes hgoal' => cases hcall.goal?_eq.symm.trans hgoal'
    | back hcall' hflow' body' =>
      obtain ⟨rfl, rfl⟩ := hcall.unique hcall'
      cases hflow.symm.trans hflow'
      exact absurd (ihbody body') (hends _)
    | within hcall' hflow' body' =>
      obtain ⟨rfl, rfl⟩ := hcall.unique hcall'
      cases hflow.symm.trans hflow'
      exact ihbody body'

end Flow

/-! ## §3 Marks -/

namespace Environment

variable {e : Environment} {v : Var} {t : Term}

/-- The constant of a variable is never Boolean. -/
theorem Sound.termOf (h : e.Sound) (ht : e.termOf v = .ok t) :
    ∃ name srt, t = .const name srt ∧ srt ≠ .bool := by
  simp only [Environment.termOf, bind_eq_ok] at ht
  obtain ⟨l, hl, ht⟩ := ht
  split at ht
  · next u hu =>
    obtain rfl := pure_eq_ok.mp ht
    obtain ⟨name, srt, rfl, howns⟩ := Gives.const ⟨l, hl, hu⟩ h
    exact ⟨name, srt, rfl, h.owns_ne_bool howns⟩
  · simp only [bind_eq_ok, pure_eq_ok] at ht
    obtain ⟨n, -, name, -, srt, hsrt, rfl⟩ := ht
    exact ⟨name, srt, rfl, sortOf_ne_bool hsrt⟩

/-- A mark is no value of a variable. -/
theorem Sound.look_mark (h : e.Sound) (s : State) (x : Symbol) : e.look (s.mark x) = e.look s := by
  funext v
  rw [look, look]
  cases ht : e.termOf v with
  | error _ => rfl
  | ok t =>
    obtain ⟨name, srt, rfl, hne⟩ := h.termOf ht
    exact s.const_set_ne (.inr hne)

theorem Sound.assign_mark (h : e.Sound) (s : State) (x : Symbol) (v : Var) (y : Value) :
    e.assign (s.mark x) v y = (e.assign s v y).mark x := by
  rw [assign, assign]
  cases ht : e.termOf v with
  | error _ => rfl
  | ok t =>
    obtain ⟨name, srt, rfl, hne⟩ := h.termOf ht
    exact s.set_comm (.inr hne)

end Environment

/-- An ending with a mark in the state that is left. -/
def Ending.mark (x : Symbol) : Ending → Ending
  | .exit s => .exit (s.mark x)
  | o => o

section Frame

variable {e : Environment} (hs : e.Sound) (he : e.hooks = [])
include he

/-- Without hooks no block ends a run. -/
theorem Blk.run_ne_error (b : Blk) : b.run e s ≠ .error o := by
  intro hrun
  obtain ⟨_, _, hobjects⟩ := Blk.objection_of_run hrun
  rw [Environment.objection?_eq_none he] at hobjects
  cases hobjects

theorem Flow.Executes.exit_or_cut {f : Flow} {p : Point} (h : f.Executes e p s o) :
    (∃ s', o = .exit s') ∨ o = .cut := by
  induction h with
  | empty _ | leave => exact .inl ⟨_, rfl⟩
  | cut _ => exact .inr rfl
  | stop _ _ hrun => exact absurd hrun (Blk.run_ne_error he _)
  | start _ _ ih | jumps _ _ _ _ ih | falls _ _ _ _ _ ih | go _ ih | goes _ _ ih => exact ih
  | back _ _ _ _ _ _ ih => exact ih
  | within _ _ _ _ ihbody => exact ihbody

include hs

theorem Def.run_mark (d : Def) (s : State) (x : Symbol) :
    d.run e (s.mark x) = (·.mark x) <$> d.run e s := by
  simp only [run, Environment.objection?_eq_none he, hs.look_mark, hs.assign_mark]
  rfl

theorem Def.foldlM_run_mark (ds : List Def) (s : State) (x : Symbol) :
    ds.foldlM (Def.run e) (s.mark x) = (·.mark x) <$> ds.foldlM (Def.run e) s := by
  induction ds generalizing s with
  | nil => rfl
  | cons d ds ih =>
    rw [List.foldlM_cons, List.foldlM_cons, d.run_mark hs he]
    cases d.run e s with
    | error o => rfl
    | ok s' => exact ih s'

theorem Jmp.choose_mark (js : List Jmp) (s : State) (x : Symbol) :
    Jmp.choose e (s.mark x) js = Jmp.choose e s js := by
  induction js with
  | nil => rfl
  | cons j js ih =>
    simp only [choose, Environment.objection?_eq_none he, hs.look_mark, ih]

theorem Blk.run_mark (b : Blk) (s : State) (x : Symbol) :
    b.run e (s.mark x) = (fun r => (r.1.mark x, r.2)) <$> b.run e s := by
  rw [run, run, Def.foldlM_run_mark hs he]
  cases b.defs.foldlM (Def.run e) s with
  | error o => rfl
  | ok s' =>
    change (do return (s'.mark x, ← Jmp.choose e (s'.mark x) b.jmps)) = _ <$> (do
      return (s', ← Jmp.choose e s' b.jmps))
    rw [Jmp.choose_mark hs he]
    cases Jmp.choose e s' b.jmps <;> rfl

/-- **Frame rule for marks**: with one more mark on entry a run goes the same way, and ends with one
more mark. -/
theorem Flow.Executes.mark {f : Flow} {p : Point} (x : Symbol) (h : f.Executes e p s o) :
    f.Executes e p (s.mark x) (o.mark x) := by
  induction h with
  | empty hgraph => exact .empty hgraph
  | start hgraph _ ih => exact .start hgraph ih
  | cut hcut => exact .cut hcut
  | stop _ _ hrun => exact absurd hrun (Blk.run_ne_error he _)
  | jumps hcut hnode hrun _ ih => exact .jumps hcut hnode (by rw [Blk.run_mark hs he, hrun]; rfl) ih
  | falls hcut hnode hrun hafter _ ih =>
    exact .falls hcut hnode (by rw [Blk.run_mark hs he, hrun]; rfl) hafter ih
  | leave => exact .leave
  | go _ ih => exact .go ih
  | goes hgoal _ ih => exact .goes hgoal ih
  | back hcall hflow _ hreturn _ ihbody ih =>
    -- the callee starts with its own mark and the new one, in either order
    rw [State.mark_comm] at ihbody
    exact .back hcall hflow ihbody hreturn ih
  | @within f g counts j name callee s o hcall hflow _ hends ihbody =>
    rw [State.mark_comm] at ihbody
    refine .within hcall hflow ihbody ?_
    cases o with
    | exit s' => exact absurd rfl (hends s')
    | cut | excused | failed => simp [Ending.mark]

end Frame

/-! ## §4 Subroutines -/

namespace Sub

variable {sub : Sub} {e : Environment} {o' : Ending}

theorem Executes.unique (h : sub.Executes e s o) (h' : sub.Executes e s o') : o = o' := by
  obtain ⟨f, hf, hrun⟩ := h
  obtain ⟨f', hf', hrun'⟩ := h'
  cases hf.symm.trans hf'
  exact hrun.unique hrun'

/-- Without conditions on accesses, a run ends well if it leaves well, or is cut and cuts count as
true. -/
theorem Executes.accepts_iff (he : e.hooks = []) (h : sub.Executes e s o) : o.Accepts P b ↔
      (∃ s', sub.Executes e s (.exit s') ∧ P s') ∨ (sub.Executes e s .cut ∧ b = true) := by
  have hends : (∃ s', o = .exit s') ∨ o = .cut := by
    obtain ⟨f, -, hrun⟩ := h
    exact hrun.exit_or_cut he
  constructor
  · intro ho
    rcases hends with ⟨s', rfl⟩ | rfl
    · exact .inl ⟨s', h, ho⟩
    · exact .inr ⟨h, ho⟩
  · rintro (⟨s', hrun, hs'⟩ | ⟨hrun, hb⟩)
    · rwa [h.unique hrun]
    · rwa [h.unique hrun]

/-- To set a mark before a run is to set it after. -/
theorem Executes.mark (hs : e.Sound) (he : e.hooks = []) (h : sub.Executes e s o) (x : Symbol) :
    sub.Executes e (s.mark x) (o.mark x) := by
  obtain ⟨f, hf, hrun⟩ := h
  exact ⟨f, hf, hrun.mark hs he x⟩

end Sub

end Antecedent
