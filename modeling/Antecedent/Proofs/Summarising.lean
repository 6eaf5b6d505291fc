import Antecedent.Proofs.Calling
import Antecedent.Proofs.Framing

/-!
# Running subroutines whose calls are summarised

A call that is not walked comes back at once.  Its summary says which variables it writes; what it
writes there is not known, so it is read off a state: the value of a constant that belongs to this
call alone, or the value of a function of the inputs.

* `Clobber` is a variable that a call writes.
* `Flow.Logs` are the runs, with the names of the functions called on the way.  A table says for
  every call of every key which constants belong to it.
-/

namespace Antecedent

variable {f : Flow} {e : Environment} {s : State} {R : List String → State → Prop}
  {g : State → State} {j : Option Jmp}

/-! ## §1 What calls write -/

/-- A variable that a call writes: a function of its inputs, or any value if there are none.  The
stem is what the name of the function or of the value starts with. -/
structure Clobber where
  var : Var
  stem : String
  width : Json
  inputs : List Var

namespace Environment

/-- The subroutine of a name; one that is not known has no body. -/
def subNamed (e : Environment) (name : String) : Sub :=
  (e.findSub? name).getD { name := .str name }

/-- The input registers, as far as call results depend on them. -/
def inputVars (e : Environment) : List Var :=
  if e.useInputs then e.arch.inputRegisters.filterMap fun r => (e.regVar r).toOption else []

/-- The return register, if the target has one with a name. -/
def returnNames (e : Environment) : List String :=
  e.arch.returnRegister.toList.filter (!·.isEmpty)

/-- Registers as variables that a call writes; names that are no registers are passed over. -/
def havocked (e : Environment) (callee : Sub) (registers functional : List String) :
    List Clobber :=
  registers.filterMap fun r => (e.regVar r).toOption.map fun v =>
    ⟨v, callee.name.inText ++ "_" ++ r, v.width, if functional.contains r then e.inputVars else []⟩

def clobbers (e : Environment) (callee : Sub) : Summary → List Clobber
  | .nondet => e.havocked callee e.returnNames []
  | .instrumentation => e.havocked callee Summary.instrumentationRegisters []
  | .arguments => (callee.args.filter Build.isOutput).map fun a =>
    ⟨a.var, callee.name.inText ++ "_" ++ a.var.name.inText, a.var.width,
      if e.useInputs then (callee.args.filter Build.isInput).map (·.var) else []⟩
  | .clobber => e.havocked callee e.arch.callerSaved e.returnNames
  | .result => e.havocked callee e.returnNames e.returnNames
  | _ => []

end Environment

/-- A summary that says what a call writes, and no more: there are no demands on its arguments, and
no body is walked. -/
def Summary.isPlain : Summary → Bool
  | .error | .assume | .inline _ => false
  | _ => true

/-- A call is answered: it goes to a function by its name, and the summary of that function says
what the call writes. -/
def Environment.Answers (e : Environment) (j : Jmp) : Prop :=
  ∃ name, j.target = .str name ∧ name ≠ "" ∧
    ∀ s, e.resolve (e.subNamed name) = .ok s → s.isPlain = true

def Environment.AnswersAll (e : Environment) (sub : Sub) : Prop :=
  ∀ b ∈ sub.blks, ∀ j ∈ b.jmps, j.kind = .call → e.Answers j

/-- What belongs to one call: the variables that it writes, with the numbers of their constants. -/
abbrev Site := List (Clobber × Nat)

/-- For every key, what belongs to the calls at the places of its block. -/
abbrev Sites := Key → Nat → Option Site

namespace Clobber

/-- The constants of a call are numbered one after the other.  Functions of inputs need none. -/
def numbered : Nat → List Clobber → Site
  | _, [] => []
  | n, c :: cs =>
    let n := if c.inputs.isEmpty then n + 1 else n
    (c, n) :: numbered n cs

/-- The value that a call writes: its constant and its function are those of the first state, its
inputs are read in the second one. -/
def value (e : Environment) (a s : State) (c : Clobber) (n : Nat) : Value :=
  let w := (Term.fieldWidth c.width).toOption.getD 0
  if c.inputs.isEmpty then a.const (e.freshSymbol c.stem n) (.bits w)
  else
    let args := c.inputs.map (e.look s)
    .bits w (a.apply (.ofText c.stem) (args.map Value.sort) w args % 2 ^ w)

theorem mem_of_mem_numbered {n : Nat} {cs : List Clobber} {p : Clobber × Nat}
    (h : p ∈ numbered n cs) : p.1 ∈ cs := by
  induction cs generalizing n with
  | nil => cases h
  | cons c cs ih =>
    rcases List.mem_cons.mp h with rfl | h
    · exact List.mem_cons_self ..
    · exact List.mem_cons_of_mem _ (ih h)

end Clobber

/-- What belongs to a jump that is a call: the variables of the summary of its function, with the
numbers from some number on. -/
def Jmp.HasSite (e : Environment) (j : Jmp) (own : Site) : Prop :=
  j.kind = .call ∧ ∃ name s n, j.callee = .ok name ∧ e.resolve (e.subNamed name) = .ok s ∧
    own = Clobber.numbered n (e.clobbers (e.subNamed name) s)

def Site.IsNew (e : Environment) (site : Site) : Prop :=
  ∀ p ∈ site, ∀ w, ¬e.Owns (e.freshSymbol p.1.stem p.2) (.bits w)

/-- All constants of a site have numbers between two others. -/
def Site.Within (n m : Nat) (site : Site) : Prop :=
  ∀ p ∈ site, p.1.inputs = [] → n < p.2 ∧ p.2 ≤ m

/-- The state after some variables are written; of several values for one variable the first one
counts. -/
def Environment.assignAll (e : Environment) (s : State) (ws : List (Var × Value)) : State :=
  ws.foldr (fun w t => e.assign t w.1 w.2) s

/-- The state after a call.  All values are read before the first one is written. -/
def Environment.answered (e : Environment) (a s : State) (site : Site) : State :=
  e.assignAll s (site.map fun p => (p.1.var, p.1.value e a s p.2))

/-! ## §2 Runs -/

def Jmp.place (e : Environment) (s : State) (js : List Jmp) : Nat :=
  js.findIdx fun j => decide ((j.cond.value (e.look s)).toNat ≠ 0)

/-- Where control goes when a jump is taken, with the state there and the function called on the
way. -/
def Jmp.hop? (e : Environment) (a s : State) (site : Option Site) (j : Jmp) :
    Option (State × List String × Target) :=
  if j.kind = .call then do
    let name ← j.callee.toOption
    return ((e.answered a s (← site)).mark (e.flagSymbol name), [name], ← j.returns?)
  else j.goal?.map fun t => (s, [], t)

def Flow.hop? (f : Flow) (e : Environment) (sites : Sites) (a : State) (k : Key) (n : Node)
    (s : State) : Option Jmp → Option (State × List String × Target)
  | some j => j.hop? e a s (sites k (Jmp.place e s n.block.jmps))
  | none => (f.graph.after n none).map fun t => (s, [], t)

/-- Runs from the block of a key, to the end, where calls are answered from a state, with the names
of the functions called. -/
inductive Flow.Logs (f : Flow) (e : Environment) (sites : Sites) (a : State) :
    Key → State → Ending → List String → Prop where
  /-- Unrolling cuts the run. -/
  | cut {k : Key} {s : State} (hcut : f.isCut e.unroll k = .ok true) : Logs f e sites a k s .cut []
  /-- Control leaves the subroutine. -/
  | leave {k : Key} {s s' s'' : State} {n : Node} {j : Option Jmp} {names : List String}
      (hcut : f.isCut e.unroll k = .ok false) (hnode : f.node k = .ok n)
      (hrun : n.block.run e s = .ok (s', j))
      (hhop : f.hop? e sites a k n s' j = some (s'', names, .outside)) :
      Logs f e sites a k s (.exit s'') names
  /-- Control goes to another block. -/
  | go {k : Key} {s s' s'' : State} {n : Node} {j : Option Jmp} {names rest : List String}
      {l : Label} {o : Ending} (hcut : f.isCut e.unroll k = .ok false) (hnode : f.node k = .ok n)
      (hrun : n.block.run e s = .ok (s', j))
      (hhop : f.hop? e sites a k n s' j = some (s'', names, .block l))
      (next : Logs f e sites a (f.key (f.graph.resolve l) k.counts) s'' o rest) :
      Logs f e sites a k s o (names ++ rest)

/-- Runs of a subroutine from its first block; one without blocks is left at once. -/
def Sub.Logs (sub : Sub) (e : Environment) (sites : Sites) (a s : State) (o : Ending)
    (names : List String) : Prop :=
  if sub.blks.isEmpty then o = .exit s ∧ names = []
  else ∃ f n rest, sub.flow = .ok f ∧ f.graph = n :: rest ∧
    f.Logs e sites a (f.key n.label []) s o names

/-- **Runs are deterministic.** -/
theorem Flow.Logs.unique {sites : Sites} {a : State} {k : Key} {o o' : Ending}
    {names names' : List String} (h : f.Logs e sites a k s o names)
    (h' : f.Logs e sites a k s o' names') : o = o' ∧ names = names' := by
  -- block, state and sites leave one rule for the second run
  induction h generalizing o' names' with
  | cut hcut =>
    cases h' with
    | cut _ => exact ⟨rfl, rfl⟩
    | leave hcut' | go hcut' => simp [hcut] at hcut'
  | leave hcut hnode hrun hhop =>
    cases h' with
    | cut hcut' => simp [hcut] at hcut'
    | leave _ hnode' hrun' hhop' =>
      cases hnode.symm.trans hnode'
      cases hrun.symm.trans hrun'
      cases hhop.symm.trans hhop'
      exact ⟨rfl, rfl⟩
    | go _ hnode' hrun' hhop' =>
      cases hnode.symm.trans hnode'
      cases hrun.symm.trans hrun'
      cases hhop.symm.trans hhop'
  | go hcut hnode hrun hhop _ ih =>
    cases h' with
    | cut hcut' => simp [hcut] at hcut'
    | leave _ hnode' hrun' hhop' =>
      cases hnode.symm.trans hnode'
      cases hrun.symm.trans hrun'
      cases hhop.symm.trans hhop'
    | go _ hnode' hrun' hhop' next' =>
      cases hnode.symm.trans hnode'
      cases hrun.symm.trans hrun'
      cases hhop.symm.trans hhop'
      obtain ⟨rfl, rfl⟩ := ih next'
      exact ⟨rfl, rfl⟩

/-! ## §3 Local calls -/

/-- A call writes and reads the constants of an environment only. -/
structure Clobber.Local (e : Environment) (c : Clobber) : Prop where
  writes : ∃ t, e.Gives c.var t
  reads : ∀ v ∈ c.inputs, ∃ t, e.Gives v t

/-- Whether all calls of a site keep to the constants of an environment. -/
def Site.Local (e : Environment) (site : Site) : Prop :=
  ∀ p ∈ site, p.1.Local e

section Calls

variable {a : State} {site : Site}

theorem Clobber.Local.value_eq {c : Clobber} (hs : e.Sound) (hc : c.Local e) {s' : State}
    (h : e.Agree s s') (n : Nat) : c.value e a s n = c.value e a s' n := by
  have hargs : c.inputs.map (e.look s) = c.inputs.map (e.look s') := by
    refine List.map_congr_left fun v hv => ?_
    obtain ⟨t, ht⟩ := hc.reads v hv
    obtain ⟨name, srt, rfl, howns⟩ := ht.const hs
    rw [ht.look_eq, ht.look_eq, Term.eval_const, Term.eval_const, h howns]
  simp only [value, hargs]

theorem Environment.assignAll_keeps (hs : e.Sound) {R : State → Prop}
    (hset : ∀ ⦃s name srt⦄ v, e.Owns name srt → R s → R (s.set name srt v))
    {ws : List (Var × Value)} (hws : ∀ w ∈ ws, ∃ t, e.Gives w.1 t) (h : R s) :
    R (e.assignAll s ws) := by
  induction ws with
  | nil => exact h
  | cons w ws ih =>
    obtain ⟨⟨t, ht⟩, hws⟩ := List.forall_mem_cons.mp hws
    obtain ⟨name, srt, rfl, howns⟩ := ht.const hs
    rw [assignAll, List.foldr_cons, ht.assign_eq]
    exact hset _ howns (ih hws)

theorem Environment.assignAll_frame (hs : e.Sound) (hg : e.Frame g) {ws : List (Var × Value)}
    (hws : ∀ w ∈ ws, ∃ t, e.Gives w.1 t) : e.assignAll (g s) ws = g (e.assignAll s ws) := by
  induction ws with
  | nil => rfl
  | cons w ws ih =>
    obtain ⟨⟨t, ht⟩, hws⟩ := List.forall_mem_cons.mp hws
    obtain ⟨name, srt, rfl, howns⟩ := ht.const hs
    have ih := ih hws
    rw [assignAll] at ih
    rw [assignAll, assignAll, List.foldr_cons, List.foldr_cons, ih, ht.assign_eq, ht.assign_eq,
      hg.set _ _ howns]
    rfl

theorem Site.Local.answered_keeps (hs : e.Sound) (hsite : Site.Local e site) {R : State → Prop}
    (hset : ∀ ⦃s name srt⦄ v, e.Owns name srt → R s → R (s.set name srt v)) (h : R s) :
    R (e.answered a s site) :=
  Environment.assignAll_keeps hs hset (List.forall_mem_map.mpr fun p hp => (hsite p hp).writes) h

theorem Site.Local.answered_frame (hs : e.Sound) (hsite : Site.Local e site) (hg : e.Frame g) :
    e.answered a (g s) site = g (e.answered a s site) := by
  have hvalues : site.map (fun p => (p.1.var, p.1.value e a (g s) p.2)) =
      site.map fun p => (p.1.var, p.1.value e a s p.2) :=
    List.map_congr_left fun p hp => by rw [(hsite p hp).value_eq hs (hg.agree s)]
  rw [Environment.answered, hvalues]
  exact Environment.assignAll_frame hs hg
    (List.forall_mem_map.mpr fun p hp => (hsite p hp).writes)

end Calls

/-! ## §4 Traceable runs -/

theorem Jmp.mem_of_choose {js : List Jmp} {j : Jmp} (h : Jmp.choose e s js = .ok (some j)) :
    j ∈ js := by
  induction js with
  | nil => cases h
  | cons i js ih =>
    rw [choose] at h
    split at h
    · cases h
    · split at h
      · obtain rfl : i = j := by simpa using h
        exact List.mem_cons_self ..
      · exact List.mem_cons_of_mem _ (ih h)

theorem Blk.mem_of_run {b : Blk} {s' : State} (h : b.run e s = .ok (s', j)) :
    ∀ i ∈ j, i ∈ b.jmps := by
  rintro i rfl
  simp only [run, bind_eq_ok, pure_eq_ok, Prod.mk.injEq] at h
  obtain ⟨_, -, _, hchoose, rfl, rfl⟩ := h
  exact Jmp.mem_of_choose hchoose

def Flow.Calls (f : Flow) (name : String) : Prop :=
  ∃ n ∈ f.graph, ∃ j ∈ n.block.jmps, j.kind = .call ∧ j.callee = .ok name

namespace Jmp

variable {a s' : State} {site : Option Site} {j : Jmp} {names : List String} {t : Target}

/-- What a jump can do: go to its target, or call a function and go on where it comes back to. -/
theorem hop?_cases (h : j.hop? e a s site = some (s', names, t)) :
    (j.kind ≠ .call ∧ j.goal? = some t ∧ s' = s ∧ names = []) ∨
      (j.kind = .call ∧ ∃ name own, j.callee = .ok name ∧ site = some own ∧ j.returns? = some t ∧
        s' = (e.answered a s own).mark (e.flagSymbol name) ∧ names = [name]) := by
  unfold hop? at h
  split at h
  · next hkind =>
    simp only [Option.bind_eq_bind, Option.bind_eq_some_iff, Option.pure_def, Option.some.injEq,
      Prod.mk.injEq] at h
    obtain ⟨name, hname, own, hown, t', ht', rfl, rfl, rfl⟩ := h
    have hname : j.callee = .ok name := by
      cases hc : j.callee with
      | error f => simp [hc, Except.toOption] at hname
      | ok name' => simpa [hc, Except.toOption] using hname
    exact .inr ⟨hkind, name, own, hname, hown, ht', rfl, rfl⟩
  · next hkind =>
    obtain ⟨t', ht', heq⟩ := Option.map_eq_some_iff.mp h
    obtain ⟨rfl, rfl, rfl⟩ : s = s' ∧ [] = names ∧ t' = t := by simpa using heq
    exact .inl ⟨hkind, ht', rfl, rfl⟩

theorem hop?_goes (hkind : j.kind ≠ .call) (ht : j.goal? = some t) :
    j.hop? e a s site = some (s, [], t) := by
  rw [hop?, if_neg hkind, ht]
  rfl

theorem hop?_call {name : String} {own : Site} (hkind : j.kind = .call)
    (hname : j.callee = .ok name) (ht : j.returns? = some t) :
    j.hop? e a s (some own) = some ((e.answered a s own).mark (e.flagSymbol name), [name], t) := by
  rw [hop?, if_pos hkind, hname, ht]
  rfl

end Jmp

namespace Flow

/-- All runs from a key end, go through local blocks, and make local calls. -/
inductive Traceable (f : Flow) (e : Environment) (sites : Sites) : Key → Prop where
  | cut {k : Key} (hcut : f.isCut e.unroll k = .ok true) : Traceable f e sites k
  | block {k : Key} {n : Node} (hcut : f.isCut e.unroll k = .ok false) (hnode : f.node k = .ok n)
      (hlocal : n.block.Local e) (hsites : ∀ i own, sites k i = some own → Site.Local e own)
      (hhop : ∀ a s s' j, n.block.run e s = .ok (s', j) → ∃ r, f.hop? e sites a k n s' j = some r)
      (hnext : ∀ a s s' j s'' names l, n.block.run e s = .ok (s', j) →
        f.hop? e sites a k n s' j = some (s'', names, .block l) →
        Traceable f e sites (f.key (f.graph.resolve l) k.counts)) : Traceable f e sites k

variable {sites : Sites} {a s' : State} {k : Key} {n : Node} {o : Ending} {names : List String}

theorem hop?_keeps {s'' : State} {t : Target} {l : List String} (hs : e.Sound)
    (hset : ∀ ⦃log s name srt⦄ v, e.Owns name srt → R log s → R log (s.set name srt v))
    (hmark : ∀ ⦃log s name⦄, f.Calls name → R log s →
      R (log ++ [name]) (s.mark (e.flagSymbol name))) (hnode : f.node k = .ok n)
    (hlocal : n.block.Local e) (hsites : ∀ i own, sites k i = some own → Site.Local e own)
    (hrun : n.block.run e s = .ok (s', j)) (hhop : f.hop? e sites a k n s' j = some (s'', names, t))
    (h0 : R l s) : R (l ++ names) s'' := by
  have hblock : R l s' := Blk.run_keeps hs (fun _ _ _ v ho hr => hset v ho hr) hlocal hrun h0
  cases j with
  | none =>
    obtain ⟨t', -, heq⟩ := Option.map_eq_some_iff.mp hhop
    obtain ⟨rfl, rfl, -⟩ : s' = s'' ∧ [] = names ∧ t' = t := by simpa using heq
    rwa [List.append_nil]
  | some j =>
    rcases Jmp.hop?_cases hhop with ⟨-, -, rfl, rfl⟩ | ⟨hkind, name, own, hname, hown, -, rfl, rfl⟩
    · rwa [List.append_nil]
    · refine hmark ⟨n, mem_of_node hnode, j, Blk.mem_of_run hrun j rfl, hkind, hname⟩ ?_
      exact (hsites _ own hown).answered_keeps hs (fun _ _ _ v ho hr => hset v ho hr) hblock

section Frame

variable (hs : e.Sound) (hg : e.Frame g) (hmark : ∀ name, f.Calls name →
    ∀ s, g (s.mark (e.flagSymbol name)) = (g s).mark (e.flagSymbol name))
include hg

omit hg in
theorem place_frame {js : List Jmp} (hjs : ∀ j ∈ js, j.cond.Local e) (hg : e.Frame g) :
    Jmp.place e (g s) js = Jmp.place e s js := by
  unfold Jmp.place
  induction js with
  | nil => rfl
  | cons j js ih =>
    obtain ⟨hj, hjs⟩ := List.forall_mem_cons.mp hjs
    rw [List.findIdx_cons, List.findIdx_cons, ih hjs, hj.value_eq (hg.agree s)]

include hs hmark

/-- What a block does and where it leads to is the same in a changed state. -/
theorem hop?_frame {s'' : State} {t : Target} (he : e.hooks = []) (hnode : f.node k = .ok n)
    (hlocal : n.block.Local e) (hsites : ∀ i own, sites k i = some own → Site.Local e own)
    (hrun : n.block.run e s = .ok (s', j)) (hhop : f.hop? e sites a k n s' j = some (s'', names, t))
    :
    n.block.run e (g s) = .ok (g s', j) ∧
      f.hop? e sites a k n (g s') j = some (g s'', names, t) := by
  refine ⟨by rw [Blk.run_frame (Environment.blind_of_hooks he) hg hs hlocal, hrun]; rfl, ?_⟩
  cases j with
  | none =>
    obtain ⟨t', ht', heq⟩ := Option.map_eq_some_iff.mp hhop
    obtain ⟨rfl, rfl, rfl⟩ : s' = s'' ∧ [] = names ∧ t' = t := by simpa using heq
    rw [hop?, ht']
    rfl
  | some j =>
    rw [hop?, place_frame hlocal.jumps hg]
    rcases Jmp.hop?_cases hhop with ⟨hkind, hgoal, rfl, rfl⟩ |
      ⟨hkind, name, own, hname, hown, hreturn, rfl, rfl⟩
    · exact Jmp.hop?_goes hkind hgoal
    · have hcalls : f.Calls name :=
        ⟨n, mem_of_node hnode, j, Blk.mem_of_run hrun j rfl, hkind, hname⟩
      rw [hown, Jmp.hop?_call hkind hname hreturn, (hsites _ own hown).answered_frame hs hg,
        hmark name hcalls]

/-- **Frame rule for runs**: a run goes the same way in a changed state, and calls the same
functions. -/
theorem Logs.frame (he : e.hooks = []) (hk : f.Traceable e sites k)
    (h : f.Logs e sites a k s o names) : f.Logs e sites a k (g s) (o.map g) names := by
  induction h with
  | cut hcut => exact .cut hcut
  | leave hcut hnode hrun hhop =>
    cases hk with
    | cut hcut' => cases hcut.symm.trans hcut'
    | block _ hnode' hlocal hsites _ _ =>
      cases hnode.symm.trans hnode'
      obtain ⟨hrun', hhop'⟩ := hop?_frame hs hg hmark he hnode hlocal hsites hrun hhop
      exact .leave hcut hnode hrun' hhop'
  | go hcut hnode hrun hhop _ ih =>
    cases hk with
    | cut hcut' => cases hcut.symm.trans hcut'
    | block _ hnode' hlocal hsites _ hnext =>
      cases hnode.symm.trans hnode'
      obtain ⟨hrun', hhop'⟩ := hop?_frame hs hg hmark he hnode hlocal hsites hrun hhop
      exact .go hcut hnode hrun' hhop' (ih (hnext _ _ _ _ _ _ _ hrun hhop))

end Frame

/-- **Runs end**: there is a run from every state. -/
theorem Traceable.logs (h : f.Traceable e sites k) (he : e.hooks = []) (a s : State) :
    ∃ o names, f.Logs e sites a k s o names := by
  induction h generalizing s with
  | cut hcut => exact ⟨.cut, [], .cut hcut⟩
  | @block k n hcut hnode hlocal _ hhop _ ih =>
    cases hrun : n.block.run e s with
    | error o => exact absurd hrun (n.block.run_ne_error he)
    | ok r =>
      obtain ⟨s', j⟩ := r
      obtain ⟨⟨s'', names, t⟩, hr⟩ := hhop a s s' j hrun
      cases t with
      | outside => exact ⟨_, _, .leave hcut hnode hrun hr⟩
      | block l =>
        obtain ⟨o, rest, ho⟩ := ih a s s' j s'' names l hrun hr s''
        exact ⟨o, _, .go hcut hnode hrun hr ho⟩

theorem Logs.exit_or_cut (h : f.Logs e sites a k s o names) : (∃ s', o = .exit s') ∨ o = .cut := by
  induction h with
  | cut _ => exact .inr rfl
  | leave => exact .inl ⟨_, rfl⟩
  | go _ _ _ _ _ ih => exact ih

/-- **What a run keeps**: whatever all writes to the constants of its environment and all marks of
the functions that it may call keep. -/
theorem Logs.keeps {log : List String} (hs : e.Sound)
    (hset : ∀ ⦃log s name srt⦄ v, e.Owns name srt → R log s → R log (s.set name srt v))
    (hmark : ∀ ⦃log s name⦄, f.Calls name → R log s →
      R (log ++ [name]) (s.mark (e.flagSymbol name))) (hk : f.Traceable e sites k)
    (h : f.Logs e sites a k s (.exit s') names) (h0 : R log s) : R (log ++ names) s' := by
  generalize ho : Ending.exit s' = o at h
  -- every hop adds what it calls to the log so far
  induction h generalizing log with
  | cut hcut => cases ho
  | leave hcut hnode hrun hhop =>
    cases ho
    cases hk with
    | cut hcut' => cases hcut.symm.trans hcut'
    | block _ hnode' hlocal hsites _ _ =>
      cases hnode.symm.trans hnode'
      exact hop?_keeps hs hset hmark hnode hlocal hsites hrun hhop h0
  | go hcut hnode hrun hhop _ ih =>
    cases hk with
    | cut hcut' => cases hcut.symm.trans hcut'
    | block _ hnode' hlocal hsites _ hnext =>
      cases hnode.symm.trans hnode'
      rw [← List.append_assoc]
      exact ih (hnext _ _ _ _ _ _ _ hrun hhop)
        (hop?_keeps hs hset hmark hnode hlocal hsites hrun hhop h0) ho

end Flow

/-! ## §5 Subroutines -/

namespace Sub

def Calls (sub : Sub) (name : String) : Prop :=
  ∃ b ∈ sub.blks, ∃ j ∈ b.jmps, j.kind = .call ∧ j.callee = .ok name

end Sub

/-- No variable of an environment has the name of a constant that a call may make. -/
def Environment.Reserves (e : Environment) (sub : Sub) : Prop :=
  ∀ name s, sub.Calls name → e.resolve (e.subNamed name) = .ok s →
    ∀ c ∈ e.clobbers (e.subNamed name) s, ∀ n w, ¬e.Owns (e.freshSymbol c.stem n) (.bits w)

namespace Sub

/-- All runs of a subroutine end, go through local blocks, and make local calls. -/
def Traceable (sub : Sub) (e : Environment) (sites : Sites) : Prop :=
  sub.blks.isEmpty ∨
    ∃ f n rest, sub.flow = .ok f ∧ f.graph = n :: rest ∧ f.Traceable e sites (f.key n.label [])

variable {sub : Sub} {sites : Sites} {a s' : State} {o o' : Ending} {names names' : List String}

theorem calls_of_flow {name : String} (hf : sub.flow = .ok f) (h : f.Calls name) :
    sub.Calls name := by
  obtain ⟨n, hn, hj⟩ := h
  exact ⟨n.block, map_block_flow hf ▸ List.mem_map_of_mem hn, hj⟩

theorem logs_iff {n : Node} {rest : List Node} (hf : sub.flow = .ok f) (hcons : f.graph = n :: rest)
    :
    sub.Logs e sites a s o names ↔ f.Logs e sites a (f.key n.label []) s o names := by
  have hblks : ¬sub.blks.isEmpty := by simp [← map_block_flow hf, hcons]
  rw [Logs, if_neg hblks]
  constructor
  · rintro ⟨f', n', rest', hf', hcons', hlogs⟩
    cases hf.symm.trans hf'
    cases hcons.symm.trans hcons'
    exact hlogs
  · exact fun hlogs => ⟨f, n, rest, hf, hcons, hlogs⟩

theorem Logs.unique (h : sub.Logs e sites a s o names) (h' : sub.Logs e sites a s o' names') :
    o = o' ∧ names = names' := by
  unfold Logs at h h'
  split at h
  · next hempty =>
    rw [if_pos hempty] at h'
    exact ⟨h.1.trans h'.1.symm, h.2.trans h'.2.symm⟩
  · next hempty =>
    rw [if_neg hempty] at h'
    obtain ⟨f, n, rest, hf, hcons, hlogs⟩ := h
    obtain ⟨f', n', rest', hf', hcons', hlogs'⟩ := h'
    cases hf.symm.trans hf'
    cases hcons.symm.trans hcons'
    exact hlogs.unique hlogs'

theorem Logs.exit_or_cut (h : sub.Logs e sites a s o names) :
    (∃ s', o = .exit s') ∨ o = .cut := by
  unfold Logs at h
  split at h
  · exact .inl ⟨s, h.1⟩
  · obtain ⟨f, n, rest, -, -, hlogs⟩ := h
    exact hlogs.exit_or_cut

section Traceable

variable (hsub : sub.Traceable e sites)
include hsub

theorem Traceable.logs (he : e.hooks = []) (a s : State) :
    ∃ o names, sub.Logs e sites a s o names := by
  rcases hsub with hempty | ⟨f, n, rest, hf, hcons, hk⟩
  · exact ⟨.exit s, [], by rw [Logs, if_pos hempty]; exact ⟨rfl, rfl⟩⟩
  · obtain ⟨o, names, ho⟩ := hk.logs he a s
    exact ⟨o, names, (logs_iff hf hcons).mpr ho⟩

theorem Logs.frame (he : e.hooks = []) (hs : e.Sound) (hg : e.Frame g)
    (hmark : ∀ name, sub.Calls name →
      ∀ s, g (s.mark (e.flagSymbol name)) = (g s).mark (e.flagSymbol name))
    (h : sub.Logs e sites a s o names) : sub.Logs e sites a (g s) (o.map g) names := by
  rcases hsub with hempty | ⟨f, n, rest, hf, hcons, hk⟩
  · rw [Logs, if_pos hempty] at h ⊢
    exact ⟨by rw [h.1, Ending.map], h.2⟩
  · rw [logs_iff hf hcons] at h ⊢
    exact h.frame hs hg (fun name hname => hmark name (calls_of_flow hf hname)) he hk

/-- The run of a traceable subroutine keeps whatever all writes to the constants of its environment
and all marks of the functions that it calls keep. -/
theorem Logs.keeps (hs : e.Sound)
    (hset : ∀ ⦃log s name srt⦄ v, e.Owns name srt → R log s → R log (s.set name srt v))
    (hmark : ∀ ⦃log s name⦄, sub.Calls name → R log s →
      R (log ++ [name]) (s.mark (e.flagSymbol name))) (h : sub.Logs e sites a s (.exit s') names)
    (h0 : R [] s) : R names s' := by
  rcases hsub with hempty | ⟨f, n, rest, hf, hcons, hk⟩
  · rw [Logs, if_pos hempty] at h
    obtain ⟨heq, rfl⟩ := h
    rwa [Ending.exit.inj heq]
  · rw [logs_iff hf hcons] at h
    exact h.keeps hs hset (fun _ _ _ hname => hmark (calls_of_flow hf hname)) hk h0

theorem Logs.calls (hs : e.Sound) (h : sub.Logs e sites a s (.exit s') names) :
    ∀ name ∈ names, sub.Calls name := by
  refine h.keeps hsub hs (R := fun log _ => ∀ name ∈ log, sub.Calls name)
    (fun _ _ _ _ _ _ hlog => hlog) (fun log _ name hname hlog => ?_) (by simp)
  simpa [or_imp, forall_and] using ⟨hlog, hname⟩

/-- **Marks are the log**: a flag is set on exit if it was set on entry, or if the run has called
its function. -/
theorem Logs.flag_iff (hs : e.Sound) (h : sub.Logs e sites a s (.exit s') names) (x : Symbol) :
    s'.flag x = true ↔ s.flag x = true ∨ ∃ name ∈ names, e.flagSymbol name = x := by
  refine h.keeps hsub hs
    (R := fun log t => t.flag x = true ↔ s.flag x = true ∨ ∃ name ∈ log, e.flagSymbol name = x)
    (fun log t name srt v howns hlog => ?_) (fun log t name _ hlog => ?_) (by simp)
  · -- variables are no flags
    have hne := hs.owns_ne_bool howns
    simpa [State.set, hne] using hlog
  · by_cases hx : e.flagSymbol name = x
    · simp [State.mark, State.set, hx, Value.isTrue]
    · simpa [State.mark, State.set, hx, Ne.symm hx] using hlog

/-- A run leaves all names alone that are not in its environment. -/
theorem Logs.patch (hs : e.Sound) (hflags : ∀ name, sub.Calls name → e.flagSymbol name ∈ e.symbols)
    (h : sub.Logs e sites a s (.exit s') names) : s.patch e.symbols s' = s' := by
  refine h.keeps hsub hs (R := fun _ t => s.patch e.symbols t = t)
    (fun _ t _ _ v howns ht => ?_) (fun _ t name hname ht => ?_) (State.patch_self s _)
  · rw [State.patch_set_mem (hs.owns_symbol howns), ht]
  · rw [State.mark, State.patch_set_mem (hflags name hname), ht]

end Traceable

end Sub

end Antecedent
