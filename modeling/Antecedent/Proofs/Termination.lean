import Antecedent.Proofs.Preserving
import Antecedent.Proofs.Unrolling

/-!
# Walks that end

The walk of a subroutine visits a key after the keys that it needs, and gives up when a key needs
itself or when more keys than there are have to be visited first.

* `Walker.avoids_visit` says that a visit does not give up, if no key needs itself.
* `walk_ends_of_nested` is the result, and `not_acyclic` the reason for its hypothesis.
-/

/-! ## §1 Faults that do not occur -/

namespace ExceptT

variable {ε S α β : Type} {I : S → Prop} {e : ε}

/-- A computation does not end in a fault, where the state satisfies a condition. -/
def Avoids (I : S → Prop) (e : ε) (act : ExceptT ε (StateM S) α) : Prop :=
  ∀ σ, I σ → (Id.run (act.run.run σ)).1 ≠ .error e

theorem avoids_pure (a : α) : (pure a : ExceptT ε (StateM S) α).Avoids I e :=
  fun _ _ => nofun

theorem avoids_throw {e' : ε} (h : e' ≠ e) : (throw e' : ExceptT ε (StateM S) α).Avoids I e :=
  fun _ _ heq => h (Except.error.inj heq)

theorem Avoids.bind {act : ExceptT ε (StateM S) α} {f : α → ExceptT ε (StateM S) β}
    (h : act.Avoids I e) (hI : act.Preserves I) (hf : ∀ a, (f a).Avoids I e) :
    (act >>= f).Avoids I e := by
  intro σ hσ
  have hact := h σ hσ
  have hkept := hI σ hσ
  change (match act σ with | (r, τ) => ExceptT.bindCont f r τ).1 ≠ .error e
  revert hact hkept
  change (act σ).1 ≠ .error e → I (act σ).2 → _
  rcases act σ with ⟨r | a, τ⟩
  · exact fun hact _ => fun heq => hact (congrArg _ (Except.error.inj heq))
  · exact fun _ hkept => hf a τ hkept

end ExceptT

namespace Antecedent

open Relation (TransGen)
open ExceptT (Preserves preserves_pure preserves_lift preserves_modify preserves_lift_bind)

theorem Build.avoids_env_bind {α : Type} {I : Session → Prop} {e : Fault}
    {f : Environment → Build α} (h : ∀ σ, I σ → (f σ.env).Avoids I e) :
    (env >>= f).Avoids I e :=
  fun σ hσ => h σ hσ σ hσ

namespace Walking

variable {α β : Type} {I : Session → Prop} {e : Fault}

/-- A builder with a table does not end in a fault, whatever the table. -/
def Avoids (I : Session → Prop) (e : Fault) (act : Walking α) : Prop :=
  ∀ m, (act.run m).Avoids I e

theorem avoids_pure (a : α) : (pure a : Walking α).Avoids I e :=
  fun _ => ExceptT.avoids_pure _

theorem Avoids.bind {act : Walking α} {f : α → Walking β} (h : act.Avoids I e)
    (hI : act.Preserves I) (hf : ∀ a, (f a).Avoids I e) : (act >>= f).Avoids I e := by
  intro m
  rw [StateT.run_bind]
  exact (h m).bind (hI m).preserves fun p => hf p.1 p.2

theorem avoids_get_bind {f : Memo → Walking β} (h : ∀ m, (f m).Avoids I e) :
    (get >>= f).Avoids I e :=
  fun m => h m m

theorem avoids_env_bind {f : Environment → Walking β} (h : ∀ σ, I σ → (f σ.env).Avoids I e) :
    (liftM Build.env >>= f).Avoids I e :=
  fun m σ hσ => h σ hσ m σ hσ

theorem avoids_lift_bind {x : Except Fault α} {f : α → Walking β} (hx : x ≠ .error e)
    (h : ∀ a, x = .ok a → (f a).Avoids I e) : (liftM x >>= f).Avoids I e := by
  intro m
  cases x with
  | error e' => exact fun _ _ heq => hx (congrArg _ (Except.error.inj heq))
  | ok a => exact fun σ hσ => h a rfl m σ hσ

theorem avoids_modify (f : Memo → Memo) : (modify f : Walking Unit).Avoids I e :=
  fun _ => ExceptT.avoids_pure _

theorem avoids_forM {as : List α} {f : α → Walking Unit}
    (h : ∀ a ∈ as, (f a).Avoids I e ∧ (f a).Preserves I) : (as.forM f).Avoids I e := by
  induction as with
  | nil => exact avoids_pure _
  | cons a as ih =>
    obtain ⟨⟨ha, hI⟩, has⟩ := List.forall_mem_cons.mp h
    exact Avoids.bind ha hI fun _ => ih has

end Walking

/-! ## §2 Visits -/

namespace Build

def Unrolls (unroll : Json) (σ : Session) : Prop :=
  σ.env.unroll = unroll

section Steady

variable {P : Environment → Prop}
  (hP : ∀ e vars calls introduced truncated, P e → P { e with vars, calls, introduced, truncated })
include hP

theorem preserves_name_of_core (base : Label) : (name base).Preserves fun σ => P σ.env :=
  preserves_name fun σ _ hσ _ => hP σ.env _ _ _ _ hσ

theorem preserves_getVar_of_core (v : Var) : (getVar v).Preserves fun σ => P σ.env := by
  refine preserves_lift_bind fun l _ => preserves_env_bind fun σ _ => ?_
  split
  · exact preserves_pure _
  · refine Preserves.bind ?_ fun t => ?_
    · exact (preserves_name_of_core hP l).bind fun _ => preserves_env_bind fun _ _ =>
        (preserves_lift _).bind fun _ => (preserves_lift _).bind fun _ => preserves_pure _
    · exact Preserves.bind (preserves_modify fun σ hσ => hP σ.env _ _ _ _ hσ) fun _ =>
        preserves_pure _

/-- **What does not speak of constants, flags and cuts is kept.** -/
theorem steady_of_core : Steady (fun σ => P σ.env) (fun _ => True) fun _ => True where
  frame _ _ hσ := hP _ _ _ _ _ hσ
  getVar _ := preserves_getVar_of_core hP _
  getRegister r := preserves_env_bind fun _ _ => preserves_lift_bind fun v _ =>
    preserves_getVar_of_core hP v
  getMemory := preserves_env_bind fun _ _ => preserves_getVar_of_core hP _
  fresh stem width := preserves_freshBase_bind (fun _ _ hσ => hσ) fun n =>
    (preserves_name_of_core hP _).bind fun _ => (preserves_lift _).bind fun _ =>
      (preserves_lift _).bind fun _ => preserves_pure _
  callFlag {callee} _ := by
    refine preserves_env_bind fun σ _ => ?_
    split
    · exact preserves_pure _
    · refine (preserves_name_of_core hP _).bind fun _ => (preserves_lift _).bind fun _ => ?_
      exact Preserves.bind (preserves_modify fun σ hσ => hP σ.env _ _ _ _ hσ) fun _ =>
        preserves_pure _
  callee _ _ _ := ⟨⟨fun _ _ _ _ => True.intro, fun _ _ _ _ _ _ _ => True.intro⟩,
    fun _ _ _ _ => True.intro⟩

end Steady

/-- **The walk of a subroutine leaves the bound on repetitions alone.** -/
theorem stable_unrolls (unroll : Json) :
    Stable (Unrolls unroll) (fun _ => True) fun _ => True where
  toSteady := steady_of_core (P := fun e => e.unroll = unroll) fun _ _ _ _ _ he => he
  depths _ hσ := hσ

end Build

open Build (Unrolls stable_unrolls)

theorem Flow.needs_ne_endlessWalk (f : Flow) (u : Int) (k : Key) :
    f.needs (.int u) k ≠ .error .endlessWalk := by
  obtain ⟨b, hcut⟩ : ∃ b, f.isCut (.int u) k = .ok b := by
    unfold isCut
    split
    · exact ⟨_, rfl⟩
    · exact ⟨_, rfl⟩
  unfold needs node
  rw [hcut]
  cases b with
  | true => nofun
  | false => cases f.graph.node? k.label <;> nofun

namespace Walker

variable {w : Walker} {u : Int}

/-- **A visit does not give up**, if no key needs itself, unless the building of a condition
does. -/
theorem avoids_visit (hacyclic : w.flow.Acyclic (.int u))
    (hvisit : ∀ bound path k, (w.visit bound path k).Preserves (Unrolls (.int u)))
    (hkeeps : ∀ k, (w.build k).Preserves (Unrolls (.int u)))
    (hbuild : ∀ k, (w.build k).Avoids (Unrolls (.int u)) .endlessWalk)
    {bound : Nat} {path : List Key} {k : Key} (htrail : w.flow.Trail (.int u) (k :: path))
    (hbound : w.flow.keyBound (.int u) ≤ bound + path.length) :
    (w.visit bound path k).Avoids (Unrolls (.int u)) .endlessWalk := by
  induction bound generalizing path k with
  | zero =>
    -- more keys than there are would be waiting
    have hlength := htrail.length_lt_of_acyclic hacyclic
    rw [List.length_cons] at hlength
    omega
  | succ bound ih =>
    have hnew : k ∉ path := (List.nodup_cons.mp (htrail.nodup hacyclic)).1
    refine Walking.avoids_get_bind fun m => ?_
    split
    · exact Walking.avoids_pure _
    · rw [if_neg (by simpa using hnew)]
      refine Walking.avoids_env_bind fun σ hσ => ?_
      rw [hσ]
      refine Walking.avoids_lift_bind (w.flow.needs_ne_endlessWalk u k) fun needs hneeds => ?_
      refine Walking.Avoids.bind (Walking.avoids_forM fun k' hk' => ⟨?_, hvisit _ _ _⟩)
        (Walking.agrees_forM fun _ _ => hvisit _ _ _) fun _ => ?_
      · exact ih (htrail.step ⟨needs, hneeds, List.mem_reverse.mp hk'⟩)
          (by rw [List.length_cons]; omega)
      · exact (hbuild k).bind (hkeeps k) fun _ => Walking.avoids_modify _

/-- The walk of a subroutine does not give up either. -/
theorem avoids_run (hloops : w.flow.loops = w.flow.graph.loops) (hnested : w.flow.Nested)
    (hinline : ∀ post sub, (w.inline post sub).Preserves (Unrolls (.int u)))
    (hbuild : ∀ k, (w.build k).Avoids (Unrolls (.int u)) .endlessWalk) :
    w.run.Avoids (Unrolls (.int u)) .endlessWalk := by
  have hstable := stable_unrolls (.int u)
  have hgraph : ∀ n ∈ w.flow.graph, (∀ v ∈ n.block.vars, v.Within fun _ => True) ∧
      ∀ j ∈ n.block.jmps, j.kind = .call → ∀ name, j.callee = .ok name → True :=
    fun _ _ => ⟨fun _ _ _ _ => True.intro, fun _ _ _ _ _ => True.intro⟩
  have hvisit := hstable.visit (w := w) (fun post sub _ => hinline post sub) hgraph
  have hkeeps := hstable.build (w := w) (fun post sub _ => hinline post sub) hgraph
  unfold run
  split
  · exact ExceptT.avoids_pure _
  · next n rest hcons =>
    refine Build.avoids_env_bind fun σ hσ => ?_
    have hunroll : σ.env.unroll = .int u := hσ
    simp only [hunroll]
    have hwalk := avoids_visit (Flow.acyclic_of_nested hloops hnested) hvisit hkeeps hbuild
      (.start hcons) le_rfl {}
    refine hwalk.bind (hvisit _ _ _ {}).preserves fun p => ?_
    split
    · exact ExceptT.avoids_pure _
    · exact ExceptT.avoids_throw (by simp)

end Walker

theorem Sub.loops_flow {sub : Sub} {f : Flow} (h : sub.flow = .ok f) :
    f.loops = f.graph.loops := by
  simp only [flow, bind_eq_ok, pure_eq_ok] at h
  obtain ⟨g, -, _, -, rfl⟩ := h
  rfl

/-- Fewer keys than the bound wait for each other. -/
theorem Flow.Trail.length_lt_keyBound {f : Flow} {u : Int} {ks : List Key}
    (hloops : f.loops = f.graph.loops) (hnested : f.Nested) (h : f.Trail (.int u) ks) :
    ks.length < f.keyBound (.int u) := by
  cases ks with
  | nil => cases h
  | cons k path => exact h.length_lt hloops hnested

/-- **The walk of a subroutine gives up only if the building of one block does.** -/
theorem avoids_preconditionWithin {sub : Sub} {f : Flow} {u : Int} {bound : Nat} {post : Constraint}
    (hf : sub.flow = .ok f) (hnested : f.Nested)
    (hbuild : ∀ k, (Walker.build ⟨f, post, preconditionWithin bound⟩ k).Avoids (Unrolls (.int u))
      .endlessWalk) :
    (preconditionWithin (bound + 1) post sub).Avoids (Unrolls (.int u)) .endlessWalk := by
  have hinline : ∀ post sub, (preconditionWithin bound post sub).Preserves (Unrolls (.int u)) :=
    fun post sub => (stable_unrolls (.int u)).preconditionWithin bound post
      ⟨fun _ _ _ _ => True.intro, fun _ _ _ _ _ _ _ => True.intro⟩
  rw [preconditionWithin]
  split
  · exact ExceptT.avoids_pure _
  · rw [hf]
    exact Walker.avoids_run (Sub.loops_flow hf) hnested hinline hbuild

/-! ## §3 Graphs given by their steps -/

/-- Some blocks that do nothing but jump, each given with the blocks to which it jumps. -/
abbrev Steps := List (String × List String)

def Blk.ofStep (label : String) (targets : List String) : Blk where
  tid := .str label
  jmps := targets.map fun t => { tid := .str t, kind := .goto, target := .str t }

def Sub.ofSteps (steps : Steps) : Sub where
  name := .str "f"
  blks := steps.map fun (label, targets) => .ofStep label targets

def Flow.ofSteps (steps loops : Steps) : Flow where
  name := .str "f"
  graph := steps.map fun (label, targets) =>
    { label := .text label, block := .ofStep label targets, exits := targets.map .text }
  loops := loops.map fun (header, body) => (.text header, body.map .text)

def nestSteps : Steps :=
  [("outer", ["inner"]), ("inner", ["inner", "last"]), ("last", ["outer"])]

def nestFlow : Flow :=
  .ofSteps nestSteps [("inner", ["inner"]), ("outer", ["inner", "last", "outer"])]

theorem flow_nest : (Sub.ofSteps nestSteps).flow = .ok nestFlow :=
  rfl

/-- Loops that can be entered at several blocks, so that their headers lie in each other's. -/
def knotSteps : Steps :=
  [("s", ["c", "e"]), ("c", ["h"]), ("h", ["e", "b", "d"]), ("e", ["c", "h", "d"]), ("b", ["e"]),
    ("d", ["e"])]

def knotFlow : Flow :=
  .ofSteps knotSteps [("c", ["d", "b", "h", "s", "e", "c"]), ("h", ["d", "b", "s", "e", "h"]),
    ("e", ["s", "c", "h", "d", "e"])]

theorem flow_knot : (Sub.ofSteps knotSteps).flow = .ok knotFlow :=
  rfl

def knotKey (label : String) (counts : List (String × Nat)) : Key :=
  ⟨.text label, counts.map fun (h, n) => (.text h, n)⟩

/-- Keys of the knot that need each other in a circle: the counts of each header are dropped before
they come too high. -/
theorem cycle_knot :
    knotFlow.Needs (.int 1) (knotKey "c" [("e", 1), ("c", 1)])
      (knotKey "h" [("e", 1), ("c", 1), ("h", 1)]) ∧
    knotFlow.Needs (.int 1) (knotKey "h" [("e", 1), ("c", 1), ("h", 1)]) (knotKey "e" [("e", 2)]) ∧
    knotFlow.Needs (.int 1) (knotKey "e" [("e", 2)]) (knotKey "h" [("e", 2), ("h", 1)]) ∧
    knotFlow.Needs (.int 1) (knotKey "h" [("e", 2), ("h", 1)]) (knotKey "b" [("h", 1)]) ∧
    knotFlow.Needs (.int 1) (knotKey "b" [("h", 1)]) (knotKey "e" [("h", 1), ("e", 1)]) ∧
    knotFlow.Needs (.int 1) (knotKey "e" [("h", 1), ("e", 1)])
      (knotKey "c" [("e", 1), ("c", 1)]) := by
  refine ⟨⟨_, rfl, ?_⟩, ⟨_, rfl, ?_⟩, ⟨_, rfl, ?_⟩, ⟨_, rfl, ?_⟩, ⟨_, rfl, ?_⟩, ⟨_, rfl, ?_⟩⟩ <;>
    decide

theorem reaches_knot : knotFlow.Reaches (.int 1) (knotKey "c" [("e", 1), ("c", 1)]) := by
  have hfirst : knotFlow.Needs (.int 1) (knotFlow.key (.text "s") []) (knotKey "e" [("e", 1)]) :=
    ⟨_, rfl, by decide⟩
  have hsecond : knotFlow.Needs (.int 1) (knotKey "e" [("e", 1)])
      (knotKey "c" [("e", 1), ("c", 1)]) :=
    ⟨_, rfl, by decide⟩
  exact ⟨_, _, rfl, .tail (.single hfirst) hsecond⟩

/-! ## §4 Walks that end -/

/-- **The walk of a subroutine ends**, if no two headers lie in the loops of each other: no key that
it comes to needs itself, no more keys than the bound can be in the middle of a visit, and the walk
gives up only if the building of the condition of one block does. -/
theorem walk_ends_of_nested {sub : Sub} {f : Flow} (u : Int) (hf : sub.flow = .ok f)
    (hnested : f.Nested) :
    (∀ k, f.Reaches (.int u) k → ¬TransGen (f.Needs (.int u)) k k) ∧
      (∀ ks, f.Trail (.int u) ks → ks.length < f.keyBound (.int u)) ∧
      ∀ (bound : Nat) (post : Constraint),
        (∀ k, (Walker.build ⟨f, post, preconditionWithin bound⟩ k).Avoids (Unrolls (.int u))
          .endlessWalk) →
        (preconditionWithin (bound + 1) post sub).Avoids (Unrolls (.int u)) .endlessWalk := by
  have hloops := Sub.loops_flow hf
  exact ⟨fun k hreach => Flow.not_needs_self hloops hnested hreach,
    fun ks htrail => htrail.length_lt_keyBound hloops hnested,
    fun bound post hbuild => avoids_preconditionWithin hf hnested hbuild⟩

/-- The walk of a loop in a loop. -/
theorem walk_ends_of_nested_nest :
    (Sub.ofSteps nestSteps).flow = .ok nestFlow ∧ nestFlow.Nested ∧
      (∀ k, nestFlow.Reaches (.int 5) k → ¬TransGen (nestFlow.Needs (.int 5)) k k) ∧
      ∀ ks, nestFlow.Trail (.int 5) ks → ks.length < nestFlow.keyBound (.int 5) := by
  have hnested : nestFlow.Nested := by decide
  obtain ⟨hacyclic, htrails, -⟩ := walk_ends_of_nested 5 flow_nest hnested
  exact ⟨flow_nest, hnested, hacyclic, htrails⟩

/-- Without that, a key that the walk comes to can need itself. -/
theorem not_acyclic : ¬∀ (sub : Sub) (f : Flow) (u : Int), 0 ≤ u → sub.flow = .ok f →
    ∀ k, f.Reaches (.int u) k → ¬TransGen (f.Needs (.int u)) k k := by
  intro hall
  obtain ⟨h1, h2, h3, h4, h5, h6⟩ := cycle_knot
  refine hall _ _ 1 (by decide) flow_knot _ reaches_knot ?_
  exact .tail (.tail (.tail (.tail (.tail (.single h1) h2) h3) h4) h5) h6

end Antecedent
