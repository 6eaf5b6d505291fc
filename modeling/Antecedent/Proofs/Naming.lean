import Antecedent.Proofs.Preserving

/-!
# The names that builders introduce

What names a builder can introduce depends on whether the environment is freshened and on the names
that the code at hand mentions.

* `Naming` says which names the code may mention, and which may be introduced for them.
* `Naming.Sound.precondition` says that walks keep to it.
-/

namespace Antecedent

open ExceptT (Preserves preserves_pure preserves_throw preserves_lift preserves_modify preserves_set
  preserves_get_bind preserves_lift_bind preserves_forIn)

/-! ## §1 Names that code mentions -/

/-- The names of a subroutine: of its variables, its arguments and the functions it calls. -/
def Sub.Mentions (s : Sub) (l : Label) : Prop :=
  (∃ v ∈ s.vars, v.name.label = .ok l) ∨ (∃ a ∈ s.args, a.var.name.label = .ok l) ∨
    ∃ b ∈ s.blks, ∃ j ∈ b.jmps, j.kind = .call ∧ ∃ name, j.callee = .ok name ∧ l = .text name

theorem Sub.within_of_mentions {s : Sub} {P : Label → Prop} (h : ∀ l, s.Mentions l → P l) :
    s.Within P fun name => P (.text name) where
  vars v hv l hl := h l (.inl ⟨v, hv, hl⟩)
  calls b hb j hj hkind name hname := h _ (.inr (.inr ⟨b, hb, j, hj, hkind, name, hname, rfl⟩))

/-- The names of an environment: of the registers, the memory, and the subroutines' names. -/
def Environment.Mentions (e : Environment) (l : Label) : Prop :=
  (∃ r w, e.arch.width? r = some w ∧ l = .text r) ∨ l = .text e.arch.memoryName ∨
    ∃ s ∈ e.subs, s.Mentions l

/-- Which names may be mentioned in an environment of a target and some subroutines, plain or
freshened, and which names may be introduced. -/
structure Naming where
  arch : Arch
  subs : List Sub
  freshened : Bool
  mentioned : Label → Prop
  introduced : Label → Prop

namespace Naming

variable (N : Naming)

/-- The invariant of a session: only the names that may be introduced are. -/
def Kept (σ : Session) : Prop :=
  (σ.env.arch = N.arch ∧ σ.env.subs = N.subs ∧ σ.env.freshened = N.freshened) ∧
    ∀ n ∈ σ.env.introduced, N.introduced n

/-- Whether the name made from a base name may be introduced. -/
def Admits (base : Label) : Prop :=
  ∀ (e : Environment) n, e.freshened = N.freshened → e.localName base = .ok n → N.introduced n

/-- The names that builders make of the names mentioned may be introduced. -/
structure Sound : Prop where
  var : ∀ l, N.mentioned l → N.Admits l
  init : ∀ s, N.mentioned (.text s) → N.Admits (.text (Environment.initMark ++ s))
  called : ∀ s, N.mentioned (.text s) → N.Admits (.text (Environment.calledMark ++ s))
  fresh : ∀ (stem : String) (n : Nat), N.Admits (.text s!"{stem}_{n}")
  register : ∀ r w, N.arch.width? r = some w → N.mentioned (.text r)
  memory : N.mentioned (.text N.arch.memoryName)
  subs : ∀ s ∈ N.subs, ∀ l, s.Mentions l → N.mentioned l

end Naming

/-! ## §2 Builders keep the names -/

namespace Naming.Sound

variable {N : Naming} {α : Type}

theorem env_bind {f : Environment → Build α}
    (h : ∀ e : Environment, e.arch = N.arch → e.subs = N.subs → (f e).Preserves N.Kept) :
    (Build.env >>= f).Preserves N.Kept :=
  Build.preserves_env_bind fun σ hσ => h σ.env hσ.1.1 hσ.1.2.1

theorem modifyEnv {f : Environment → Environment}
    (h : ∀ e, (f e).arch = e.arch ∧ (f e).subs = e.subs ∧ (f e).freshened = e.freshened ∧
      (f e).introduced = e.introduced) : (Build.modifyEnv f).Preserves N.Kept := by
  refine preserves_modify fun σ hσ => ?_
  obtain ⟨harch, hsubs, hfresh, hintro⟩ := h σ.env
  rw [Kept] at hσ ⊢
  rwa [harch, hsubs, hfresh, hintro]

/-- A name is introduced if it may be. -/
theorem name {base : Label} (h : N.Admits base) : (Build.name base).Preserves N.Kept :=
  Build.preserves_name fun σ n hσ hn =>
    ⟨hσ.1, List.forall_mem_cons.mpr ⟨h σ.env n hσ.1.2.2 hn, hσ.2⟩⟩

theorem constant {base : Label} {v : Var} (h : N.Admits base) :
    (Build.constant base v).Preserves N.Kept :=
  (name h).bind fun _ => env_bind fun _ _ _ =>
    (preserves_lift _).bind fun _ => (preserves_lift _).bind fun _ => preserves_pure _

variable (hN : N.Sound)
include hN

theorem getVar {v : Var} (h : ∀ l, v.name.label = .ok l → N.mentioned l) :
    (Build.getVar v).Preserves N.Kept := by
  refine preserves_lift_bind fun l hl => env_bind fun e _ _ => ?_
  split
  · exact preserves_pure _
  · refine (constant (hN.var l (h l hl))).bind fun _ => ?_
    exact Preserves.bind (modifyEnv fun e => ⟨rfl, rfl, rfl, rfl⟩) fun _ => preserves_pure _

theorem getRegister (r : String) : (Build.getRegister r).Preserves N.Kept := by
  refine env_bind fun e harch _ => preserves_lift_bind fun v hv => hN.getVar fun l hl => ?_
  obtain ⟨w, hw, rfl⟩ := map_eq_ok.mp hv
  obtain rfl : .text r = l := Except.ok.inj hl
  rw [harch, Arch.width] at hw
  split at hw
  · next w' hw' => exact hN.register r w' hw'
  · cases hw

theorem getMemory : Build.getMemory.Preserves N.Kept := by
  refine env_bind fun e harch _ => hN.getVar fun l hl => ?_
  obtain rfl : .text e.arch.memoryName = l := Except.ok.inj hl
  rw [harch]
  exact hN.memory

theorem getInit {v : Var} (h : ∀ l, v.name.label = .ok l → N.mentioned l) :
    (Build.getInit v).Preserves N.Kept := by
  unfold Build.getInit
  split
  · next base hbase =>
    have hmention : N.mentioned (.text base) := h _ (by rw [hbase]; rfl)
    refine env_bind fun e _ _ => ?_
    split
    · exact preserves_pure _
    · refine (constant (hN.init base hmention)).bind fun _ => ?_
      exact Preserves.bind (modifyEnv fun e => ⟨rfl, rfl, rfl, rfl⟩) fun _ => preserves_pure _
  · exact preserves_throw _

theorem freshWord (stem : String) (width : Json) : (Build.fresh stem width).Preserves N.Kept :=
  Build.preserves_freshBase_bind (fun _ _ hσ => hσ) fun n => (name (hN.fresh stem n)).bind fun _ =>
    (preserves_lift _).bind fun _ => (preserves_lift _).bind fun _ => preserves_pure _

theorem freshMemory (stem : String) : (Build.freshMemory stem).Preserves N.Kept :=
  Build.preserves_freshBase_bind (fun _ _ hσ => hσ) fun n => (name (hN.fresh stem n)).bind fun _ =>
    env_bind fun _ _ _ => (preserves_lift _).bind fun _ =>
      (preserves_lift _).bind fun _ => preserves_pure _

theorem callFlag {callee : String} (h : N.mentioned (.text callee)) :
    (Build.callFlag callee).Preserves N.Kept := by
  refine env_bind fun e _ _ => ?_
  split
  · exact preserves_pure _
  · refine (name (hN.called callee h)).bind fun _ => (preserves_lift _).bind fun _ => ?_
    exact Preserves.bind (modifyEnv fun e => ⟨rfl, rfl, rfl, rfl⟩) fun _ => preserves_pure _

theorem seed : Build.seed.Preserves N.Kept := by
  refine env_bind fun e _ _ => ?_
  refine Preserves.bind (preserves_forIn _ fun r _ _ => ?_) fun _ => ?_
  · exact (hN.getRegister r).bind fun _ => preserves_pure _
  · exact hN.getMemory.bind fun _ => preserves_pure _

/-- **The operations on constants keep the names.** -/
theorem stable : Stable N.Kept N.mentioned fun name => N.mentioned (.text name) where
  frame _ _ hσ := hσ
  getVar h := hN.getVar h
  getRegister := hN.getRegister
  getMemory := hN.getMemory
  fresh := hN.freshWord
  callFlag h := hN.callFlag h
  callee hσ _ hfind := by
    have hmentions := hN.subs _ (hσ.1.2.1 ▸ List.mem_reverse.mp (List.mem_of_find?_eq_some hfind))
    exact ⟨Sub.within_of_mentions hmentions,
      fun a ha l hl => hmentions l (.inr (.inl ⟨a, ha, hl⟩))⟩
  depths _ hσ := hσ

/-- **The walk of a subroutine introduces no name that it may not**, calls and inlined bodies
included. -/
theorem precondition (post : Constraint) {sub : Sub} (h : ∀ l, sub.Mentions l → N.mentioned l) :
    (Antecedent.precondition post sub).Preserves N.Kept :=
  hN.stable.precondition post (Sub.within_of_mentions h)

end Naming.Sound

end Antecedent
