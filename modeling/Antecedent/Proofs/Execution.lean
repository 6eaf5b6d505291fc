import Antecedent.Walk
import Antecedent.Proofs.Evaluation
import Mathlib.Data.Nat.Digits.Defs

/-!
# Running subroutines

The concrete meaning of a subroutine without calls, on states that give values to the constants of
an environment.

* Expressions have values, and touch memory while they are evaluated.
* A block runs its definitions in order, then takes the first jump whose condition is not zero.  If
  there is none, control falls through to the next block, and the last block leaves the subroutine.
* A run carries the loop counts of the bounded walk and stops where unrolling cuts it.
* The conditions attached to memory accesses may stop a run as well: where one that may be used is
  broken the run is excused, and where one that has to be shown is broken it has failed.
-/

namespace Antecedent

variable {e : Environment} {s : State} {o : Ending} {sub : Sub}

/-! ## §1 Words and memories -/

namespace Value

def sort : Value → Srt
  | .bool _ => .bool
  | .bits w _ => .bits w
  | .memory a _ => .memory a

/-- The width of a bit vector, zero for the others. -/
def width : Value → Nat
  | .bits w _ => w
  | _ => 0

def toBits (w : Nat) (v : Value) : BitVec w :=
  BitVec.ofNat w v.toNat

def bit (b : Bool) : Value :=
  .bits 1 (if b then 1 else 0)

/-- Bits `hi` down to `lo`. -/
def extract (hi lo : Nat) (v : Value) : Value :=
  .bits (hi - lo + 1) (v.toNat / 2 ^ lo % 2 ^ (hi - lo + 1))

def zeroExtend (extra : Nat) (v : Value) : Value :=
  .bits (v.width + extra) v.toNat

def signExtend (extra : Nat) (v : Value) : Value :=
  .ofBitVec ((v.toBits v.width).signExtend (v.width + extra))

def fit (width : Int) (v : Value) : Value :=
  if (v.width : Int) = width then v
  else if (v.width : Int) < width then v.zeroExtend (Term.sizeWord (width - v.width))
  else v.extract (Term.sizeWord (width - 1)) 0

/-- The first word with the second one below it. -/
def concat (u v : Value) : Value :=
  .bits (u.width + v.width) (u.toNat * 2 ^ v.width + v.toNat)

/-- The address of the `i`-th byte from an address on. -/
def offset (addr : Value) (i : Nat) : Nat :=
  (addr.toNat + i) % 2 ^ addr.width

/-- The bytes that stand at an address and after it. -/
def bytes (mem addr : Value) (count : Nat) : List Nat :=
  (List.range count).map fun i => mem.toMemory.get (addr.offset i)

def byteCount (size : Json) : Nat :=
  (Term.byteCount size).toOption.getD 1

def load (mem addr : Value) (size : Json) (endian : Endian) : Value :=
  let bytes := mem.bytes addr (byteCount size)
  let digits := if endian = .little then bytes else bytes.reverse
  (Value.bits (8 * byteCount size) (Nat.ofDigits 256 digits)).fit (size.int?.getD 0)

/-- The byte of a word that goes to the `i`-th address. -/
def byte (endian : Endian) (count i : Nat) (v : Value) : Nat :=
  let lo : Nat := if endian = .little then 8 * i else 8 * (count - 1 - i)
  (v.extract (Term.sizeWord (lo + 7 : Nat)) (Term.sizeWord lo)).toNat

/-- The memory after a word of a size is written at an address. -/
def store (mem addr v : Value) (size : Json) (endian : Endian) : Value :=
  let count := byteCount size
  let v := v.fit (8 * count : Nat)
  match mem with
  | .memory a m =>
    .memory a ((List.range count).foldl
      (fun m i => m.set (addr.offset i) (v.byte endian count i)) m)
  | mem => mem

end Value

/-! ## §2 Expressions -/

/-- The value of an operator on two operands.  The amount of a shift is taken in the width of what
is shifted. -/
def BinOp.value (op : BinOp) (l r : Value) : Value :=
  let x := l.toBits l.width
  let y := r.toBits l.width
  match op with
  | .plus => .ofBitVec (x + y)
  | .minus => .ofBitVec (x - y)
  | .times => .ofBitVec (x * y)
  | .divide => .ofBitVec (x.smtUDiv y)
  | .sdivide => .ofBitVec (x.smtSDiv y)
  | .mod => .ofBitVec (x % y)
  | .smod => .ofBitVec (x.srem y)
  | .lshift => .ofBitVec (x <<< y)
  | .rshift => .ofBitVec (x >>> y)
  | .arshift => .ofBitVec (x.sshiftRight y.toNat)
  | .and => .ofBitVec (x &&& y)
  | .or => .ofBitVec (x ||| y)
  | .xor => .ofBitVec (x ^^^ y)
  | .eq => .bit (x == y)
  | .neq => .bit (x != y)
  | .lt => .bit (x.ult y)
  | .le => .bit (x.ule y)
  | .slt => .bit (x.slt y)
  | .sle => .bit (x.sle y)

def UnOp.value (op : UnOp) (v : Value) : Value :=
  match op with
  | .neg => .ofBitVec (-v.toBits v.width)
  | .not => .ofBitVec (~~~v.toBits v.width)

def CastKind.value (kind : CastKind) (width : Int) (v : Value) : Value :=
  match kind with
  | .low => v.extract (Term.sizeWord (width - 1)) 0
  | .high => v.extract (Term.sizeWord (v.width - 1)) (Term.sizeWord (v.width - width))
  | .unsigned =>
    if width ≤ v.width then v.extract (Term.sizeWord (width - 1)) 0
    else v.zeroExtend (Term.sizeWord (width - v.width))
  | .signed =>
    if width ≤ v.width then v.extract (Term.sizeWord (width - 1)) 0
    else v.signExtend (Term.sizeWord (width - v.width))

structure Touch where
  kind : AccessKind
  addr : Value
  size : Json

namespace Expr

variable (look : Var → Value)

/-- The value of an expression, from those of the variables.  An unknown has none of its own. -/
def value : Expr → Value
  | .var v => look v
  | .int value width =>
    let w := Term.sizeWord (width.int?.getD 0)
    .bits w (value % (2 ^ w : Nat)).toNat
  | .load mem addr size endian => (mem.value).load addr.value size (.ofField endian)
  | .store mem addr value size endian =>
    (mem.value).store addr.value value.value size (.ofField endian)
  | .binop op lhs rhs => op.value lhs.value rhs.value
  | .unop op arg => op.value arg.value
  | .cast kind width arg => kind.value (width.int?.getD 0) arg.value
  | .ite cond yes no => if cond.value.toNat ≠ 0 then yes.value else no.value
  | .extract hi lo arg =>
    arg.value.extract (Term.sizeWord (hi.int?.getD 0)) (Term.sizeWord (lo.int?.getD 0))
  | .concat lhs rhs => lhs.value.concat rhs.value
  | .unknown _ _ => .bool false

/-- The loads and stores of an expression in order: those of an address come before its own, those
of the other operands after it. -/
def touches : Expr → List Touch
  | .var _ | .int _ _ | .unknown _ _ => []
  | .load mem addr size _ => addr.touches ++ ⟨.load, addr.value look, size⟩ :: mem.touches
  | .store mem addr value size _ =>
    addr.touches ++ ⟨.store, addr.value look, size⟩ :: (mem.touches ++ value.touches)
  | .binop _ lhs rhs => lhs.touches ++ rhs.touches
  | .unop _ arg => arg.touches
  | .cast _ _ arg => arg.touches
  | .ite cond yes no => cond.touches ++ yes.touches ++ no.touches
  | .extract _ _ arg => arg.touches
  | .concat lhs rhs => lhs.touches ++ rhs.touches

/-- Whether no part of an expression is unknown. -/
def isKnown : Expr → Bool
  | .var _ | .int _ _ => true
  | .load mem addr _ _ => mem.isKnown && addr.isKnown
  | .store mem addr value _ _ => mem.isKnown && addr.isKnown && value.isKnown
  | .binop _ lhs rhs => lhs.isKnown && rhs.isKnown
  | .unop _ arg => arg.isKnown
  | .cast _ _ arg => arg.isKnown
  | .ite cond yes no => cond.isKnown && yes.isKnown && no.isKnown
  | .extract _ _ arg => arg.isKnown
  | .concat lhs rhs => lhs.isKnown && rhs.isKnown
  | .unknown _ _ => false

/-- The value of an expression depends on its variables only. -/
theorem value_congr {look look' : Var → Value} {x : Expr}
    (h : ∀ v ∈ x.vars, look v = look' v) : x.value look = x.value look' := by
  induction x with
    simp only [vars, List.forall_mem_append] at h
  | var v => exact h v (List.mem_singleton_self v)
  | int | unknown => rfl
  | load mem addr size endian ihm iha => rw [value, value, ihm h.1, iha h.2]
  | store mem addr val size endian ihm iha ihv => rw [value, value, ihm h.1.1, iha h.1.2, ihv h.2]
  | binop _ lhs rhs ihl ihr | concat lhs rhs ihl ihr => rw [value, value, ihl h.1, ihr h.2]
  | unop _ arg ih | cast _ _ arg ih | extract _ _ arg ih => rw [value, value, ih h]
  | ite cond yes no ihc ihy ihn => rw [value, value, ihc h.1.1, ihy h.1.2, ihn h.2]

end Expr

/-! ## §3 Variables -/

namespace Environment

/-- The constant of a variable: the one that it has, or the one that it would be given. -/
def termOf (e : Environment) (v : Var) : Except Fault Term := do
  let label ← v.name.label
  match e.findVar? label with
  | some t => return t
  | none => return .const (← Term.symbolOf (← e.localName label)) (← e.sortOf v)

def look (e : Environment) (s : State) (v : Var) : Value :=
  match e.termOf v with
  | .ok t => t.eval s
  | .error _ => .bool false

/-- The state after a variable is written. -/
def assign (e : Environment) (s : State) (v : Var) (x : Value) : State :=
  match e.termOf v with
  | .ok (.const name srt) => s.set name srt x
  | _ => s

end Environment

/-! ## §4 Conditions on accesses -/

/-- How a run ends: control leaves the subroutine in a state, unrolling cuts the run, or a condition
on an access is broken, one that may be used or one that has to be shown. -/
inductive Ending where
  | exit (s : State)
  | cut
  | excused
  | failed

/-- Where a moved symbol began and ended, and where it begins now. -/
def Moved.bounds (m : Moved) : Except Fault (Int × Int × Int) := do
  let size ← m.common
  let start ← DataSymbol.number m.old.addr
  let finish := DataSymbol.sum start (← DataSymbol.number size)
  let target ← DataSymbol.number m.new.addr
  return (DataSymbol.whole start, DataSymbol.whole finish, DataSymbol.whole target)

/-- Where a map carries an address: the first symbol that held it decides. -/
def AddressMap.carry : AddressMap → Value → Value
  | [], addr => addr
  | m :: ms, addr =>
    match m.bounds with
    | .error _ => addr
    | .ok (start, finish, target) =>
      let word (n : Int) : Nat := (n % (2 ^ addr.width : Nat)).toNat
      if word start ≤ addr.toNat ∧ addr.toNat < word finish then
        .bits addr.width ((addr.toNat - word start + word target) % 2 ^ addr.width)
      else AddressMap.carry ms addr

/-- Whether an access meets a condition, if the condition is about accesses of its kind. -/
def Hook.verdict (mem : Value) (s : State) (t : Touch) : Hook → Option (Duty × Bool)
  | .nonNull kind duty => if t.kind ≠ kind then none else some (duty, t.addr.toNat != 0)
  | .sameAs memory map =>
    if t.kind ≠ .load then none
    else
      let mine := mem.load t.addr t.size .little
      let other := (memory.eval s).load (map.carry t.addr) t.size .little
      some (.assume, mine.same other)

namespace Environment

def verdicts (e : Environment) (s : State) (touches : List Touch) : List (Duty × Bool) :=
  touches.flatMap fun t => e.hooks.filterMap (Hook.verdict (e.look s e.memVar) s t)

/-- How a run ends at some accesses, if it does not go on. -/
def objection? (e : Environment) (s : State) (touches : List Touch) : Option Ending :=
  let verdicts := e.verdicts s touches
  if (.assume, false) ∈ verdicts then some .excused
  else if (.verify, false) ∈ verdicts then some .failed
  else none

theorem objection?_eq_none (h : e.hooks = []) (s : State) (touches : List Touch) :
    e.objection? s touches = none := by
  simp [objection?, verdicts, h]

/-- A run that ends at an access is excused, or fails at a condition that has to be shown. -/
theorem objection?_cases {touches : List Touch} (h : e.objection? s touches = some o) :
    o = .excused ∨ o = .failed ∧ (.verify, false) ∈ e.verdicts s touches := by
  simp only [objection?] at h
  split at h
  · exact .inl (Option.some.inj h).symm
  · split at h
    · next hverify => exact .inr ⟨(Option.some.inj h).symm, hverify⟩
    · cases h

theorem objection?_ne_exit {s' : State} {touches : List Touch} :
    e.objection? s touches ≠ some (.exit s') := by
  intro h
  rcases objection?_cases h with h | ⟨h, -⟩ <;> cases h

end Environment

/-! ## §5 Blocks -/

/-- The state after a definition, or the end of the run. -/
def Def.run (e : Environment) (s : State) (d : Def) : Except Ending State :=
  match e.objection? s (d.rhs.touches (e.look s)) with
  | some o => .error o
  | none => .ok (e.assign s d.lhs (d.rhs.value (e.look s)))

/-- Whether a definition gives its variable only values of the variable's sort. -/
def Def.KeepsSort (e : Environment) (d : Def) : Prop :=
  ∀ s, (d.rhs.value (e.look s)).sort = (e.look s d.lhs).sort

/-- The jump that is taken: the first one whose condition is not zero. -/
def Jmp.choose (e : Environment) (s : State) : List Jmp → Except Ending (Option Jmp)
  | [] => .ok none
  | j :: js =>
    match e.objection? s (j.cond.touches (e.look s)) with
    | some o => .error o
    | none =>
      if (j.cond.value (e.look s)).toNat ≠ 0 then .ok (some j) else Jmp.choose e s js

/-- Control does not run past jumps of which one is always taken. -/
def Jmp.Leave (js : List Jmp) : Prop :=
  (∃ j ∈ js, j.cond.isAlways = true) → ∀ e s, Jmp.choose e s js ≠ .ok none

theorem Jmp.Leave.cons {j : Jmp} {js : List Jmp} (hjs : Jmp.Leave js)
    (hj : j.cond.isAlways = true → ∀ look, (j.cond.value look).toNat ≠ 0) :
    Jmp.Leave (j :: js) := by
  rintro ⟨i, hi, hali⟩ e s
  rw [Jmp.choose]
  split
  · simp
  · split
    · simp
    · next hzero =>
      -- the jump that is always taken is a later one
      rcases List.mem_cons.mp hi with rfl | hi
      · exact absurd (hj hali _) hzero
      · exact hjs ⟨i, hi, hali⟩ e s

theorem Blk.fallsThrough_of_choose {b : Blk} (hb : Jmp.Leave b.jmps)
    (h : Jmp.choose e s b.jmps = .ok none) : b.fallsThrough = true := by
  simp only [Blk.fallsThrough, List.all_eq_true, Bool.not_eq_true', ← Bool.not_eq_true]
  exact fun j hj hal => hb ⟨j, hj, hal⟩ e s h

/-- The state at the end of a block and the jump taken there, or the end of the run. -/
def Blk.run (e : Environment) (s : State) (b : Blk) : Except Ending (State × Option Jmp) := do
  let s ← b.defs.foldlM (Def.run e) s
  return (s, ← Jmp.choose e s b.jmps)

theorem Def.objection_of_foldlM {ds : List Def} (h : ds.foldlM (Def.run e) s = .error o) :
    ∃ s' touches, e.objection? s' touches = some o := by
  induction ds generalizing s with
  | nil => cases h
  | cons d ds ih =>
    rw [List.foldlM_cons, Def.run] at h
    split at h
    · next o' ho =>
      cases h
      exact ⟨_, _, ho⟩
    · exact ih h

theorem Jmp.objection_of_choose {js : List Jmp} (h : Jmp.choose e s js = .error o) :
    ∃ s' touches, e.objection? s' touches = some o := by
  induction js with
  | nil => cases h
  | cons j js ih =>
    rw [Jmp.choose] at h
    split at h
    · next o' ho =>
      cases h
      exact ⟨_, _, ho⟩
    · split at h
      · cases h
      · exact ih h

theorem Blk.objection_of_run {b : Blk} (h : b.run e s = .error o) :
    ∃ s' touches, e.objection? s' touches = some o := by
  rw [run] at h
  cases hs : b.defs.foldlM (Def.run e) s with
  | error o' =>
    rw [hs] at h
    cases h
    exact Def.objection_of_foldlM hs
  | ok s' =>
    rw [hs] at h
    change (do return (s', ← Jmp.choose e s' b.jmps)) = _ at h
    cases hj : Jmp.choose e s' b.jmps with
    | error o' =>
      rw [hj] at h
      cases h
      exact Jmp.objection_of_choose hj
    | ok j =>
      rw [hj] at h
      cases h

/-- Whether a block makes no calls. -/
def Blk.CallFree (b : Blk) : Prop :=
  ∀ j ∈ b.jmps, j.kind ≠ .call

/-- Whether no expression of a block has unknown parts. -/
def Blk.IsKnown (b : Blk) : Prop :=
  (∀ d ∈ b.defs, d.rhs.isKnown = true) ∧ ∀ j ∈ b.jmps, j.cond.isKnown = true

/-- Whether every definition of a block gives its variable values of the variable's sort. -/
def Blk.WellSorted (b : Blk) (e : Environment) : Prop :=
  ∀ d ∈ b.defs, d.KeepsSort e

/-- Where control goes at the end of a block: out of the subroutine or to another block. -/
inductive Target where
  | outside
  | block (l : Label)

/-- Where a jump goes.  Calls have no meaning here. -/
def Jmp.goal? (j : Jmp) : Option Target :=
  match j.kind with
  | .goto =>
    match j.target with
    | .null => none
    | target => target.label?.map .block
  | .ret => some .outside
  | .int => if j.returnTo.truthy then j.returnTo.label?.map .block else some .outside
  | .call => none

/-- Where control goes when a call comes back. -/
def Jmp.returns? (j : Jmp) : Option Target :=
  if j.returnTo.truthy then j.returnTo.label?.map .block else some .outside

/-- Where control goes after a block: to where the jump taken goes, or to the next block. -/
def Graph.after (g : Graph) (n : Node) : Option Jmp → Option Target
  | some j => j.goal?
  | none =>
    match g.next? n.label with
    | some l => some (.block l)
    | none => some .outside

/-! ## §6 Runs -/

/-- Runs from the block of a key, to the end. -/
inductive Flow.Runs (f : Flow) (e : Environment) : Key → State → Ending → Prop where
  /-- Unrolling cuts the run. -/
  | cut {k : Key} {s : State} (hcut : f.isCut e.unroll k = .ok true) : Runs f e k s .cut
  /-- A condition on an access ends the run. -/
  | stop {k : Key} {s : State} {n : Node} {o : Ending} (hcut : f.isCut e.unroll k = .ok false)
      (hnode : f.node k = .ok n) (hrun : n.block.run e s = .error o) : Runs f e k s o
  /-- Control leaves the subroutine. -/
  | leave {k : Key} {s s' : State} {n : Node} {j : Option Jmp}
      (hcut : f.isCut e.unroll k = .ok false) (hnode : f.node k = .ok n)
      (hrun : n.block.run e s = .ok (s', j)) (hafter : f.graph.after n j = some .outside) :
      Runs f e k s (.exit s')
  /-- Control goes to another block. -/
  | go {k : Key} {s s' : State} {n : Node} {j : Option Jmp} {l : Label} {o : Ending}
      (hcut : f.isCut e.unroll k = .ok false) (hnode : f.node k = .ok n)
      (hrun : n.block.run e s = .ok (s', j)) (hafter : f.graph.after n j = some (.block l))
      (next : Runs f e (f.key (f.graph.resolve l) k.counts) s' o) : Runs f e k s o

/-- **Runs are deterministic.** -/
theorem Flow.Runs.unique {f : Flow} {k : Key} {o' : Ending} (h : f.Runs e k s o)
    (h' : f.Runs e k s o') : o = o' := by
  -- a key is cut or not, and a block has one run from a state
  induction h with
  | cut hcut =>
    cases h' with
    | cut _ => rfl
    | stop hcut' | leave hcut' | go hcut' => simp [hcut] at hcut'
  | stop hcut hnode hrun =>
    cases h' with
    | cut hcut' => simp [hcut] at hcut'
    | stop _ hnode' hrun' =>
      cases hnode.symm.trans hnode'
      cases hrun.symm.trans hrun'
      rfl
    | leave _ hnode' hrun' | go _ hnode' hrun' =>
      cases hnode.symm.trans hnode'
      cases hrun.symm.trans hrun'
  | leave hcut hnode hrun hafter =>
    cases h' with
    | cut hcut' => simp [hcut] at hcut'
    | stop _ hnode' hrun' =>
      cases hnode.symm.trans hnode'
      cases hrun.symm.trans hrun'
    | leave _ hnode' hrun' =>
      cases hnode.symm.trans hnode'
      cases hrun.symm.trans hrun'
      rfl
    | go _ hnode' hrun' hafter' =>
      cases hnode.symm.trans hnode'
      cases hrun.symm.trans hrun'
      cases hafter.symm.trans hafter'
  | go hcut hnode hrun hafter _ ih =>
    cases h' with
    | cut hcut' => simp [hcut] at hcut'
    | stop _ hnode' hrun' =>
      cases hnode.symm.trans hnode'
      cases hrun.symm.trans hrun'
    | leave _ hnode' hrun' hafter' =>
      cases hnode.symm.trans hnode'
      cases hrun.symm.trans hrun'
      cases hafter.symm.trans hafter'
    | go _ hnode' hrun' hafter' next' =>
      cases hnode.symm.trans hnode'
      cases hrun.symm.trans hrun'
      cases hafter.symm.trans hafter'
      exact ih next'

/-- A run leaves, is cut at a header, or ends at an access. -/
theorem Flow.Runs.ends {f : Flow} {k : Key} (h : f.Runs e k s o) :
    (∃ s', o = .exit s') ∨ (o = .cut ∧ ∃ k, f.isCut e.unroll k = .ok true) ∨
      ∃ s' touches, e.objection? s' touches = some o := by
  induction h with
  | cut hcut => exact .inr (.inl ⟨rfl, _, hcut⟩)
  | stop _ _ hrun => exact .inr (.inr (Blk.objection_of_run hrun))
  | leave => exact .inl ⟨_, rfl⟩
  | go _ _ _ _ _ ih => exact ih

namespace Sub

/-- Runs of a subroutine from its first block; without blocks it leaves at once. -/
def Runs (sub : Sub) (e : Environment) (s : State) (o : Ending) : Prop :=
  if sub.blks.isEmpty then o = .exit s
  else ∃ f n rest, sub.flow = .ok f ∧ f.graph = n :: rest ∧ f.Runs e (f.key n.label []) s o

theorem Runs.unique {o' : Ending} (h : sub.Runs e s o) (h' : sub.Runs e s o') : o = o' := by
  unfold Runs at h h'
  split at h
  · next hb =>
    rw [if_pos hb] at h'
    rw [h, h']
  · next hb =>
    rw [if_neg hb] at h'
    obtain ⟨f, n, rest, hf, hg, hrun⟩ := h
    obtain ⟨f', n', rest', hf', hg', hrun'⟩ := h'
    cases hf.symm.trans hf'
    cases hg.symm.trans hg'
    exact hrun.unique hrun'

/-- A run of a subroutine leaves, is cut at a header, or ends at an access. -/
theorem Runs.ends (h : sub.Runs e s o) :
    (∃ s', o = .exit s') ∨ (o = .cut ∧ ∃ f k, sub.flow = .ok f ∧ f.isCut e.unroll k = .ok true) ∨
      ∃ s' touches, e.objection? s' touches = some o := by
  unfold Runs at h
  split at h
  · exact .inl ⟨s, h⟩
  · obtain ⟨f, n, rest, hf, -, hruns⟩ := h
    rcases hruns.ends with hexit | ⟨rfl, k, hk⟩ | hstop
    · exact .inl hexit
    · exact .inr (.inl ⟨rfl, f, k, hf, hk⟩)
    · exact .inr (.inr hstop)

theorem Runs.exit_or_cut (he : e.hooks = []) (h : sub.Runs e s o) :
    (∃ s', o = .exit s') ∨ o = .cut := by
  rcases h.ends with hexit | ⟨rfl, -⟩ | ⟨_, _, hstop⟩
  · exact .inl hexit
  · exact .inr rfl
  · rw [Environment.objection?_eq_none he] at hstop
    cases hstop

/-- Whether a subroutine has no loops. -/
def LoopFree (sub : Sub) : Prop :=
  ∀ f, sub.flow = .ok f → f.loops = []

/-- No run of a subroutine without loops is cut. -/
theorem LoopFree.not_cut (hsub : sub.LoopFree) : ¬sub.Runs e s .cut := by
  intro h
  rcases h.ends with ⟨_, hexit⟩ | ⟨-, f, k, hf, hcut⟩ | ⟨_, _, hstop⟩
  · cases hexit
  · simp [Flow.isCut, Flow.isHeader, hsub f hf] at hcut
  · rcases Environment.objection?_cases hstop with h | ⟨h, -⟩ <;> cases h

/-- Whether a subroutine makes no calls. -/
def CallFree (sub : Sub) : Prop :=
  ∀ b ∈ sub.blks, b.CallFree

/-- Whether no expression of a subroutine has unknown parts. -/
def IsKnown (sub : Sub) : Prop :=
  ∀ b ∈ sub.blks, b.IsKnown

/-- Whether every definition gives its variable values of the variable's sort. -/
def WellSorted (sub : Sub) (e : Environment) : Prop :=
  ∀ b ∈ sub.blks, b.WellSorted e

end Sub

end Antecedent
