import Antecedent.Flow
import Antecedent.Summary
import Antecedent.Program.Symbolic

/-!
# Weakest preconditions

The condition on entry to a subroutine under which a postcondition holds on every exit:

* a definition substitutes its right side for its left side,
* a jump branches on its condition, to the condition of its destination or of the next jump,
* a call takes the meaning that the first covering summary gives it,
* a loop is unrolled, and a path that enters its header too often ends in a cut.

Blocks are treated once for every key, the blocks they need before them, the last one first.
-/

namespace Antecedent

namespace Build

/-! ## §1 Accesses and definitions -/

/-- The goal of a condition on an access, if the condition is about accesses of its kind. -/
def hookGoal (a : Access) : Hook → Build (Option (Duty × Constraint))
  | .nonNull kind duty => do
    if a.kind ≠ kind then return none
    let t ← Term.mkDistinct a.addr (.num (← a.addr.width) 0)
    return some (duty, ← goal ("non-null " ++ kind.text ++ " at " ++ a.tid.inText) t)
  | .sameAs memory map => do
    if a.kind ≠ .load then return none
    let mine ← Term.loadBytes (← getMemory) a.addr a.size .little
    let other ← Term.loadBytes memory (← map.term a.addr) a.size .little
    return some (.assume, ← goal ("memory offset at " ++ a.tid.inText) (← Term.mkEq mine other))

/-- Guards a condition with the conditions on accesses made before it. -/
def guarded (c : Constraint) (accesses : List Access) : Build Constraint := do
  let found ← accesses.flatMapM fun a => do (← env).hooks.filterMapM (hookGoal a)
  let hyps := found.filterMap fun (duty, g) => if duty = .assume then some g else none
  let goals := found.filterMap fun (duty, g) => if duty = .verify then some g else none
  if found.isEmpty then return c else clause hyps (goals ++ [c])

/-- The condition before a definition. -/
def definition (post : Constraint) (d : Def) : Build Constraint := do
  let (rhs, accesses) ← d.rhs.toTerm d.tid
  let lhs ← getVar d.lhs
  guarded (← substitution post [lhs] [rhs]) accesses

end Build

/-! ## §2 Jumps and blocks -/

/-- The name of a jump's branch: with its address if it has one. -/
def Jmp.branchName (j : Jmp) : Json :=
  match (Json.findMember? addressKey j.attrs).bind Json.int? with
  | some a => .str (j.tid.inText ++ " (" ++ Text.hex a ++ ")")
  | none => j.tid

/-- The name of a call's callee; a call without a target has a name of its own. -/
def Jmp.callee (j : Jmp) : Except Fault String :=
  if j.target.truthy then
    match j.target with
    | .str name => .ok name
    | _ => .error .wrongType
  else .ok ("indirect_" ++ j.tid.inText)

/-- What the walk of one subroutine needs: its flow, the condition on exit, and the walk of an
inlined callee. -/
structure Walker where
  flow : Flow
  post : Constraint
  inline : Constraint → Sub → Build Constraint

/-- The conditions of the keys that have been treated, the latest first. -/
abbrev Memo := List (Key × Constraint)

/-- Building with the conditions of earlier keys at hand. -/
abbrev Walking := StateT Memo Build

namespace Walker

/-- The condition of entering a block with given counts. -/
def entry (w : Walker) (label : Label) (counts : Counts) : Walking Constraint := do
  match (← get).lookup (w.flow.key (w.flow.graph.resolve label) counts) with
  | some c => return c
  | none => throw .unbuiltBlock

/-- The condition before a call that comes back with a given condition. -/
def call (w : Walker) (j : Jmp) (after : Constraint) : Build Constraint := do
  let name ← j.callee
  let after ← Build.substitution after [← Build.callFlag name] [.lit true]
  let e ← Build.env
  let callee := (e.findSub? name).getD { name := .str name }
  Build.summarize w.inline after callee j.tid (← e.resolve callee)

/-- The condition where a jump leads to. -/
def destination (w : Walker) (j : Jmp) (counts : Counts) : Walking Constraint := do
  match j.kind with
  | .goto =>
    match j.target with
    | .null => throw (.gotoWithoutTarget w.flow.name.inText j.tid.inText)
    | target => w.entry (← target.label) counts
  | .ret => return w.post
  | .call | .int =>
    let after ←
      if j.returnTo.truthy then w.entry (← j.returnTo.label) counts else pure w.post
    if j.kind = .int then return after else w.call j after

/-- The condition before a jump, from the condition after it when it is not taken. -/
def jump (w : Walker) (counts : Counts) (j : Jmp) (otherwise : Constraint) :
    Walking Constraint := do
  let (cond, accesses) ← j.cond.condition j.tid
  if cond.isFalse then Build.guarded otherwise accesses
  else
    let taken ← w.destination j counts
    let c ← Build.branch j.branchName cond taken otherwise
    Build.guarded c accesses

/-- The end of a path at a header that was entered too often. -/
def cut (w : Walker) (header : Label) : Build Constraint := do
  let e ← Build.env
  let shown := header.inText
  let times := boundWhole e.unroll
  if !header.isAmong e.truncated then
    Build.warn (s!"Loop at {shown} in {w.flow.name.inText} unrolled {times} times; the result "
      ++ "holds only up to this bound.")
    Build.modifyEnv fun e => { e with truncated := header :: e.truncated }
  Build.cut s!"loop at {shown} cut after {e.unroll.inText} iterations"

/-- The condition of entering a block that is not cut. -/
def block (w : Walker) (n : Node) (counts : Counts) : Walking Constraint := do
  let last ← match w.flow.graph.fallThrough? n with
    | some next => w.entry next counts
    | none => pure w.post
  let jumps ← n.block.jmps.foldrM (w.jump counts) last
  n.block.defs.foldrM (fun d post => Build.definition post d) jumps

/-- The condition of a key whose needs are treated. -/
def build (w : Walker) (k : Key) : Walking Constraint := do
  let e ← Build.env
  if ← w.flow.isCut e.unroll k then w.cut k.label else w.block (← w.flow.node k) k.counts

/-- Treats a key after the keys that it needs.  `path` holds the keys that are waiting for it, and
the bound is on their number. -/
def visit (w : Walker) : Nat → List Key → Key → Walking Unit
  | 0, _, _ => throw .endlessWalk
  | bound + 1, path, k => do
    if ((← get).lookup k).isSome then return
    if path.contains k then throw .endlessWalk
    let needs ← w.flow.needs (← Build.env).unroll k
    needs.reverse.forM (w.visit bound (k :: path))
    let c ← w.build k
    modify ((k, c) :: ·)

def run (w : Walker) : Build Constraint := do
  match w.flow.graph with
  | [] => return w.post
  | n :: _ =>
    let k := w.flow.key n.label []
    let bound := w.flow.keyBound (← Build.env).unroll
    let (_, memo) ← (w.visit bound [] k).run []
    match memo.lookup k with
    | some c => return c
    | none => throw .unbuiltBlock

end Walker

/-! ## §3 Subroutines -/

/-- The weakest precondition of a subroutine, with a bound on the nesting of inlined callees. -/
def preconditionWithin : Nat → Constraint → Sub → Build Constraint
  | 0, _, _ => throw .endlessWalk
  | bound + 1, post, sub => do
    if sub.blks.isEmpty then return post
    (Walker.mk (← sub.flow) post (preconditionWithin bound)).run

/-- How deep inlined callees may nest: every name as often as it may be repeated. -/
def Environment.nestingBound (e : Environment) : Nat :=
  (Summary.inlinedNames e.summaries).length * boundCeiling e.unroll + 1

def precondition (post : Constraint) (sub : Sub) : Build Constraint := do
  preconditionWithin (← Build.env).nestingBound post sub

end Antecedent
