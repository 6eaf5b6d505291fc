import Antecedent.Program.Basic

/-!
# Control flow

The graph of a subroutine's blocks, its loops, and the loop counts that a bounded walk keeps.

* An edge of a depth-first search to a block on the current path is a back edge, and its target is a
  loop header.  The loop of a header holds every block that reaches the source of a back edge to it
  without passing through it.
* A walk counts the entries into the headers of the loops around the current block.  Leaving a loop
  drops its count, and entering a header again drops the counts of the loops entered after it.

A block is known by one label, the one that its document writes first: the same label written in
another way elsewhere is replaced by it, so that labels of the graph are the same when they are
equal.
-/

namespace Antecedent

/-! ## §1 The graph -/

/-- Whether an expression is the condition that always holds. -/
def Expr.isAlways : Expr → Bool
  | .int value width => value == 1 && width.alike (.int 1)
  | _ => false

/-- Whether control may run past the last jump. -/
def Blk.fallsThrough (b : Blk) : Bool :=
  b.jmps.all fun j => !j.cond.isAlways

/-- The block of the subroutine that a jump leads to: the target of a `goto` and the block at which
a call or an interrupt resumes.  An empty name counts as none. -/
def Jmp.successor? (j : Jmp) : Option Json :=
  match j.kind with
  | .goto => if j.target.truthy then some j.target else none
  | .call | .int => if j.returnTo.truthy then some j.returnTo else none
  | .ret => none

/-- A block with its label and those of the blocks that its jumps lead to, in order. -/
structure Node where
  label : Label
  block : Blk
  exits : List Label

abbrev Graph := List Node

def Sub.labels (s : Sub) : Except Fault (List Label) :=
  s.blks.mapM fun b => b.tid.label

/-- The graph of a subroutine; every block and every destination of a jump must have a label. -/
def Sub.graph (s : Sub) : Except Fault Graph := do
  let known ← s.labels
  s.blks.mapM fun b => do
    let label ← b.tid.label
    let exits ← (b.jmps.filterMap Jmp.successor?).mapM Json.label
    return { label := label.among known, block := b, exits := exits.map (Label.among known) }

namespace Graph

def resolve (g : Graph) (l : Label) : Label :=
  l.among (g.map Node.label)

/-- The block of a label; of several the last one. -/
def node? (g : Graph) (l : Label) : Option Node :=
  g.reverse.find? (·.label == l)

def withNext (g : Graph) : List (Node × Option Label) :=
  g.zip ((g.drop 1).map (fun n => some n.label) ++ [none])

/-- The label of the block after the block of a label. -/
def next? (g : Graph) (l : Label) : Option Label :=
  (g.withNext.reverse.find? (·.1.label == l)).bind (·.2)

def fallThrough? (g : Graph) (n : Node) : Option Label :=
  if n.block.fallsThrough then g.next? n.label else none

/-- The blocks that may follow a block: those of its jumps in order, then the fall-through. -/
def successors (g : Graph) (n : Node) : List Label :=
  n.exits ++ (g.fallThrough? n).toList

def predecessors (g : Graph) (l : Label) : List Label :=
  (g.filter fun n => (g.successors n).contains l).map Node.label

/-! ## §2 Loops -/

/-- A depth-first search: the path to the current block, the last block first, the blocks left for
good, and the back edges found, the last one first. -/
structure Search where
  path : List Label := []
  done : List Label := []
  edges : List (Label × Label) := []

/-- Searches on from a block that is on the path; the bound is on the length of the path. -/
def search (g : Graph) : Nat → Label → Search → Search
  | 0, _, st => st
  | bound + 1, l, st =>
    let succs := ((g.node? l).map g.successors).getD []
    let st := succs.foldl
      (fun st next =>
        if st.path.contains next then { st with edges := (l, next) :: st.edges }
        else if st.done.contains next || (g.node? next).isNone then st
        else search g bound next { st with path := next :: st.path })
      st
    { st with path := st.path.drop 1, done := l :: st.done }

def backEdges (g : Graph) : List (Label × Label) :=
  match g with
  | [] => []
  | n :: _ => (search g g.length n.label { path := [n.label] }).edges.reverse

/-- Adds a block to a loop, and with it all blocks that reach it; the bound is on the number of
blocks between. -/
def absorb (g : Graph) : Nat → Label → List Label → List Label
  | 0, _, body => body
  | bound + 1, l, body =>
    if body.contains l then body
    else (g.predecessors l).foldl (fun body p => absorb g bound p body) (l :: body)

def setBody (header : Label) (body : List Label) :
    List (Label × List Label) → List (Label × List Label)
  | [] => [(header, body)]
  | (h, b) :: rest => if h == header then (h, body) :: rest else (h, b) :: setBody header body rest

def addLoop (g : Graph) (loops : List (Label × List Label)) (edge : Label × Label) :
    List (Label × List Label) :=
  let (source, header) := edge
  let body := (loops.lookup header).getD [header]
  setBody header (g.absorb (g.length + 1) source body) loops

def loops (g : Graph) : List (Label × List Label) :=
  g.backEdges.foldl g.addLoop []

end Graph

/-- A subroutine's name and graph with its loops. -/
structure Flow where
  name : Json
  graph : Graph
  loops : List (Label × List Label)

/-- The flow of a subroutine; its loop headers must have an order. -/
def Sub.flow (s : Sub) : Except Fault Flow := do
  let graph ← s.graph
  let loops := graph.loops
  let _ ← Label.sortBy Label.before (loops.map (·.1))
  return { name := s.name, graph, loops }

/-! ## §3 Loop counts -/

/-- How often the walk has entered the headers of the loops it is in, outermost loop first. -/
abbrev Counts := List (Label × Nat)

/-- A block together with the loop counts on entering it. -/
structure Key where
  label : Label
  counts : Counts := []
deriving DecidableEq, Hashable, Repr, Inhabited

/-- Counts one more entry into a header; the loops entered after it start over. -/
def enterLoop (header : Label) : Counts → Counts
  | [] => [(header, 1)]
  | (h, n) :: rest => if h = header then [(h, n + 1)] else (h, n) :: enterLoop header rest

/-- Whether a bound lies below an integer; a bound that is no number is a fault. -/
def boundBelow (bound : Json) (n : Int) : Except Fault Bool :=
  match bound with
  | .int m => .ok (decide (m < n))
  | .bool b => .ok (decide ((if b then 1 else 0 : Int) < n))
  | .float x => (Label.float x).before (.int n)
  | _ => .error .wrongType

/-- Whether a bound lies above an integer; a bound that is no number is a fault. -/
def boundAbove (bound : Json) (n : Int) : Except Fault Bool :=
  match bound with
  | .int m => .ok (decide (n < m))
  | .bool b => .ok (decide (n < (if b then 1 else 0 : Int)))
  | .float x => (Label.int n).before (.float x)
  | _ => .error .wrongType

def boundWhole (bound : Json) : Int :=
  match bound with
  | .float x => x.truncate?.getD 0
  | bound => bound.int?.getD 0

/-- A natural number that no repetition within a bound exceeds. -/
def boundCeiling : Json → Nat
  | .int n => n.toNat
  | .float x => (x.truncate?.getD 0).toNat + 1
  | _ => 1

namespace Flow

def body (f : Flow) (header : Label) : List Label :=
  (f.loops.lookup header).getD []

def isHeader (f : Flow) (l : Label) : Bool :=
  (f.loops.lookup l).isSome

/-- The key of entering a block with given counts: only the loops around the block count. -/
def key (f : Flow) (l : Label) (counts : Counts) : Key :=
  let kept := counts.filter fun (h, _) => (f.body h).contains l
  { label := l, counts := if f.isHeader l then enterLoop l kept else kept }

/-- Whether unrolling cuts the walk here: the header is entered more often than the body may be
repeated, not counting the last test. -/
def isCut (f : Flow) (unroll : Json) (k : Key) : Except Fault Bool :=
  if f.isHeader k.label then
    boundBelow unroll (((k.counts.lookup k.label).getD 0 : Nat) - 1)
  else .ok false

def node (f : Flow) (k : Key) : Except Fault Node :=
  match f.graph.node? k.label with
  | some n => .ok n
  | none => .error (.missingBlock f.name.inText k.label.inText)

/-- The keys that a key needs: those of the blocks that may follow. -/
def needs (f : Flow) (unroll : Json) (k : Key) : Except Fault (List Key) := do
  if ← f.isCut unroll k then return []
  let n ← f.node k
  return (f.graph.successors n).map fun l => f.key l k.counts

def keyBound (f : Flow) (unroll : Json) : Nat :=
  let headers := f.loops.length
  (f.graph.length + 1) * Nat.pow ((headers + 1) * (boundCeiling unroll + 3)) headers + 1

end Flow

end Antecedent
