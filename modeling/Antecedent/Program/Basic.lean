import Antecedent.Arch
import Antecedent.Json.Basic
import Antecedent.Program.Operator

/-!
# Programs

A lifted program as its document gives it: operators and kinds of jumps are known words, values,
addresses and sizes of symbols are numbers, and every other field is kept as the value that stands
there.  What such a value is used for decides whether it can be used, so a field that nothing looks
at may hold anything.

The jumps of a block are tried in order and the first whose condition holds is taken.  If none is
taken, control falls through to the next block of the subroutine, and the last block leaves it.
A `goto` goes to a block; a `call` runs the callee and comes back at its return block; a `ret`
leaves the subroutine; an `int` resumes at its return block.
-/

namespace Antecedent

abbrev Attrs := List (Label × Json)

/-- A register of a width, or the memory. -/
structure Var where
  name : Json
  width : Json := .int 0
  isMem : Json := .bool false
deriving Repr, Inhabited

inductive Expr where
  | var (v : Var)
  | int (value : Int) (width : Json)
  | load (mem addr : Expr) (size endian : Json)
  | store (mem addr value : Expr) (size endian : Json)
  | binop (op : BinOp) (lhs rhs : Expr)
  | unop (op : UnOp) (arg : Expr)
  | cast (kind : CastKind) (width : Json) (arg : Expr)
  | ite (cond yes no : Expr)
  | extract (hi lo : Json) (arg : Expr)
  | concat (lhs rhs : Expr)
  | unknown (width reason : Json)
deriving Repr, Inhabited

def Expr.always : Expr :=
  .int 1 (.int 1)

/-- The byte order that a field gives: any value but the word `little` is the other one. -/
def Endian.ofField (j : Json) : Endian :=
  if j.str? == some "little" then .little else .big

structure Def where
  tid : Json
  lhs : Var
  rhs : Expr
  attrs : Attrs := []
deriving Repr, Inhabited

/-- A jump.  A call without a return block never returns to the caller. -/
structure Jmp where
  tid : Json
  kind : JmpKind
  cond : Expr := .always
  target : Json := .null
  returnTo : Json := .null
  attrs : Attrs := []
deriving Repr, Inhabited

structure Blk where
  tid : Json
  defs : List Def := []
  jmps : List Jmp := []
  attrs : Attrs := []
deriving Repr, Inhabited

structure Arg where
  var : Var
  intent : Json := .str "in"
deriving Repr, Inhabited

structure Sub where
  name : Json
  blks : List Blk := []
  args : List Arg := []
  attrs : Attrs := []
deriving Repr, Inhabited

structure DataSymbol where
  name : Json
  addr : Json
  size : Json
deriving Repr, Inhabited

structure Program where
  arch : Arch
  subs : List Sub := []
  symbols : List DataSymbol := []
deriving Repr, Inhabited

/-! ## §1 Attributes -/

def addressKey : String :=
  "address"

def keepAddress (attrs : Attrs) : Attrs :=
  match Json.findMember? addressKey attrs with
  | some v => [(.text addressKey, v)]
  | none => []

/-- A block whose terms keep only their addresses. -/
def Blk.strip (b : Blk) : Blk :=
  { b with
    defs := b.defs.map fun d => { d with attrs := keepAddress d.attrs }
    jmps := b.jmps.map fun j => { j with attrs := keepAddress j.attrs }
    attrs := keepAddress b.attrs }

def Sub.strip (s : Sub) : Sub :=
  { s with blks := s.blks.map Blk.strip, attrs := keepAddress s.attrs }

def Program.strip (p : Program) : Program :=
  { p with subs := p.subs.map Sub.strip }

/-! ## §2 Variables -/

/-- The variables that an expression reads, in order and with repetitions. -/
def Expr.vars : Expr → List Var
  | .var v => [v]
  | .int _ _ => []
  | .load m a _ _ => m.vars ++ a.vars
  | .store m a v _ _ => m.vars ++ a.vars ++ v.vars
  | .binop _ l r => l.vars ++ r.vars
  | .unop _ e => e.vars
  | .cast _ _ e => e.vars
  | .ite c y n => c.vars ++ y.vars ++ n.vars
  | .extract _ _ e => e.vars
  | .concat l r => l.vars ++ r.vars
  | .unknown _ _ => []

def Blk.vars (b : Blk) : List Var :=
  b.defs.flatMap (fun d => d.lhs :: d.rhs.vars) ++ b.jmps.flatMap (fun j => j.cond.vars)

/-- The variables that a subroutine reads or writes, with repetitions. -/
def Sub.vars (s : Sub) : List Var :=
  s.blks.flatMap Blk.vars

def Var.row (v : Var) : Json :=
  .arr [v.name, v.width, v.isMem]

def Var.alike (v w : Var) : Bool :=
  v.row.alike w.row

def Var.isMember (v : Var) : Bool :=
  v.name.label?.isSome && v.width.label?.isSome && v.isMem.label?.isSome

/-- The different variables of a list, each as it is written first; all of them must be fit to be
members of a set. -/
def Var.distinct (vs : List Var) : Except Fault (List Var) :=
  if vs.all Var.isMember then
    .ok (vs.foldl (fun found v => if found.any v.alike then found else found ++ [v]) [])
  else .error .wrongType

def Var.sort (vs : List Var) : Except Fault (List Var) :=
  Label.sortBy (fun v w => v.row.before w.row) vs

/-! ## §3 Look-ups -/

/-- The direct call targets of a subroutine, each once, in the order of their first call. -/
def Sub.callees (s : Sub) : List Json :=
  (s.blks.flatMap Blk.jmps).foldl
    (fun names j =>
      if j.kind == .call && j.target.truthy && !names.any (Json.alike j.target) then
        names ++ [j.target]
      else names) []

def Program.findSub? (p : Program) (name : Json) : Option Sub :=
  p.subs.find? fun s => s.name.alike name

def Sub.findBlk? (s : Sub) (tid : Json) : Option Blk :=
  s.blks.find? fun b => b.tid.alike tid

end Antecedent
