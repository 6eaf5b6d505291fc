import Antecedent.Decide.Assume

/-!
# Terms without memories and function symbols

The result of a function symbol and the byte of a memory constant at an address become constants,
with the law that equal arguments give equal results.  An equality of two memories becomes a flag:
where it is set the memories agree at every address that is spoken about, where it is not they
differ at an address of its own.

Memories that agree at all addresses spoken about can be made to agree everywhere, since the bytes
at other addresses are free; so nothing is lost.
-/

namespace Antecedent.Decide

open Term

structure Alias where
  term : Term
  const : Term

/-- Constants with a stem that no other constant has. -/
def aliases (stem : String) (ts : List Term) : List Alias :=
  ts.zipIdx.map fun (t, i) => ⟨t, .const (.hidden s!"{stem}!{i}") t.sort⟩

def flatten (as : List Alias) (t : Term) : Term :=
  if as.isEmpty then t else (t.subst (as.map fun a => (a.term, a.const))).simplify

def allPairs {α : Type} : List α → List (α × α)
  | [] => []
  | a :: as => as.map (fun b => (a, b)) ++ allPairs as

/-- The law for two applications of one operator: equal arguments give equal results. -/
def congruence (args args' : List Term) (result result' : Term) : Term :=
  mkOr [mkNot (mkAnd (args.zipWith eqTerm args')), eqTerm result result']

/-- An application with the constants in place of what they stand for among its arguments. -/
def flattenArgs (as : List Alias) (t : Term) : Term :=
  match t with
  | .app op args => .app op (args.map (flatten as))
  | t => t

/-- Whether a law relates two applications: loads from different memories have nothing to do with
each other. -/
def related (f g : Op) (xs ys : List Term) : Bool :=
  match f, xs, ys with
  | .select, m :: _, n :: _ => f == g && m == n
  | _, _, _ => f == g

/-- The laws for constants that stand for applications with flat arguments. -/
def congruences (as : List Alias) : List Term :=
  (allPairs as).filterMap fun (a, b) =>
    match a.term, b.term with
    | .app f xs, .app g ys =>
      if related f g xs ys then
        match congruence xs ys a.const b.const with
        | .lit true => none
        | law => some law
      else none
    | _, _ => none

/-! ## §1 Function symbols -/

def isApply : Term → Bool
  | .app (.apply _ _ _) _ => true
  | _ => false

/-! ## §2 Equalities of memories -/

def isMemoryEq : Term → Bool
  | .app .eq (m :: _) =>
    match m.sort with
    | .memory _ => true
    | _ => false
  | _ => false

def addresses (width : Nat) (ts : List Term) : List Term :=
  let found := collect (fun
    | .app .select _ | .app .store _ => true
    | _ => false) ts
  (found.filterMap fun
    | .app .select [_, a] | .app .store [_, a, _] =>
      if a.widthD == width then some a else none
    | _ => none).eraseDups

/-- An equality of memories, its flag and the address where they differ if it is not set. -/
structure MemoryEq where
  left : Term
  right : Term
  width : Nat
  flag : Term
  witness : Term

def memoryEqs (ts : List Term) : List (Term × MemoryEq) :=
  (collect isMemoryEq ts).zipIdx.filterMap fun (t, i) =>
    match t with
    | .app .eq [m, n] =>
      match m.sort with
      | .memory w =>
        some (t, {
          left := m, right := n, width := w
          flag := .const (.hidden s!"same!{i}") .bool
          witness := .const (.hidden s!"differ!{i}") (.bits w) })
      | _ => none
    | _ => none

/-- Replaces the equalities of memories by flags.  The laws of the flags are added to the terms. -/
def withoutMemoryEqs (ts : List Term) : List Term :=
  let eqs := memoryEqs ts
  if eqs.isEmpty then ts
  else
    let names := eqs.map fun (t, e) => (⟨t, e.flag⟩ : Alias)
    let flat := ts.map (flatten names)
    let sides := eqs.map fun (_, e) => (flatten names e.left, flatten names e.right, e)
    let spoken := flat ++ sides.flatMap fun (l, r, _) => [l, r]
    let witnesses := eqs.map (·.2)
    let laws := sides.flatMap fun (l, r, e) =>
      let at_ (a : Term) : Term := eqTerm (mkSelect a l) (mkSelect a r)
      let own := (witnesses.filter (·.width == e.width)).map (·.witness)
      mkOr [e.flag, mkNot (at_ e.witness)] ::
        (addresses e.width spoken ++ own).map fun a => mkOr [mkNot e.flag, at_ a]
    flat ++ laws

/-! ## §3 Loads -/

def isSelect : Term → Bool
  | .app .select _ => true
  | _ => false

/-! ## §4 All together -/

/-- Terms about truth values and bit vectors only, laws that hold between their constants, and what
the new constants stand for. -/
structure Flat where
  terms : List Term
  laws : List Term
  results : List Alias
  loads : List Alias

/-- Constants for terms of a kind, each standing for an application with flat arguments. -/
def flatAliases (stem : String) (p : Term → Bool) (ts : List Term) : List Alias × List Alias :=
  let names := aliases stem (collect p ts)
  (names, names.map fun a => { a with term := flattenArgs names a.term })

def Flat.ofTerms (ts : List Term) : Flat :=
  let (names, results) := flatAliases "result" isApply ts
  let ts := ts.map (flatten names)
  let resultLaws := congruences results
  -- Equalities of memories among the arguments of function symbols are treated with the others.
  let (ts, resultLaws) :=
    if (collect isMemoryEq (ts ++ resultLaws)).isEmpty then (ts, resultLaws)
    else (withoutMemoryEqs (ts ++ resultLaws), [])
  let (names, loads) := flatAliases "byte" isSelect (ts ++ resultLaws)
  { terms := ts.map (flatten names)
    laws := resultLaws.map (flatten names) ++ congruences loads
    results
    loads }

end Antecedent.Decide
