import Antecedent.Program.Basic

/-!
# Listings

A subroutine is listed with one term to a line.  Expressions are written out in full, each node as
its name with all of its fields.

The line of a jump names the block that a call comes back to after the target.  The words for it go
to the end of a target that is a text, for the line only; a target that is a row keeps them, letter
by letter.
-/

namespace Antecedent

def Var.display (v : Var) : String :=
  "Var(name=" ++ v.name.display ++ ", width=" ++ v.width.display ++ ", is_mem="
    ++ v.isMem.display ++ ")"

def Expr.display : Expr → String
  | .var v => v.display
  | .int value width => s!"Int(value={value}, width=" ++ width.display ++ ")"
  | .load mem addr size endian =>
    "Load(mem=" ++ mem.display ++ ", addr=" ++ addr.display ++ ", size=" ++ size.display
      ++ ", endian=" ++ endian.display ++ ")"
  | .store mem addr value size endian =>
    "Store(mem=" ++ mem.display ++ ", addr=" ++ addr.display ++ ", value=" ++ value.display
      ++ ", size=" ++ size.display ++ ", endian=" ++ endian.display ++ ")"
  | .binop op lhs rhs =>
    "BinOp(op=" ++ Text.quoted op.text ++ ", lhs=" ++ lhs.display ++ ", rhs=" ++ rhs.display ++ ")"
  | .unop op arg => "UnOp(op=" ++ Text.quoted op.text ++ ", arg=" ++ arg.display ++ ")"
  | .cast kind width arg =>
    "Cast(kind=" ++ Text.quoted kind.text ++ ", width=" ++ width.display ++ ", arg="
      ++ arg.display ++ ")"
  | .ite cond yes no =>
    "Ite(cond=" ++ cond.display ++ ", then=" ++ yes.display ++ ", orelse=" ++ no.display ++ ")"
  | .extract hi lo arg =>
    "Extract(hi=" ++ hi.display ++ ", lo=" ++ lo.display ++ ", arg=" ++ arg.display ++ ")"
  | .concat lhs rhs => "Concat(lhs=" ++ lhs.display ++ ", rhs=" ++ rhs.display ++ ")"
  | .unknown width reason =>
    "Unknown(width=" ++ width.display ++ ", reason=" ++ reason.display ++ ")"

def Def.line (d : Def) : String :=
  "  " ++ d.tid.inText ++ ": " ++ d.lhs.name.inText ++ " := " ++ d.rhs.display

def Jmp.returnWords (j : Jmp) : String :=
  " with return " ++ j.returnTo.inText

def Jmp.listed (j : Jmp) : Jmp :=
  if j.target.truthy && j.returnTo.truthy then
    match j.target with
    | .arr items =>
      { j with target := .arr (items ++ j.returnWords.toList.map fun c => .str (.singleton c)) }
    | _ => j
  else j

/-- Where a jump goes: its target, and the block that a call comes back to.  A target that is
neither a text nor a row cannot be followed by one. -/
def Jmp.destination (j : Jmp) : Except Fault String :=
  let target := if j.target.truthy then j.target else .str ""
  if j.returnTo.truthy then
    match target with
    | .str s => .ok (s ++ j.returnWords)
    | .arr _ => .ok j.listed.target.display
    | _ => .error .wrongType
  else .ok target.inText

def Jmp.line (j : Jmp) : Except Fault String := do
  let destination ← j.destination
  pure (Text.trimRight ("  " ++ j.tid.inText ++ ": when " ++ j.cond.display ++ " " ++ j.kind.text
    ++ " " ++ destination))

def Blk.lines (b : Blk) : Except Fault (List String) := do
  let jmps ← b.jmps.mapM Jmp.line
  pure ((b.tid.inText ++ ":") :: b.defs.map Def.line ++ jmps)

def Sub.text (s : Sub) : Except Fault String := do
  let args := s.args.map fun a => "  arg " ++ a.var.name.inText ++ " :: " ++ a.intent.inText
  let blks ← s.blks.mapM Blk.lines
  pure ("\n".intercalate (("sub " ++ s.name.inText ++ "()") :: args ++ blks.flatten))

def Sub.listed (s : Sub) : Sub :=
  { s with blks := s.blks.map fun b => { b with jmps := b.jmps.map Jmp.listed } }

/-- The different variables of a subroutine as rows in ascending order. -/
def Sub.varRows (s : Sub) : Except Fault (List Json) := do
  return (← Var.sort (← Var.distinct s.vars)).map Var.row

end Antecedent
