import Antecedent.Program.Basic

/-!
# Writing programs

The document of a program, with every field that has a default written out.
-/

namespace Antecedent.Encode

def varFields (v : Var) : List (Label × Json) :=
  [("name", v.name), ("width", v.width), ("is_mem", v.isMem)]

/-- The document of a variable where nothing else may stand. -/
def var (v : Var) : Json :=
  .obj (varFields v)

def expr : Expr → Json
  | .var v => .obj (("kind", .str "var") :: varFields v)
  | .int value width => .obj [("kind", .str "int"), ("value", .int value), ("width", width)]
  | .load mem addr size endian =>
    .obj [("kind", .str "load"), ("mem", expr mem), ("addr", expr addr),
      ("size", size), ("endian", endian)]
  | .store mem addr value size endian =>
    .obj [("kind", .str "store"), ("mem", expr mem), ("addr", expr addr),
      ("value", expr value), ("size", size), ("endian", endian)]
  | .binop op lhs rhs =>
    .obj [("kind", .str "binop"), ("op", .str op.text), ("lhs", expr lhs),
      ("rhs", expr rhs)]
  | .unop op arg =>
    .obj [("kind", .str "unop"), ("op", .str op.text), ("arg", expr arg)]
  | .cast kind width arg =>
    .obj [("kind", .str "cast"), ("cast", .str kind.text), ("width", width),
      ("arg", expr arg)]
  | .ite cond yes no =>
    .obj [("kind", .str "ite"), ("cond", expr cond), ("then", expr yes),
      ("else", expr no)]
  | .extract hi lo arg =>
    .obj [("kind", .str "extract"), ("hi", hi), ("lo", lo), ("arg", expr arg)]
  | .concat lhs rhs =>
    .obj [("kind", .str "concat"), ("lhs", expr lhs), ("rhs", expr rhs)]
  | .unknown width reason =>
    .obj [("kind", .str "unknown"), ("width", width), ("reason", reason)]

def definition (d : Def) : Json :=
  .obj [("tid", d.tid), ("lhs", var d.lhs), ("rhs", expr d.rhs),
    ("attrs", .obj d.attrs)]

def jump (j : Jmp) : Json :=
  .obj [("tid", j.tid), ("kind", .str j.kind.text), ("cond", expr j.cond),
    ("target", j.target), ("return_to", j.returnTo), ("attrs", .obj j.attrs)]

def block (b : Blk) : Json :=
  .obj [("tid", b.tid), ("attrs", .obj b.attrs), ("defs", .arr (b.defs.map definition)),
    ("jmps", .arr (b.jmps.map jump))]

def argument (a : Arg) : Json :=
  .obj [("var", var a.var), ("intent", a.intent)]

def subroutine (s : Sub) : Json :=
  .obj [("name", s.name), ("attrs", .obj s.attrs), ("args", .arr (s.args.map argument)),
    ("blks", .arr (s.blks.map block))]

def symbol (s : DataSymbol) : Json :=
  .obj [("name", s.name), ("addr", s.addr), ("size", s.size)]

def program (p : Program) : Json :=
  .obj [("arch", .str p.arch.name), ("subs", .arr (p.subs.map subroutine)),
    ("symbols", .arr (p.symbols.map symbol))]

end Antecedent.Encode
