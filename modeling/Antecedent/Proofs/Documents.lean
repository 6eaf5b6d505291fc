import Antecedent.Proofs.Building
import Antecedent.Program.Decode
import Antecedent.Program.Encode

/-!
# Documents of programs

A program that was read from a document is read again from the document that is written for it.
Defaults are written out, attributes become objects and an architecture gets its first name, so the
second document may differ from the first; from then on nothing changes any more.

Documents may also be rewritten on the way, say with the members of objects in another order.  Then
the program is read with its values rewritten in the same way.

* `Program.Documented` is what is special about programs that come from documents.
* `Decode.program_encode_of_program` is the round trip.
-/

namespace Antecedent

/-! ## §1 Rewriting values -/

/-- Keys are looked up one member after the other. -/
theorem Json.findMember?_cons (k l : Label) (v : Json) (ms : List (Label × Json)) :
    findMember? k ((l, v) :: ms) = if l.same k then some v else findMember? k ms := by
  simp only [findMember?, List.find?_cons]
  cases l.same k <;> rfl

/-- A rewriting of values keeps simple values, the items of arrays in their order, and what the keys
of objects stand for. -/
structure Json.Rewrites (f : Json → Json) : Prop where
  simple : ∀ {j : Json} {l : Label}, j.label? = some l → f j = j
  arr : ∀ xs, f (.arr xs) = .arr (xs.map f)
  obj : ∀ ms, ∃ ms', f (.obj ms) = .obj ms' ∧
    ∀ k : String, findMember? k ms' = (findMember? k ms).map f

theorem Json.rewrites_id : Json.Rewrites id :=
  ⟨fun _ => rfl, fun xs => by simp, fun ms => ⟨ms, rfl, by simp⟩⟩

section Map

variable (f : Json → Json)

/-- Attributes with their values rewritten, as the members of one object. -/
def Attrs.rewrite (attrs : Attrs) : Attrs :=
  match f (.obj attrs) with
  | .obj ms => ms
  | _ => attrs

def Var.map (v : Var) : Var :=
  ⟨f v.name, f v.width, f v.isMem⟩

def Expr.map : Expr → Expr
  | .var v => .var (v.map f)
  | .int value width => .int value (f width)
  | .load m a size endian => .load m.map a.map (f size) (f endian)
  | .store m a v size endian => .store m.map a.map v.map (f size) (f endian)
  | .binop op l r => .binop op l.map r.map
  | .unop op x => .unop op x.map
  | .cast kind width x => .cast kind (f width) x.map
  | .ite c y n => .ite c.map y.map n.map
  | .extract hi lo x => .extract (f hi) (f lo) x.map
  | .concat l r => .concat l.map r.map
  | .unknown width reason => .unknown (f width) (f reason)

def Def.map (d : Def) : Def :=
  ⟨f d.tid, d.lhs.map f, d.rhs.map f, Attrs.rewrite f d.attrs⟩

def Jmp.map (j : Jmp) : Jmp :=
  ⟨f j.tid, j.kind, j.cond.map f, f j.target, f j.returnTo, Attrs.rewrite f j.attrs⟩

def Blk.map (b : Blk) : Blk :=
  ⟨f b.tid, b.defs.map (·.map f), b.jmps.map (·.map f), Attrs.rewrite f b.attrs⟩

def Arg.map (a : Arg) : Arg :=
  ⟨a.var.map f, f a.intent⟩

def Sub.map (s : Sub) : Sub :=
  ⟨f s.name, s.blks.map (·.map f), s.args.map (·.map f), Attrs.rewrite f s.attrs⟩

def DataSymbol.map (s : DataSymbol) : DataSymbol :=
  ⟨f s.name, f s.addr, f s.size⟩

def Program.map (p : Program) : Program :=
  { p with subs := p.subs.map (·.map f), symbols := p.symbols.map (·.map f) }

end Map

theorem Expr.map_id (x : Expr) : x.map id = x := by
  induction x <;> simp_all [Expr.map, Var.map]

theorem Blk.map_id (b : Blk) : b.map id = b := by
  have hdef : (fun d : Def => d.map id) = id := by
    funext d
    simp [Def.map, Var.map, Attrs.rewrite, Expr.map_id]
  have hjmp : (fun j : Jmp => j.map id) = id := by
    funext j
    simp [Jmp.map, Attrs.rewrite, Expr.map_id]
  simp [Blk.map, Attrs.rewrite, hdef, hjmp]

theorem Program.map_id (p : Program) : p.map id = p := by
  have hsub : (fun s : Sub => s.map id) = id := by
    funext s
    have harg : (fun a : Arg => a.map id) = id := by
      funext a
      simp [Arg.map, Var.map]
    have hblk : (fun b : Blk => b.map id) = id := funext Blk.map_id
    simp [Sub.map, Attrs.rewrite, harg, hblk]
  have hsymbol : (fun s : DataSymbol => s.map id) = id := rfl
  simp [Program.map, hsub, hsymbol]

theorem Attrs.obj_rewrite {f : Json → Json} (hf : Json.Rewrites f) (attrs : Attrs) :
    f (.obj attrs) = .obj (Attrs.rewrite f attrs) := by
  obtain ⟨ms, hms, -⟩ := hf.obj attrs
  rw [Attrs.rewrite, hms]

namespace Decode

open Json (findMember?_cons)

/-! ## §2 Expressions -/

theorem word_text {α : Type} {ofText? : String → Option α} {unknown : String → Fault} {s : String}
    {a : α} (h : ofText? s = some a) : word ofText? unknown (.str s) = .ok a := by
  simp [word, Json.label?, Json.str?, h]

section Rewrite

variable {f : Json → Json} (hf : Json.Rewrites f)
include hf

/-- The members of a rewritten object, which are less deep than the object. -/
theorem exists_parts {ms : List (Label × Json)} {bound : Nat}
    (h : depth (f (.obj ms)) ≤ bound) :
    ∃ n ms', bound = n + 1 ∧ f (.obj ms) = .obj ms' ∧
      (∀ k : String, Json.findMember? k ms' = (Json.findMember? k ms).map f) ∧
      ∀ (k : String) v, Json.findMember? k ms = some v → depth (f v) ≤ n := by
  have hmem : ∀ {ms : List (Label × Json)} {p : Label × Json}, p ∈ ms →
      depth p.2 ≤ depth.depthMembers ms := by
    intro ms p hp
    induction ms with
    | nil => cases hp
    | cons q ms ih =>
      rw [depth.depthMembers]
      rcases List.mem_cons.mp hp with rfl | hp
      · exact le_max_left ..
      · exact (ih hp).trans (le_max_right ..)
  obtain ⟨ms', hms, hfind⟩ := hf.obj ms
  rw [hms, depth] at h
  refine ⟨bound - 1, ms', by omega, hms, hfind, fun k v hv => ?_⟩
  have hv' := hfind k
  rw [hv] at hv'
  obtain ⟨p, hp, hpv⟩ := Option.map_eq_some_iff.mp hv'
  have hle := hmem (List.mem_of_find?_eq_some hp)
  rw [hpv] at hle
  omega

/-- **Expressions** are read from their documents, if the bound leaves room for them. -/
theorem exprWithin_encode (x : Expr) (bound : Nat) (h : depth (f (Encode.expr x)) ≤ bound) :
    exprWithin (bound + 1) (f (Encode.expr x)) = .ok (x.map f) := by
  have hstr : ∀ s, f (.str s) = .str s := fun s => hf.simple rfl
  -- the parts of an expression are members of its document, so one less leaves room for them
  induction x generalizing bound with
    (rw [Encode.expr] at h ⊢
     obtain ⟨n, ms, rfl, hms, hfind, hn⟩ := exists_parts hf h
     rw [hms, exprWithin])
  | var v =>
    simp [varFields, Encode.varFields, fieldD, members, field, hfind, findMember?_cons, Json.str?,
      hstr, Expr.map, Var.map]
  | int value width =>
    have hvalue : f (.int value) = .int value := hf.simple rfl
    simp [fieldD, members, field, hfind, findMember?_cons, Json.str?, hstr, integer, hvalue,
      Expr.map]
  | load mem addr size endian ihm iha =>
    have hm := ihm n (hn "mem" _ rfl)
    have ha := iha n (hn "addr" _ rfl)
    simp [fieldD, members, field, hfind, findMember?_cons, Json.str?, hstr, hm, ha, Expr.map]
  | store mem addr value size endian ihm iha ihv =>
    have hm := ihm n (hn "mem" _ rfl)
    have ha := iha n (hn "addr" _ rfl)
    have hv := ihv n (hn "value" _ rfl)
    simp [fieldD, members, field, hfind, findMember?_cons, Json.str?, hstr, hm, ha, hv, Expr.map]
  | binop op lhs rhs ihl ihr =>
    have hl := ihl n (hn "lhs" _ rfl)
    have hr := ihr n (hn "rhs" _ rfl)
    simp [fieldD, members, field, hfind, findMember?_cons, Json.str?, hstr, hl, hr,
      word_text op.ofText?_text, Expr.map]
  | unop op arg ih =>
    have hx := ih n (hn "arg" _ rfl)
    simp [fieldD, members, field, hfind, findMember?_cons, Json.str?, hstr, hx,
      word_text op.ofText?_text, Expr.map]
  | cast kind width arg ih =>
    have hx := ih n (hn "arg" _ rfl)
    simp [fieldD, members, field, hfind, findMember?_cons, Json.str?, hstr, hx,
      word_text kind.ofText?_text, Expr.map]
  | ite cond yes no ihc ihy ihn =>
    have hc := ihc n (hn "cond" _ rfl)
    have hy := ihy n (hn "then" _ rfl)
    have hno := ihn n (hn "else" _ rfl)
    simp [fieldD, members, field, hfind, findMember?_cons, Json.str?, hstr, hc, hy, hno, Expr.map]
  | extract hi lo arg ih =>
    have hx := ih n (hn "arg" _ rfl)
    simp [fieldD, members, field, hfind, findMember?_cons, Json.str?, hstr, hx, Expr.map]
  | concat lhs rhs ihl ihr =>
    have hl := ihl n (hn "lhs" _ rfl)
    have hr := ihr n (hn "rhs" _ rfl)
    simp [fieldD, members, field, hfind, findMember?_cons, Json.str?, hstr, hl, hr, Expr.map]
  | unknown width reason =>
    simp [fieldD, members, field, hfind, findMember?_cons, Json.str?, hstr, Expr.map]

theorem expr_encode (x : Expr) : expr (f (Encode.expr x)) = .ok (x.map f) :=
  exprWithin_encode hf x _ le_rfl

/-! ## §3 Terms -/

omit hf in
/-- A reader of objects that only looks keys up. -/
theorem of_members (hf : Json.Rewrites f) {α : Type} {decode : Json → Except Fault α}
    {ms : List (Label × Json)} {a : α}
    (h : ∀ ms', (∀ k : String, Json.findMember? k ms' = (Json.findMember? k ms).map f) →
      decode (.obj ms') = .ok a) : decode (f (.obj ms)) = .ok a := by
  obtain ⟨ms', hms, hfind⟩ := hf.obj ms
  rw [hms]
  exact h ms' hfind

theorem items_encode {α : Type} {decode : Json → Except Fault α} {encode : α → Json} {g : α → α}
    {as : List α} (h : ∀ a ∈ as, decode (f (encode a)) = .ok (g a)) :
    ∃ xs, items (f (.arr (as.map encode))) = .ok xs ∧ xs.mapM decode = .ok (as.map g) := by
  refine ⟨_, by rw [hf.arr, items], mapM_eq_ok.mpr ?_⟩
  rw [List.map_map, List.forall₂_map_left_iff, List.forall₂_map_right_iff, List.forall₂_same]
  exact h

theorem attributes_encode (attrs : Attrs) :
    attributes (f (.obj attrs)) = .ok (Attrs.rewrite f attrs) := by
  rw [Attrs.obj_rewrite hf]
  rfl

theorem var_encode (v : Var) : var (f (Encode.var v)) = .ok (v.map f) := by
  refine of_members hf fun ms hfind => ?_
  -- a variable of its own has no kind
  have hkind : Json.findMember? (.text "kind") [] = none := rfl
  simp [var, varFields, Encode.varFields, fieldD, members, field, hfind, hkind, findMember?_cons,
    Json.str?, Var.map]

theorem definition_encode (d : Def) : definition (f (Encode.definition d)) = .ok (d.map f) := by
  refine of_members hf fun ms hfind => ?_
  simp [definition, fieldD, members, field, hfind, findMember?_cons, var_encode hf, expr_encode hf,
    attributes_encode hf, Def.map]

theorem jump_encode (j : Jmp) : jump (f (Encode.jump j)) = .ok (j.map f) := by
  have hkind : f (.str j.kind.text) = .str j.kind.text := hf.simple rfl
  refine of_members hf fun ms hfind => ?_
  simp [jump, fieldD, members, field, Json.get?, hfind, findMember?_cons, hkind, expr_encode hf,
    word_text j.kind.ofText?_text, attributes_encode hf, Jmp.map]

theorem block_encode (b : Blk) : block (f (Encode.block b)) = .ok (b.map f) := by
  obtain ⟨ds, hds, hdefs⟩ := items_encode hf fun d (_ : d ∈ b.defs) => definition_encode hf d
  obtain ⟨js, hjs, hjmps⟩ := items_encode hf fun j (_ : j ∈ b.jmps) => jump_encode hf j
  refine of_members hf fun ms hfind => ?_
  simp [block, fieldD, members, field, hfind, findMember?_cons, hds, hdefs, hjs, hjmps,
    attributes_encode hf, Blk.map]

theorem argument_encode (a : Arg) : argument (f (Encode.argument a)) = .ok (a.map f) := by
  refine of_members hf fun ms hfind => ?_
  simp [argument, fieldD, members, field, hfind, findMember?_cons, var_encode hf, Arg.map]

theorem subroutine_encode (s : Sub) : subroutine (f (Encode.subroutine s)) = .ok (s.map f) := by
  obtain ⟨bs, hbs, hblks⟩ := items_encode hf fun b (_ : b ∈ s.blks) => block_encode hf b
  obtain ⟨as, has, hargs⟩ := items_encode hf fun a (_ : a ∈ s.args) => argument_encode hf a
  refine of_members hf fun ms hfind => ?_
  simp [subroutine, fieldD, members, field, hfind, findMember?_cons, hbs, hblks, has, hargs,
    attributes_encode hf, Sub.map]

end Rewrite

end Decode

/-! ## §4 Programs -/

/-- What is special about programs that come from documents: the architecture is a known one, and
symbols have numbers for addresses and sizes. -/
structure Program.Documented (p : Program) : Prop where
  arch : ∃ name, Arch.ofName name = .ok p.arch
  symbols : ∀ s ∈ p.symbols, ∃ addr size, s.addr = .int addr ∧ s.size = .int size

theorem Arch.ofName_name {a : Arch} {name : String} (h : Arch.ofName name = .ok a) :
    Arch.ofName a.name = .ok a := by
  have hknown : ∀ p ∈ known, Arch.ofName p.2.name = .ok p.2 := by
    decide +kernel
  have hmem : ∀ ps : List (String × Arch), ps.lookup (Text.lower name) = some a →
      ∃ p ∈ ps, p.2 = a := by
    intro ps hps
    induction ps with
    | nil => cases hps
    | cons p ps ih =>
      rw [List.lookup_cons] at hps
      split at hps
      · exact ⟨p, List.mem_cons_self .., Option.some.inj hps⟩
      · obtain ⟨q, hq, rfl⟩ := ih hps
        exact ⟨q, List.mem_cons_of_mem _ hq, rfl⟩
  rw [ofName] at h
  split at h
  · next b hb =>
    obtain rfl := Except.ok.inj h
    obtain ⟨p, hp, rfl⟩ := hmem known hb
    exact hknown p hp
  · cases h

namespace Decode

open Json (findMember?_cons)

theorem documented_of_program {j : Json} {p : Program} (h : program j = .ok p) :
    p.Documented := by
  simp only [program, bind_eq_ok, pure_eq_ok] at h
  obtain ⟨_, -, _, -, subs, -, _, -, _, -, symbols, hsymbols, _, -, a, ha, rfl⟩ := h
  refine ⟨?_, fun s hs => ?_⟩
  · unfold arch at ha
    split at ha
    · exact ⟨_, ha⟩
    · cases ha
  · obtain ⟨j, -, hj⟩ := (mem_of_mapM_eq_ok hsymbols).2 s hs
    simp only [symbol, bind_eq_ok, pure_eq_ok] at hj
    obtain ⟨_, -, _, -, addr, -, _, -, size, -, rfl⟩ := hj
    exact ⟨addr, size, rfl, rfl⟩

section Rewrite

variable {f : Json → Json} (hf : Json.Rewrites f)
include hf

theorem symbol_encode {s : DataSymbol} {addr size : Int} (haddr : s.addr = .int addr)
    (hsize : s.size = .int size) : symbol (f (Encode.symbol s)) = .ok (s.map f) := by
  have hint : ∀ n, f (.int n) = .int n := fun n => hf.simple rfl
  refine of_members hf fun ms hfind => ?_
  simp [symbol, field, hfind, findMember?_cons, haddr, hsize, hint, integer, DataSymbol.map]

/-- **Programs** are read from their documents. -/
theorem program_encode {p : Program} (h : p.Documented) :
    program (f (Encode.program p)) = .ok (p.map f) := by
  obtain ⟨⟨name, harch⟩, hsymbols⟩ := h
  have hsymbol : ∀ s ∈ p.symbols, symbol (f (Encode.symbol s)) = .ok (s.map f) := by
    intro s hs
    obtain ⟨addr, size, haddr, hsize⟩ := hsymbols s hs
    exact symbol_encode hf haddr hsize
  obtain ⟨xs, hxs, hsubs⟩ := items_encode hf fun s (_ : s ∈ p.subs) => subroutine_encode hf s
  obtain ⟨ys, hys, hsyms⟩ := items_encode hf hsymbol
  have hname : f (.str p.arch.name) = .str p.arch.name := hf.simple rfl
  refine of_members hf fun ms hfind => ?_
  simp [program, fieldD, members, field, hfind, findMember?_cons, hxs, hsubs, hys, hsyms, hname,
    arch, Arch.ofName_name harch, Program.map]

end Rewrite

/-! ## §5 The round trip -/

/-- A document that leaves defaults out, spells an architecture and numbers in other ways, and has
pairs for attributes. -/
def sketch : Json :=
  .obj [("arch", .str "AMD64"),
    ("symbols", .arr [.obj [("name", .str "table"), ("addr", .str " 1_6 "), ("size", .bool true)]]),
    ("subs", .arr [.obj [("name", .null), ("blks", .arr [.obj [("tid", .int 7),
      ("defs", .arr [.obj [("tid", .str "d"), ("lhs", .obj [("name", .str "RAX")]),
        ("rhs", .obj [("kind", .str "int"), ("value", .float (.ofInt 2)), ("width", .str "wide")]),
        ("attrs", .arr [.arr [.int 1, .str "one"], .str "ab", .arr [.bool true, .null]])]]),
      ("jmps", .arr [.obj [("kind", .str "ret"), ("tid", .str "r")]])]])]])]

def sketched : Program where
  arch := .x8664
  subs := [{
    name := .null
    blks := [{
      tid := .int 7
      defs := [{
        tid := .str "d"
        lhs := { name := .str "RAX" }
        rhs := .int 2 (.str "wide")
        attrs := [(.int 1, .null), (.text "a", .str "b")] }]
      jmps := [{ tid := .str "r", kind := .ret }] }] }]
  symbols := [{ name := .str "table", addr := .int 16, size := .int 1 }]

theorem program_sketch : program sketch = .ok sketched :=
  rfl

/-- **Round trip**: the document of a program that was read is read again, as the same program,
whose document is the same. -/
theorem program_encode_of_program {j : Json} {p : Program} (h : program j = .ok p) :
    ∃ q, program (Encode.program p) = .ok q ∧ q = p ∧ Encode.program q = Encode.program p := by
  have hread := program_encode Json.rewrites_id (documented_of_program h)
  rw [Program.map_id] at hread
  exact ⟨p, hread, rfl, rfl⟩

/-- The sketch, which says the same in another way than the document of its program. -/
theorem program_encode_of_program_sketch :
    program sketch = .ok sketched ∧ ∃ q, program (Encode.program sketched) = .ok q ∧ q = sketched ∧
      Encode.program q = Encode.program sketched :=
  ⟨program_sketch, program_encode_of_program program_sketch⟩

end Decode

end Antecedent
