import Antecedent.Term.Build

/-!
# Moved data symbols

A data symbol of one program and its namesake in another may have different addresses.  An address
inside the first is then carried over to the same offset inside the second; all other addresses
stay.
-/

namespace Antecedent

/-- A symbol that has moved: what it was and what it is. -/
structure Moved where
  old : DataSymbol
  new : DataSymbol
deriving Repr, Inhabited

/-- The number that a field of a symbol gives, as a quotient. -/
def DataSymbol.number (field : Json) : Except Fault (Int × Nat) :=
  match field with
  | .float .nan => .error .undefinedInteger
  | .float (.infinity _) => .error .infiniteInteger
  | field =>
    match field.label?.bind Label.ratio? with
    | some r => .ok r
    | none => .error .wrongType

def DataSymbol.sum (a b : Int × Nat) : Int × Nat :=
  (a.1 * b.2 + b.1 * a.2, a.2 * b.2)

def DataSymbol.whole (r : Int × Nat) : Int :=
  r.1.tdiv r.2

/-- The whole part of a size as warnings show it, if it is a number. -/
def DataSymbol.shownSize? (field : Json) : Option Int :=
  (DataSymbol.number field).toOption.map DataSymbol.whole

namespace Moved

def common (m : Moved) : Except Fault Json := do
  if ← m.new.size.before m.old.size then return m.new.size else return m.old.size

def warning? (m : Moved) : Option String := do
  if m.old.size.alike m.new.size then none
  else
    let old ← DataSymbol.shownSize? m.old.size
    let new ← DataSymbol.shownSize? m.new.size
    return s!"Symbol {m.old.name.inText} changed size ({old} → {new}); mapping the "
      ++ "common prefix only."

end Moved

/-- The symbols that stand at another address in the second list, in the order of the first.  The
last symbol of a name in the second list counts. -/
def movedSymbols (old new : List DataSymbol) : Except Fault (List Moved) := do
  let named ← new.mapM fun s => do return (← s.name.label, s)
  old.filterMapM fun s => do
    let name ← s.name.label
    match named.reverse.find? (·.1.same name) with
    | some (_, t) => return if t.addr.alike s.addr then none else some ⟨s, t⟩
    | none => return none

/-- A map of addresses: that of the symbols moved, the first one that holds an address deciding.
Without symbols it is the identity. -/
abbrev AddressMap := List Moved

namespace AddressMap

def term : AddressMap → Term → Except Fault Term
  | [], addr => .ok addr
  | m :: ms, addr => do
    let rest ← term ms addr
    let w ← addr.width
    let size ← m.common
    let start ← DataSymbol.number m.old.addr
    let finish := DataSymbol.sum start (← DataSymbol.number size)
    let low := Term.numeral w (DataSymbol.whole start)
    let high := Term.numeral w (DataSymbol.whole finish)
    let target := Term.numeral w (DataSymbol.whole (← DataSymbol.number m.new.addr))
    let inside ← Term.mk .and
      [← Term.mk (.order .uge) [addr, low], ← Term.mk (.order .ult) [addr, high]]
    let offset ← Term.mk (.arith .sub) [addr, low]
    let moved ← Term.mk (.arith .add) [offset, target]
    Term.mk .ite [inside, moved, rest]

end AddressMap

end Antecedent
