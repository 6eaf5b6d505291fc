import Antecedent.Term.Basic
import Antecedent.Text.Quoted

/-!
# Text of terms

A term is written on one line with single blanks.  A numeral is hexadecimal when its width is a
multiple of four and binary otherwise, padded to its width.  Names stand without quotes.
-/

namespace Antecedent

def Arith.text : Arith → String
  | .add => "bvadd" | .sub => "bvsub" | .mul => "bvmul" | .udiv => "bvudiv" | .sdiv => "bvsdiv"
  | .urem => "bvurem" | .srem => "bvsrem" | .and => "bvand" | .or => "bvor" | .xor => "bvxor"
  | .shl => "bvshl" | .lshr => "bvlshr" | .ashr => "bvashr"

def Order.text : Order → String
  | .ult => "bvult" | .ule => "bvule" | .ugt => "bvugt" | .uge => "bvuge"
  | .slt => "bvslt" | .sle => "bvsle" | .sgt => "bvsgt" | .sge => "bvsge"

def Op.text : Op → String
  | .not => "not" | .and => "and" | .or => "or" | .xor => "xor" | .implies => "=>"
  | .eq => "=" | .distinct => "distinct" | .ite => "ite"
  | .neg => "bvneg" | .complement => "bvnot"
  | .arith f => f.text
  | .order r => r.text
  | .comp => "bvcomp"
  | .concat => "concat"
  | .extract hi lo => s!"(_ extract {hi} {lo})"
  | .zeroExtend k => s!"(_ zero_extend {k})"
  | .signExtend k => s!"(_ sign_extend {k})"
  | .select => "select" | .store => "store"
  | .apply name _ _ => name.shown

/-- The digits of a number in a base, padded with zeros to a length. -/
def paddedDigits (base length n : Nat) : String :=
  let digits := Nat.toDigits base n
  String.ofList (List.replicate (length - digits.length) '0' ++ digits)

def numeralText (width value : Nat) : String :=
  if width % 4 = 0 then "#x" ++ paddedDigits 16 (width / 4) value
  else "#b" ++ paddedDigits 2 width value

mutual
def Term.text : Term → String
  | .lit b => if b then "true" else "false"
  | .num w n => numeralText w n
  | .const name _ => name.shown
  | .app op args => "(" ++ op.text ++ Term.textList args ++ ")"
def Term.textList : List Term → String
  | [] => ""
  | t :: ts => " " ++ Term.text t ++ Term.textList ts
end

end Antecedent
