import Antecedent.Text.CharClass

/-!
# Letter case

The lower-case and upper-case forms of letters of every script, as rows of code points that move by
the same distance, and the lower-case form of a text.  A capital sigma at the end of a word has a
lower-case form of its own, and the capital I with a dot above becomes two characters.
-/

namespace Antecedent.Text

/-- Code points from the first to the last, `step` apart, that change their case by `shift`. -/
structure CaseRow where
  first : Nat
  last : Nat
  step : Nat
  shift : Int

def CaseRow.holds (r : CaseRow) (n : Nat) : Bool :=
  r.first ≤ n && n ≤ r.last && (n - r.first) % r.step == 0

/-- Whether a row has a code point between two others, which are included. -/
def CaseRow.meets (r : CaseRow) (low high : Nat) : Bool :=
  let start := if low ≤ r.first then r.first else low + (r.last - low) % r.step
  start ≤ high && start ≤ r.last

def shifted (rows : Array CaseRow) (n : Nat) : Nat :=
  match rows.find? (·.holds n) with
  | some r => (n + r.shift).toNat
  | none => n

/-- The rows from a code point on, by the distance to the first member, the number of members after
it, their distance and twice the shift, less one if it goes down. -/
def rowsFrom : Nat → List Nat → List CaseRow
  | start, skip :: more :: step :: shift :: rest =>
    let first := start + skip
    let row : CaseRow :=
      { first, last := first + more * step, step
        shift := if shift % 2 = 0 then shift / 2 else -((shift + 1) / 2 : Nat) }
    row :: rowsFrom first rest
  | _, _ => []

def packedRows (s : String) : Array CaseRow :=
  (rowsFrom 0 (packedNumbers s)).toArray

def lowerRows : Array CaseRow :=
  packedRows "
^+<$^*_09$^*;)$^*K:%%S#$cZ%%%%**%%49%%Q#$a0$%%%+#$d8$$%%'#$d0$#$%%$$d.%#$%&#$_O$#$d($#$d*$#$%%#$d.$#
$d2%#$d:$#$d6$#$%'#$d:$#$d>%#$d@$%%%)#$dH$#$%%#$dH&#$%%#$dH$#$%%$$dF%$%%'#$dJ$#$%'#$%+#$'$#$%%#$'$#$
%%#$'$+%%6+%%6#$'$$%%'#$`9$#$^Y$6%%K#$aB%+%%;#$ioO$#$%%#$bK$#$ioI&#$%%#$cR$#$_;$#$_?$'%%b0$%%)#$%,#$
a'*#$^6%%$^4'#$_1%$$_/&3$^*5+$^*O#$3,.%%?#$_(&#$%%#$0$#$%&%$aB&2$_Q3B$^*^:3%%M=%%Y#$A$)%%2R%%^KH$^J^
r7H$ekUJ#$ekU)#$ekUiJ^9$^ljH^:($3^eMM$`lAP%$`lAbI^4%%_O#$ex-%R%%^R*$23($23*$23*$23($24&%22*$2C*$23*$
23*$23$$2%$$_D%#$4/&$`#'#$4/$$2%$$`?1$$2%$$`W%#$0/$$a>%$$a:%#$4b0#$etM'#$fu*$#$fpU*#$[Q2$CF#$%k8<$W^
_MR$^J^J#$%%#$imX$#$ajQ$#$im8&%%%)#$io0$#$in+$#$io6$#$io4%#$%&#$%,$$ip=%T%%^U$%%*#$%oaQ9%%^*0%%_S)%%
3A%%^1$%%'#$^hfK$'%%0#$%%#$^pj?&$%%),%%7#$^pk>$#$^pkT$#$^pkL$#$^pk8$#$^pk>%#$^piL$#$^pjC$#$^piR$#$^_
C$*%%3#$^I$#$^pk<$#$^hhA$$%%,#$%)$%%B#$%j^@<$^*rUJ$^:`(F$^:`8-$^8/1$^83)$^8+$$^8^^(U$_1^u=B$^*iuCB$^
*oh4D$^."

def CaseRow.back (r : CaseRow) : CaseRow :=
  { r with
    first := (r.first + r.shift).toNat
    last := (r.last + r.shift).toNat
    shift := -r.shift }

/-- Where the way back does not give the upper-case form, a row stands before it. -/
def upperRows : Array CaseRow :=
  packedRows "
`-#$w'M#$aV^<#$e*;#$j$Y#$g@^0#$$&#$$&#$$H#$kP%#$$bY#$_Y^5#$5C#$85#$^'1#$_,$#$^['#$^G$#$^U=#$`#$#$_
P'#$`7d&#$_T`j-#$df;$#$df9$#$df'$$$df#%#$df%$#$deP$#$dcT$#$^hd:f0#$f_.$#$f^Q$#$f^M$#$f^K$#$f_D$#$_
&`-#$ee@%#$eeD%#$eeH%#$eeLM*$a.+*$a>+*$`G+*$`W+*$^Y+*$_0-#$3$#$eiJ$#$ej)%#$eiP$#$eiR(#$ej#%#$eiP'#
$3$#$ej%$#$ejC%#$ej+$#$ej-(#$ej7)#$ej?$#$ejA&#$ejG$#$ejI.#$ejG$#$ejI$#$ejS%#$ejO$#$ejQ.#$3$#$ek($#
$el%%#$ek.$#$ek0(#$ek:^_tH#$_l_*$#$_l_,$#$_l_.$#$_l_0$#$_l_2$#$_l^S$#$_l^U0#$_jnY$#$_jn[$#$_jo$$#$
_jnK$#$_jo("
  ++ lowerRows.map CaseRow.back

/-- The lower-case form of a code point; of a form of several characters, the first. -/
def lowerCode (n : Nat) : Nat :=
  if n < 128 then if 65 ≤ n && n ≤ 90 then n + 32 else n
  else shifted lowerRows n

/-- The upper-case form of a code point; of a form of several characters, the first. -/
def upperCode (n : Nat) : Nat :=
  if n < 128 then if 97 ≤ n && n ≤ 122 then n - 32 else n
  else shifted upperRows n

def hasCase (n : Nat) : Bool :=
  lowerCode n != n || upperCode n != n

/-- Whether some code point between two others has another case. -/
def anyHasCase (low high : Nat) : Bool :=
  lowerRows.any (·.meets low high) || upperRows.any (·.meets low high)

def loweredFrom (n : Nat) : List Nat :=
  let moved := lowerRows.toList.filterMap fun r =>
    let m := ((n : Int) - r.shift).toNat
    if r.shift ≤ (n : Int) && r.holds m then some m else none
  if lowerCode n == n then n :: moved else moved

/-- Rows of lower-case letters that stand for each other although their capitals differ. -/
def sharedLetters : List (List Nat) := [
    [105, 305], [115, 383], [181, 956], [837, 953, 8126], [912, 8147], [944, 8163], [946, 976],
    [949, 1013], [952, 977], [954, 1008], [960, 982], [961, 1009], [962, 963], [966, 981],
    [1074, 7296], [1076, 7297], [1086, 7298], [1089, 7299], [1090, 7300, 7301], [1098, 7302],
    [1123, 7303], [7304, 42571], [7777, 7835], [64261, 64262] ]

/-- The other letters that stand for a lower-case letter. -/
def sharedWith (n : Nat) : List Nat :=
  ((sharedLetters.find? (·.contains n)).getD []).filter (· != n)

/-! ## §2 Texts -/

/-- Characters that stand in words without being letters of them: marks, signs and modifiers. -/
def caseIgnorable : CharClass :=
  .packed "
J#)#.#F#$#^1#'#$#'#%$eR`7'$'#,$$#a:)`G#(#TO$#$$$$$#O#.(--$#F#-73#^O*$,$&D#$#A=^E-^$-'#%#;:N%O#*$)*L^
#Z#$#'*'#&)-$0#2#^$#'&+#7$=#%$^##'$'$%%&#A$&#.$^##''$$'#7$9($#^$#%#$&+#*$.$A#^'#/#U#&#Z#$%(%$&*$.$@#
^$#%#)#($7$?$^#$'&+#7$@#^2#*%$#^D#%).+^L#%+,#$(^4$>#$#$#Z0$'$$(-$F,#^P&$($$%$<$'%3&0#%$)#2#^H#gI%mE%
@$A$A$^*$$)+#%-&#(#P'V#^+$E#_'%'$,#)%`S$%#^$#$)$#$#%*),%#J#+AT&S#$'$#(#K+/$C&%$$%[#$$&#$%^$*%$^*(^<%
$/$)'#)#&$U^(0#E^NdQ#$%.%0%0%0$/'+$-#%#%'T'$,$#0#3/VC^rS$^[%_.#2#^JBR#e0#G&&'(#^G(^G%moW#rX(aM#^L&$,
$#?&^:$1D^8#:%^Q%&$+#&#'#<$(#_H$=40#I*<-Q%S#%&%$4#8$^,(%$%$/#+#F#.#V#$%%$($$#>#1$($$#^N',%_*#%#'#hvH
#_D3g&2&#/2E#%#_Z#*#)#.#F#$#R#P$^-#8%f##`Z#_F'o&($L$+g/%$$(&K%'#_V$g&&cP$_J-T&_,#Y1L#%$-%T&%$%#'#-#U
%G'$*^(#/$W+-&%#^I%%#$$)#_Q#&*8$^#$&#H)&'`;*%%$#:#^>($#'$$$a-&)$$$>$^?*%#$$^T#$#%($#^O%%&$'aB+$$a?$$
#'#_A&%$'#C,K(%&+#,(%%Q/$$d*)$($#^<8%)$$$$_+(&#$$$)$#^2$&#$#c($`b7+ebM'^%),&o,#^)3^*$$$fnG&$)$$^wI$$
&_s=P%9fB%,2%)A&_E%^aLY'T+#1#9'$1tT)$3%)$$$'aD0c=#^'&w9)^W*^n['lhqZ#A^I_1a."

def casedLetter : CharClass :=
  .packed "
^+<)<R#-#'#(9$A$`:$&'`G$=`8&%$&%$#)#$%$#$6$^<$_;+_V$H,K^pQH$#(#%M%%hP^?%(^e/+*M%%^*N^)/$D^OaT%(%H%(%
*$#$#$#$A%W$)$#&%$)&&%('/(%$)aD#'#%,$#&')#$#$#$&$('#%&(''#4B&$k6V^^R_,%^P)&&$/H$#(#o`NP5>_7^7$9&&$^$
($$#$'>$&#k:M(+*^9hvX)/'o*<)<qT^9^JF'F_%-$1$)$$$-$1$)$$^]8U0U^s<^)it<^)lbT^>$^0$$%#%$%&$.$#$)$^*$&%*
$)$>$&$'$#&)$bY%;$;$A$;$A$;$A$;$A$;$*^_7,$6^k8^-^bD<)<)<"

/-- Whether the first letter of a row of characters, if there is one before anything else, has a
case. -/
def startsCased (cs : List Char) : Bool :=
  match cs.dropWhile caseIgnorable.contains with
  | c :: _ => casedLetter.contains c
  | [] => false

/-- The lower-case form of characters, given those before them, the nearest first. -/
def lowerFrom : List Char → List Char → List Char
  | _, [] => []
  | before, c :: cs =>
    let low :=
      if c == 'İ' then ['i', '\u0307']
      else if c == 'Σ' then if startsCased before && !startsCased cs then ['ς'] else ['σ']
      else [Char.ofNat (lowerCode c.toNat)]
    low ++ lowerFrom (c :: before) cs

def lower (s : String) : String :=
  String.ofList (lowerFrom [] s.toList)

end Antecedent.Text
