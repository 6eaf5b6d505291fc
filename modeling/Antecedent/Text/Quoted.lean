import Antecedent.Text.CharClass

/-!
# Quoted text

A text in quotes, as messages show it.  Single quotes stand around it unless it holds a single
quote and no double quote.  The quote, the backslash and characters that do not print are escaped.

A character is printable unless it is a control, a format character, a surrogate, a private-use or
unassigned code point, or a separator other than the space.  The table lists the others.
-/

namespace Antecedent.Text

/-- The code points that are not shown as themselves inside quotes. -/
def unprintable : CharClass :=
  .packed "
#B^ID/#iA$)&*#$#7#cZ#I$U$&#Z*>&)39#`8#S$^%$^O0^%$T$2#?$$#.'B+^4#_R#+$%$9#*#$%'$,$%$'*$&%#($<$&#)&%$9
#*#%#%#%$$#(&%$&%$)'#$)4,&#,#&#9#*#%#($-#&#&$$1'$/)*#&#+$%$9#*#%#($,$%$&)&&%#($5,%#)%&#'%%#$#%%%%&%/
&(%&#'$$($08'0#&#:#3$,#&#')%#&$$$'$-)9#&#:#-#($,#&#')%(%#'$-#%/0#&#V#&#)&3$=#&#5%;#,#$$*%$&)#$#+(-$&
.^$&@G%#$#(#;#$#:$(#$#)$-$'B^2#G&J#G#2#0G`>#$'$$cF#'$*#$#'$L#'$D#'$*#$#'$2#^##'$^-$C%=(^@$)$h0#?%^C)
9+;+7.0#&#%.^H$-(-(1#.(^C)N'^0,B#/&/&$%M$(-O&=(.%^($^+#@$.(-(1$BS^7%R#_%*^&%2%^&)N$.*N'f8$)$I$)$+#$#
$#$#B$X#2#1$)#6$&#,3;*R3%$>#0%D1D1_=&hG;.7^^P$C#c*'P#$'$$[)%0;+*#*#*#*#*#*#*#*#_/D=#^C.`N</'^)#^@$^Q
'N#^H#^>.R#n`W%Z+c)6`0*`C'%#$#(:^%%-([*^0*/(_%-A%^8#.&D#Z+1$-$^Q:?,)$)$)+*#*#^&&_/$-(cm#.:&Tay2c;$^T
H*.('=#(#$#%#%#_.2dQ$Y)$BM(V#6#'&(#_8&`6%)$)$)$&%*#*/%$/#=#6#%#2$1D_,'&&P%^B#0%$QQ_2@%T1?&G+A'N'A#H&
1L_O$-(G&G&K*W-/#2#*#%#.#2#*#%^,b=+9,+:)#M#,^.)$$#O#%%$$:#^2*,R6#%'D%>'$^)[&7$U#%'+#&#@$&&-),)^*BJ&/
+Y%@$>'=)'.*^9^3YV/V)Q*-b+B#M#&$%^7K*M8=H?6:+^8&G+^(#(/<)-(X#5*J+^J#7-5#O^**#$#'#2#.(^%'-('#+$%$9#*#
%#(#-$%$&$$($'*$*%(_;^F#(@^2*-_VY$ID^/--(05^$(-X>$2&:`0^&^M^=.+$$$+#%#A#%$/+-^/+$Q$.=^2*^=/^3aE,#P#1
,@%C$9#1^2*#%#O%$#%#,*-()#%#H#%#))-b;<`.$1U/m.^O^Y#(-`<^m0^M/oP_h$g0b^<f[)B#-&^;#-(A$),^0,-#*#8'6i&^
E^N^5&^#)4^)(-%0`nH*rLL,bcM'#*#%#b)O&3'*cY^g>^U'0%,)-$'_s@Q$:+_%^%a5,J$^4*^Z7^0_J7.^A+<_7^?#^1#%$$$%
$'#/#$#*#^+#'$+#*#?#'#(#$%*#bZ$b*$i51(#2p7B`X*#4$*#%#(`LP%1$-&%bEB3^$'$rU*#'#%#2#`=$3K^6&-&%jN^.^5^'
`9'#>#%#$$$#-#'#$#$($&$#$#$#&#%#$$$#$#$#$#$#%#$$'#*#'#'#$#-#4'&#(#4V%aLO&^N.2$2#2#H,`&Z@/O&,)%0)_Jn2
'3%0%_%.^C)/&$1/&[*-(K*A$%^7bZ.1$(%(%*+@%.'),-(+**+_D#ZG-o&uz>B_iT)`V$`h(0ah)^u;f@w:_wHjyv*a/`uqB"

def isPrintable (c : Char) : Bool :=
  !unprintable.contains c

/-- The lower-case hexadecimal digits of `n`, padded with zeros to `width`. -/
def hexPadded (width n : Nat) : String :=
  let digits := Nat.toDigits 16 n
  String.ofList (List.replicate (width - digits.length) '0' ++ digits)

/-- Hexadecimal with the usual mark, for numbers of either sign. -/
def hex (n : Int) : String :=
  (if n < 0 then "-0x" else "0x") ++ String.ofList (Nat.toDigits 16 n.natAbs)

def quotedChar (q c : Char) : String :=
  if c == q || c == '\\' then String.ofList ['\\', c]
  else if c == '\t' then "\\t"
  else if c == '\n' then "\\n"
  else if c == '\r' then "\\r"
  else if ' ' ≤ c && c.toNat < 127 then String.singleton c
  else if c.toNat < 127 || !isPrintable c then
    if c.toNat < 256 then "\\x" ++ hexPadded 2 c.toNat
    else if c.toNat < 65536 then "\\u" ++ hexPadded 4 c.toNat
    else "\\U" ++ hexPadded 8 c.toNat
  else String.singleton c

def quoted (s : String) : String :=
  let cs := s.toList
  let q := if cs.contains '\'' && !cs.contains '"' then '"' else '\''
  String.singleton q ++ String.join (cs.map (quotedChar q)) ++ String.singleton q

def quotedList (ss : List String) : String :=
  "[" ++ ", ".intercalate (ss.map quoted) ++ "]"

end Antecedent.Text
