/-!
# Classes of characters

A class is a list of ranges of code points.  The large ones are written as packed texts: a text of
numbers, in which the last digit of a number is one of the signs from `#` to `[` and the digits
before it are signs from `]` on.

* Each script that has decimal digits has ten of them in a row, from zero to nine.
* Blank characters are the white space of every script together with the four information
  separators.
* Word characters are the letters and numbers of every script, and the underscore.
* Identifiers start with a letter of any script or an underscore, and go on with letters, digits,
  marks and the characters that join them.
-/

namespace Antecedent.Text

/-! ## §1 Packed classes -/

/-- The numbers of a packed text, which may be written on several lines. -/
def packedNumbers (s : String) : List Nat :=
  let (numbers, _) := s.foldl
    (fun (numbers, n) c =>
      if c == '\n' then (numbers, n)
      else if c ≤ '[' then (numbers.push (57 * n + (c.toNat - 35)), 0)
      else (numbers, 30 * n + (c.toNat - 93)))
    ((#[], 0) : Array Nat × Nat)
  numbers.toList

/-- A set of characters, as ranges of code points with both ends included. -/
structure CharClass where
  ranges : Array (Nat × Nat)

namespace CharClass

def contains (k : CharClass) (c : Char) : Bool :=
  k.ranges.any fun (lo, hi) => lo ≤ c.toNat && c.toNat ≤ hi

/-- The ranges from a code point on, by the number of code points to pass over and the number of
those that follow the first one. -/
def rangesFrom : Nat → List Nat → List (Nat × Nat)
  | next, skip :: more :: rest =>
    let lo := next + skip
    (lo, lo + more) :: rangesFrom (lo + more + 1) rest
  | _, _ => []

def packed (s : String) : CharClass where
  ranges := (rangesFrom 0 (packedNumbers s)).toArray

end CharClass

/-! ## §2 Digits -/

/-- The code points of the zeros of all scripts. -/
def zeroDigits : Array Nat := #[
    48, 1632, 1776, 1984, 2406, 2534, 2662, 2790, 2918, 3046, 3174, 3302, 3430, 3558, 3664, 3792,
    3872, 4160, 4240, 6112, 6160, 6470, 6608, 6784, 6800, 6992, 7088, 7232, 7248, 42528, 43216,
    43264, 43472, 43504, 43600, 44016, 65296, 66720, 68912, 69734, 69872, 69942, 70096, 70384,
    70736, 70864, 71248, 71360, 71472, 71904, 72016, 72784, 73040, 73120, 92768, 92864, 93008,
    120782, 120792, 120802, 120812, 120822, 123200, 123632, 125264, 130032 ]

def digitValue? (c : Char) : Option Nat :=
  if '0' ≤ c ∧ c ≤ '9' then some (c.toNat - 48)
  else if c.toNat < 128 then none
  else (zeroDigits.find? fun z => z ≤ c.toNat ∧ c.toNat < z + 10).map (c.toNat - ·)

/-! ## §3 Blanks -/

def isBlank (c : Char) : Bool :=
  let n := c.toNat
  (9 ≤ n && n ≤ 13) || (28 ≤ n && n ≤ 32) || n == 133 || n == 160 || n == 5760
    || (8192 ≤ n && n ≤ 8202) || n == 8232 || n == 8233 || n == 8239 || n == 8287 || n == 12288

def trimRightList (cs : List Char) : List Char :=
  (cs.reverse.dropWhile isBlank).reverse

def trimList (cs : List Char) : List Char :=
  trimRightList (cs.dropWhile isBlank)

def trim (s : String) : String :=
  String.ofList (trimList s.toList)

def trimRight (s : String) : String :=
  String.ofList (trimRightList s.toList)

/-- The blanks that may stand around a number: white space without the information separators. -/
def isSpace (c : Char) : Bool :=
  isBlank c && !(28 ≤ c.toNat && c.toNat ≤ 31)

def trimSpace (cs : List Char) : List Char :=
  ((cs.dropWhile isSpace).reverse.dropWhile isSpace).reverse

/-! ## §4 Words -/

def alphanumeric : CharClass :=
  .packed "
S,*<)<R#*$$#&$$%$9$A$e$'.1'*#$#_2'$$%&$#)#$%$#$6$^<$_;+_V$H%#)K^1='&PM8,'$$^L$#2$*1%#3#$@@^B.#1M,$'#
(8'#,#&#:;*-(:$(4L^$X&#5#*,',$2'*%$%8$)$#&&&#3#0$$%'.%(%#+('$%8$)$$$$$$B&$#*,%%3+$%$8$)$$$'&#5#2$',,
#.*%$%8$)$$$'&#A$$%',$).#$(&%$&&$$#$$&$&%&.9#8/5*$%$9$2&#=%%#%$',+)$#'*$%$9$,$'&#B$$$',$$4+$%$K%#3#(
%$,'5$((4&:$+$#%)B,4R$$/),,J$$#$'$:$#$,$$,#%'$#,,%&C#B6/*$F>'_$M7-)('&&#&$*%'//#$,)H$#(#%M$bR$&%)$#$
&%K$&%C$&%)$#$&%1$[$&%^,16&23^?%(&gT%3$<(^4&-*405141/$%2VF#'#&,),9,)^B*'%D$#(^/-AJJ%'.N'<)-H9,WN,),0
#^GQ4*&,L@0Z=F?,&S%+*M%%L&$($$&#(`7^*aT%(%H%(%*$#$#$#$A%W$)$#&%$)&&%('/(%$)_$$%((-)/^O#'#%,$#&')#$#$
#$&$-%&(''#$^#iM^%^88h&@pTa#)&&$,#%H$#(#%Z*#39,)$)$)$)$)$)$)$)^:#e0%<+*'%''^?)%$^C$&(M$^G&&-BS2C,A*$
1C,J1bF`vG^*iyK^-P%aK&>7Q3A%^9J+%^P%^)($$#$';2$%$&$90(-V1T?,;(&#$$$H-9<?*Q?-)'$;$K:%$*',)9&#&T$#&$%'
%#$#;%%-*%/(%(%(,)$)$M$0)_#0,)cl[/9'Say3c:%^SI)/'(#$,$/$'$#$$$$$^UDc75^)%XK._%'$_76,*<)<.^B&(%(%(%%F
.$<$5$$$1%0E_+/O/[4$a3?&S3='F,@(H-@%F'*$'M_N%,)F'F'J+V/-$1$)$$$-$1$)$$^-b<,8-*;($L$+^/(%#$N$$&#%9%A%
H++S5$$(C'<^0Z'6%Q2&$%$?-+:A$BC*$>)'3X-8%=(<:)^:^2ZU0U*L/,b,A$L)$^8J+8.&>4Q>79/W=@$$%#0OC;*,,F2,'#%#
+E&#/R1&.-$#'6.4$;^>)$#$&$1$,*Q4,.*%$%8$)$$$'&#5#/'_OW5&(,(%AR7$$#+,_WQL&GR7#.,IM0#*,Y=8.')`1N_%^</*
%#%*$$$:2#$#1,^0*%I3#$#?#-J*#8#.P6#5^2aF+$G4#2?(@^Z)$$$H8#,,)($$$B1#*,b<5`5#27Nm,^P^X4`;^m1^J2oO_h%g
/b^=fZ*A$,)^8$,)@5R3&/,$)$7(5i'^@^S^4(#^,/^*$$#?`nG+rKM+bcN&$)$$$b(P%4&+cX^g?^T(/&+*,`g%6^V;_8^>$^0$
$%#%$%&$.$#$)$^*$&%*$)$>$&$'$#&)$bY%;$;$A$;$A$;$A$;$A$;$*%T^^<Ae<O-)%,'#bG@5N',s#)$&$$$1$`<%+S^-*#',
jU^$$%$&^6O$1`:&$=$$$#%#$,$&$#$#)#'#$#$#$%$$$#%#$#$#$#$#$$$#%&$)$&$&$#$,$3(%$'$3g-/^oV,o'uz=C_iS*`U%
`h'1ah(^u<f?w;_wG"

def isWordChar (c : Char) : Bool :=
  if c.toNat < 128 then c.isAlphanum || c == '_' else alphanumeric.contains c

/-! ## §5 Identifiers -/

/-- Word characters that no identifier starts with: digits and numbers. -/
def numberChar : CharClass :=
  .packed "
S,_)$(#%%i2#j#,_7,`>,d0,_','(^V,_',_',%(^X/_$,+)^Q,^R)*5^W,^-#?,^C#?,^06aK,^0,iF6pK,),9,b2,_1-_V,),`
.,^@,_7,),o7#&(),`>2L#iM^%^88h&@u4#b7#l.&_;,A*$1C,J1ne-,f((_K,I,`>,9,^@,d*,i^&(d*$_%#$#$#$#$#$#$#$#_
B,_5$c4O^+&4$b[=G&cI,mA*<)J+^5'9(_Q$%2%P^*+W$A%^5'^R*;*L)bP(S,b,A_O,M&^Z)_7@_1,^&,_A,*6a:,c#,_',cC,^
P,^P.d85^G,j4?`[,^0,f87haP,^@,_7,$)k#9l]:6^V;p=T^hB,d:,w&+_1,jU^$$%$&^6O$1mU/^oV,"

/-- Characters that start identifiers without being word characters. -/
def letterLike : CharClass where
  ranges := #[
    (6277, 6278), (8472, 8472), (8494, 8494) ]

/-- Characters that stand in identifiers but start none: digits, marks and joining characters. -/
def identifierMore : CharClass :=
  .packed "
S,_.#g1^Y:#a:'aHO$#$$$$$#^2-SA)#^O)%(%$$&%,:#A=^E-2,D+,#;&$+$%$'N%^&*M:$CY%$4$)-$%,4%[#$)%$%%,#-$%,1
#%%[#$''$%%&#7.&#.%[#$*$%$%7$%,-($%[#$)%$%%*%-$%,5#^%'&%$&,#1,3'Z#$)$%$&*$.$%,4%[#$)$%$&*$.$%,3&Z$$)
$%$&,#-$%,4%^0#'($#$*),%$^'#$*/*$,^A#$,.(%,^($),.#$#$#'$T6$$(-$F,#^N6$,/&'%$%%)&&0.$1i6%,+m3&?%@$A$^
*B,#%,D%$-_@#_'.'.-,_1-^&'^#,$?%-),90$2T'R3.,4+/%A/%,O0S6+,),_'%$7'#)#%%`>^)g($6#_,/'#&.^tT%_>#^JBfL
(^S$nnQ,^/#',C$^:$aO#&#'#:''#^=$U4-,)40-?*</O&R02,.#-,R0/#+$%,D%U#$%%$($$#L'($a+*$$%,hv<#iX232&$;%`8
,H#^H$gF#`Z#_F'b+,t[%$$(&K%'#_V$g&&+,c>$_J-T&_+%X1B-%$-&P-*#P,)%G0$,($O#/%S0+&$.^<.)#_Q.(,)&Z$$)%$%%
,#-$%)&'`84,,'#^;6/,`M)%+>$^<32,^;/+,^=1',a11_V,^0($$%&$#$$/,_()%)&#?,K)$&+#,-Q2d)*$*3,[8$0_+(&#$$$)
$#+,S'$$$'+,bO&heJ,^@,I'^%)<,nO#$Y*&^;#.$hk6$_sBP%9f@'&(+*%)A&_E%uTTe[Y'T+#1#9'$1tT)$3%)$$$'aD),,c1#
^'0w/)^W)(,_t>,lgpFa."

def startsIdentifier (c : Char) : Bool :=
  (isWordChar c && !numberChar.contains c) || letterLike.contains c

def isIdentifier (s : String) : Bool :=
  match s.toList with
  | [] => false
  | c :: cs => startsIdentifier c && cs.all fun d => startsIdentifier d || identifierMore.contains d

end Antecedent.Text
