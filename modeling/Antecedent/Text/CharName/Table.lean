/-!
# Names of characters

The characters that have a name here are the letters of the scripts with capital and small letters,
control characters, punctuation, and symbols in common use.
-/

namespace Antecedent.Text.CharName

/-- Letters of a script: where the capital and the small ones start, how far they are apart, and
their names with commas or line breaks between them. -/
structure Alphabet where
  script : String
  capitals : Nat
  smalls : Nat
  step : Nat
  names : String

/-- Characters that follow each other: the first one, the common start of their names, and the ends
of the names with commas or line breaks between them. -/
structure Row where
  first : Nat
  stem : String
  ends : String

def alphabets : List Alphabet :=
  [⟨"LATIN", 0x41, 0x61, 1, "A,B,C,D,E,F,G,H,I,J,K,L,M,N,O,P,Q,R,S,T,U,V,W,X,Y,Z"⟩,
    ⟨"LATIN", 0xC0, 0xE0, 1, "A WITH GRAVE,A WITH ACUTE,A WITH CIRCUMFLEX,A WITH TILDE
A WITH DIAERESIS,A WITH RING ABOVE,AE,C WITH CEDILLA,E WITH GRAVE,E WITH ACUTE,E WITH CIRCUMFLEX
E WITH DIAERESIS,I WITH GRAVE,I WITH ACUTE,I WITH CIRCUMFLEX,I WITH DIAERESIS,ETH,N WITH TILDE
O WITH GRAVE,O WITH ACUTE,O WITH CIRCUMFLEX,O WITH TILDE,O WITH DIAERESIS"⟩,
    ⟨"LATIN", 0xD8, 0xF8, 1, "O WITH STROKE,U WITH GRAVE,U WITH ACUTE,U WITH CIRCUMFLEX
U WITH DIAERESIS,Y WITH ACUTE,THORN"⟩,
    ⟨"LATIN", 0x100, 0x101, 2, "A WITH MACRON,A WITH BREVE,A WITH OGONEK,C WITH ACUTE
C WITH CIRCUMFLEX,C WITH DOT ABOVE,C WITH CARON,D WITH CARON,D WITH STROKE,E WITH MACRON
E WITH BREVE,E WITH DOT ABOVE,E WITH OGONEK,E WITH CARON,G WITH CIRCUMFLEX,G WITH BREVE
G WITH DOT ABOVE,G WITH CEDILLA,H WITH CIRCUMFLEX,H WITH STROKE,I WITH TILDE,I WITH MACRON
I WITH BREVE,I WITH OGONEK"⟩,
    ⟨"LATIN", 0x134, 0x135, 2, "J WITH CIRCUMFLEX,K WITH CEDILLA"⟩,
    ⟨"LATIN", 0x139, 0x13A, 2, "L WITH ACUTE,L WITH CEDILLA,L WITH CARON,L WITH MIDDLE DOT
L WITH STROKE,N WITH ACUTE,N WITH CEDILLA,N WITH CARON"⟩,
    ⟨"LATIN", 0x14A, 0x14B, 2, "ENG,O WITH MACRON,O WITH BREVE,O WITH DOUBLE ACUTE"⟩,
    ⟨"LATIN", 0x154, 0x155, 2, "R WITH ACUTE,R WITH CEDILLA,R WITH CARON,S WITH ACUTE
S WITH CIRCUMFLEX,S WITH CEDILLA,S WITH CARON,T WITH CEDILLA,T WITH CARON,T WITH STROKE,U WITH TILDE
U WITH MACRON,U WITH BREVE,U WITH RING ABOVE,U WITH DOUBLE ACUTE,U WITH OGONEK,W WITH CIRCUMFLEX
Y WITH CIRCUMFLEX"⟩,
    ⟨"LATIN", 0x179, 0x17A, 2, "Z WITH ACUTE,Z WITH DOT ABOVE,Z WITH CARON"⟩,
    ⟨"GREEK", 0x391, 0x3B1, 1, "ALPHA,BETA,GAMMA,DELTA,EPSILON,ZETA,ETA,THETA,IOTA,KAPPA,LAMDA,MU,NU
XI,OMICRON,PI,RHO"⟩,
    ⟨"GREEK", 0x3A3, 0x3C3, 1, "SIGMA,TAU,UPSILON,PHI,CHI,PSI,OMEGA"⟩,
    ⟨"CYRILLIC", 0x410, 0x430, 1, "A,BE,VE,GHE,DE,IE,ZHE,ZE,I,SHORT I,KA,EL,EM,EN,O,PE,ER,ES,TE,U,EF
HA,TSE,CHE,SHA,SHCHA,HARD SIGN,YERU,SOFT SIGN,E,YU,YA"⟩,
    ⟨"CYRILLIC", 0x400, 0x450, 1, "IE WITH GRAVE,IO,DJE,GJE,UKRAINIAN IE,DZE
BYELORUSSIAN-UKRAINIAN I,YI,JE,LJE,NJE,TSHE,KJE,I WITH GRAVE,SHORT U,DZHE"⟩,
    ⟨"CYRILLIC", 0x490, 0x491, 2, "GHE WITH UPTURN"⟩,
    ⟨"ARMENIAN", 0x531, 0x561, 1, "AYB,BEN,GIM,DA,ECH,ZA,EH,ET,TO,ZHE,INI,LIWN,XEH,CA,KEN,HO,JA,GHAD
CHEH,MEN,YI,NOW,SHA,VO,CHA,PEH,JHEH,RA,SEH,VEW,TIWN,REH,CO,YIWN,PIWR,KEH,OH,FEH"⟩]

def rows : List Row :=
  [⟨0x20, "", "SPACE,EXCLAMATION MARK,QUOTATION MARK,NUMBER SIGN,DOLLAR SIGN,PERCENT SIGN,AMPERSAND
APOSTROPHE,LEFT PARENTHESIS,RIGHT PARENTHESIS,ASTERISK,PLUS SIGN,COMMA,HYPHEN-MINUS,FULL STOP
SOLIDUS"⟩,
    ⟨0x30, "DIGIT ", "ZERO,ONE,TWO,THREE,FOUR,FIVE,SIX,SEVEN,EIGHT,NINE"⟩,
    ⟨0x3A, "", "COLON,SEMICOLON,LESS-THAN SIGN,EQUALS SIGN,GREATER-THAN SIGN,QUESTION MARK
COMMERCIAL AT"⟩,
    ⟨0x5B, "", "LEFT SQUARE BRACKET,REVERSE SOLIDUS,RIGHT SQUARE BRACKET,CIRCUMFLEX ACCENT,LOW LINE
GRAVE ACCENT"⟩,
    ⟨0x7B, "", "LEFT CURLY BRACKET,VERTICAL LINE,RIGHT CURLY BRACKET,TILDE"⟩,
    ⟨0xA0, "", "NO-BREAK SPACE,INVERTED EXCLAMATION MARK,CENT SIGN,POUND SIGN,CURRENCY SIGN,YEN SIGN
BROKEN BAR,SECTION SIGN,DIAERESIS,COPYRIGHT SIGN,FEMININE ORDINAL INDICATOR
LEFT-POINTING DOUBLE ANGLE QUOTATION MARK,NOT SIGN,SOFT HYPHEN,REGISTERED SIGN,MACRON,DEGREE SIGN
PLUS-MINUS SIGN,SUPERSCRIPT TWO,SUPERSCRIPT THREE,ACUTE ACCENT,MICRO SIGN,PILCROW SIGN,MIDDLE DOT
CEDILLA,SUPERSCRIPT ONE,MASCULINE ORDINAL INDICATOR,RIGHT-POINTING DOUBLE ANGLE QUOTATION MARK
VULGAR FRACTION ONE QUARTER,VULGAR FRACTION ONE HALF,VULGAR FRACTION THREE QUARTERS
INVERTED QUESTION MARK"⟩,
    ⟨0xD7, "", "MULTIPLICATION SIGN"⟩,
    ⟨0xDF, "", "LATIN SMALL LETTER SHARP S"⟩,
    ⟨0xF7, "", "DIVISION SIGN"⟩,
    ⟨0xFF, "", "LATIN SMALL LETTER Y WITH DIAERESIS"⟩,
    ⟨0x130, "LATIN ", "CAPITAL LETTER I WITH DOT ABOVE,SMALL LETTER DOTLESS I,CAPITAL LIGATURE IJ
SMALL LIGATURE IJ"⟩,
    ⟨0x138, "", "LATIN SMALL LETTER KRA"⟩,
    ⟨0x149, "", "LATIN SMALL LETTER N PRECEDED BY APOSTROPHE"⟩,
    ⟨0x152, "LATIN ", "CAPITAL LIGATURE OE,SMALL LIGATURE OE"⟩,
    ⟨0x178, "", "LATIN CAPITAL LETTER Y WITH DIAERESIS"⟩,
    ⟨0x17F, "", "LATIN SMALL LETTER LONG S"⟩,
    ⟨0x386, "GREEK ", "CAPITAL LETTER ALPHA WITH TONOS,ANO TELEIA"⟩,
    ⟨0x388, "GREEK CAPITAL LETTER ", "EPSILON WITH TONOS,ETA WITH TONOS,IOTA WITH TONOS"⟩,
    ⟨0x38C, "", "GREEK CAPITAL LETTER OMICRON WITH TONOS"⟩,
    ⟨0x38E, "GREEK ", "CAPITAL LETTER UPSILON WITH TONOS,CAPITAL LETTER OMEGA WITH TONOS
SMALL LETTER IOTA WITH DIALYTIKA AND TONOS"⟩,
    ⟨0x3AA, "GREEK CAPITAL LETTER ", "IOTA WITH DIALYTIKA,UPSILON WITH DIALYTIKA"⟩,
    ⟨0x3AC, "GREEK SMALL LETTER ", "ALPHA WITH TONOS,EPSILON WITH TONOS,ETA WITH TONOS
IOTA WITH TONOS,UPSILON WITH DIALYTIKA AND TONOS"⟩,
    ⟨0x3C2, "", "GREEK SMALL LETTER FINAL SIGMA"⟩,
    ⟨0x3CA, "GREEK SMALL LETTER ", "IOTA WITH DIALYTIKA,UPSILON WITH DIALYTIKA,OMICRON WITH TONOS
UPSILON WITH TONOS,OMEGA WITH TONOS"⟩,
    ⟨0x2000, "", "EN QUAD,EM QUAD,EN SPACE,EM SPACE,THREE-PER-EM SPACE,FOUR-PER-EM SPACE
SIX-PER-EM SPACE,FIGURE SPACE,PUNCTUATION SPACE,THIN SPACE,HAIR SPACE,ZERO WIDTH SPACE
ZERO WIDTH NON-JOINER,ZERO WIDTH JOINER,LEFT-TO-RIGHT MARK,RIGHT-TO-LEFT MARK"⟩,
    ⟨0x2010, "", "HYPHEN,NON-BREAKING HYPHEN,FIGURE DASH,EN DASH,EM DASH,HORIZONTAL BAR
DOUBLE VERTICAL LINE,DOUBLE LOW LINE,LEFT SINGLE QUOTATION MARK,RIGHT SINGLE QUOTATION MARK
SINGLE LOW-9 QUOTATION MARK,SINGLE HIGH-REVERSED-9 QUOTATION MARK,LEFT DOUBLE QUOTATION MARK
RIGHT DOUBLE QUOTATION MARK,DOUBLE LOW-9 QUOTATION MARK,DOUBLE HIGH-REVERSED-9 QUOTATION MARK,DAGGER
DOUBLE DAGGER,BULLET,TRIANGULAR BULLET,ONE DOT LEADER,TWO DOT LEADER,HORIZONTAL ELLIPSIS
HYPHENATION POINT"⟩,
    ⟨0x2030, "", "PER MILLE SIGN,PER TEN THOUSAND SIGN,PRIME,DOUBLE PRIME,TRIPLE PRIME
REVERSED PRIME,REVERSED DOUBLE PRIME,REVERSED TRIPLE PRIME,CARET
SINGLE LEFT-POINTING ANGLE QUOTATION MARK,SINGLE RIGHT-POINTING ANGLE QUOTATION MARK,REFERENCE MARK
DOUBLE EXCLAMATION MARK,INTERROBANG,OVERLINE,UNDERTIE,CHARACTER TIE,CARET INSERTION POINT,ASTERISM
HYPHEN BULLET,FRACTION SLASH,LEFT SQUARE BRACKET WITH QUILL,RIGHT SQUARE BRACKET WITH QUILL
DOUBLE QUESTION MARK,QUESTION EXCLAMATION MARK,EXCLAMATION QUESTION MARK,TIRONIAN SIGN ET
REVERSED PILCROW SIGN,BLACK LEFTWARDS BULLET,BLACK RIGHTWARDS BULLET,LOW ASTERISK,REVERSED SEMICOLON
CLOSE UP,TWO ASTERISKS ALIGNED VERTICALLY,COMMERCIAL MINUS SIGN,SWUNG DASH,INVERTED UNDERTIE
FLOWER PUNCTUATION MARK,THREE DOT PUNCTUATION,QUADRUPLE PRIME,FOUR DOT PUNCTUATION
FIVE DOT PUNCTUATION,TWO DOT PUNCTUATION,FOUR DOT MARK,DOTTED CROSS,TRICOLON,VERTICAL FOUR DOTS"⟩,
    ⟨0x20A0, "", "EURO-CURRENCY SIGN,COLON SIGN,CRUZEIRO SIGN,FRENCH FRANC SIGN,LIRA SIGN,MILL SIGN
NAIRA SIGN,PESETA SIGN,RUPEE SIGN,WON SIGN,NEW SHEQEL SIGN,DONG SIGN,EURO SIGN,KIP SIGN,TUGRIK SIGN
DRACHMA SIGN,GERMAN PENNY SIGN,PESO SIGN,GUARANI SIGN,AUSTRAL SIGN,HRYVNIA SIGN,CEDI SIGN
LIVRE TOURNOIS SIGN,SPESMILO SIGN,TENGE SIGN,INDIAN RUPEE SIGN,TURKISH LIRA SIGN,NORDIC MARK SIGN
MANAT SIGN,RUBLE SIGN,LARI SIGN,BITCOIN SIGN,SOM SIGN"⟩,
    ⟨0x2190, "", "LEFTWARDS ARROW,UPWARDS ARROW,RIGHTWARDS ARROW,DOWNWARDS ARROW,LEFT RIGHT ARROW
UP DOWN ARROW"⟩,
    ⟨0x2200, "", "FOR ALL,COMPLEMENT,PARTIAL DIFFERENTIAL,THERE EXISTS,THERE DOES NOT EXIST
EMPTY SET,INCREMENT,NABLA,ELEMENT OF,NOT AN ELEMENT OF,SMALL ELEMENT OF,CONTAINS AS MEMBER
DOES NOT CONTAIN AS MEMBER,SMALL CONTAINS AS MEMBER,END OF PROOF,N-ARY PRODUCT,N-ARY COPRODUCT
N-ARY SUMMATION,MINUS SIGN,MINUS-OR-PLUS SIGN,DOT PLUS,DIVISION SLASH,SET MINUS,ASTERISK OPERATOR
RING OPERATOR,BULLET OPERATOR,SQUARE ROOT,CUBE ROOT,FOURTH ROOT,PROPORTIONAL TO,INFINITY"⟩,
    ⟨0x2260, "", "NOT EQUAL TO,IDENTICAL TO,NOT IDENTICAL TO,STRICTLY EQUIVALENT TO
LESS-THAN OR EQUAL TO,GREATER-THAN OR EQUAL TO"⟩]

/-- Names that a character has besides its own, and names of control characters. -/
def furtherRows : List Row :=
  [⟨0x0, "", "NUL,SOH,STX,ETX,EOT,ENQ,ACK,BEL,BS,HT,LF,VT,FF,CR,SO,SI,DLE,DC1,DC2,DC3,DC4,NAK,SYN
ETB,CAN,EOM,SUB,ESC,FS,GS,RS,US,SP"⟩,
    ⟨0x0, "", "NULL,START OF HEADING,START OF TEXT,END OF TEXT,END OF TRANSMISSION,ENQUIRY
ACKNOWLEDGE,ALERT,BACKSPACE,TAB,LINE FEED,LINE TABULATION,FORM FEED,CARRIAGE RETURN,SHIFT OUT
SHIFT IN,DATA LINK ESCAPE"⟩,
    ⟨0x9, "", "CHARACTER TABULATION,NEW LINE,VERTICAL TABULATION"⟩,
    ⟨0x9, "", "HORIZONTAL TABULATION,NL"⟩,
    ⟨0xA, "", "EOL"⟩,
    ⟨0xA, "", "END OF LINE"⟩,
    ⟨0xE, "LOCKING-SHIFT ", "ONE,ZERO"⟩,
    ⟨0x11, "DEVICE CONTROL ", "ONE,TWO,THREE,FOUR"⟩,
    ⟨0x15, "", "NEGATIVE ACKNOWLEDGE,SYNCHRONOUS IDLE,END OF TRANSMISSION BLOCK,CANCEL,END OF MEDIUM
SUBSTITUTE,ESCAPE,FILE SEPARATOR,GROUP SEPARATOR,RECORD SEPARATOR,UNIT SEPARATOR"⟩,
    ⟨0x1C, "INFORMATION SEPARATOR ", "FOUR,THREE,TWO,ONE"⟩,
    ⟨0x7F, "", "DELETE"⟩,
    ⟨0x7F, "", "DEL"⟩,
    ⟨0x85, "", "NEXT LINE"⟩,
    ⟨0x85, "", "NEL"⟩,
    ⟨0xA0, "", "NBSP"⟩,
    ⟨0xAD, "", "SHY"⟩]

end Antecedent.Text.CharName
