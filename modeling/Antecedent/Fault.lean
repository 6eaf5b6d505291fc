import Antecedent.Text.Integer
import Antecedent.Text.Quoted

/-!
# Faults

Everything that can go wrong, by cause.  `Fault.message` gives the wording of the causes that have
one, and `Fault.family` groups them: what the caller asked for, what the program is like, what the
cache did, and faults that are reported by their kind alone.
-/

namespace Antecedent

inductive Fault where
  -- terms
  /-- A term whose parts have the wrong sorts. -/
  | illSorted
  /-- A memory where a bit vector's width is asked for. -/
  | noWidth
  /-- A memory under a sign or a complement. -/
  | notArithmetic
  /-- Operands of different widths. -/
  | widthMismatch (operator : String) (left right : Nat)
  -- documents
  /-- A document without a field that it must have. -/
  | missingField (name : String)
  /-- A value that is no object where an object is read. -/
  | notAnObject
  /-- A value of the wrong type. -/
  | wrongType
  /-- A field that the analysis cannot use, such as a width that is no integer. -/
  | unusableField
  /-- A text that is no integer in the given base. -/
  | badInteger (base : Nat) (text : String)
  /-- A text of more decimal digits than are read as an integer. -/
  | longInteger (digits : Nat)
  /-- An undefined number where an integer is read. -/
  | undefinedInteger
  /-- An infinite number where an integer is read. -/
  | infiniteInteger
  /-- A row whose rows are no pairs, where members are read. -/
  | badPair (index length : Nat)
  | unknownExpression (shown : String)
  | unknownBinary (shown : String)
  | unknownUnary (shown : String)
  | unknownCast (shown : String)
  | unknownJump (shown : String)
  | expectedVariable (shown : String)
  -- requests
  | unsupportedArchitecture (name : String)
  | notARegister (register architecture : String) (registers : List String)
  | missingFunction (name : String)
  | noFunction
  | fileCount (count : Nat)
  | comparativeOnly (option : String) (count : Nat)
  | badDebug (bad available : List String)
  | badShow (bad available : List String)
  | badPattern (pattern : String)
  /-- A pattern that repeats something too often. -/
  | largeRepetition
  /-- A pattern whose categories are to range over all scripts and over one. -/
  | mixedScripts
  /-- A pattern that looks too far back. -/
  | farLook
  /-- A match with a group that ends before it begins. -/
  | crossedGroup
  | badCondition (text : String)
  | outsideOutput (option path root : String)
  -- programs
  | noSummary (callee : String) (tried : List String)
  | missingBlock (subroutine block : String)
  | gotoWithoutTarget (subroutine jump : String)
  /-- A jump whose destination was never built. -/
  | unbuiltBlock
  /-- The walk of a subroutine needs itself. -/
  | endlessWalk
  /-- A subroutine without blocks where its graph is asked for. -/
  | noBlocks
  | replacementArity (olds news : Nat)
  | bothFreshened
  | badVerdict (text : String)
  -- cache
  | unreadableFile (file : String)
  | unreadableProgram (file : String)
  | notAProgram (file detail : String)
  | corruptEntry (area detail : String)
  | unreadableEntry (path : String)
  | unwritableEntry (path : String)
  | unreachable (verb url detail : String)
  | refused (verb url : String) (status : Int)
  | unknownLoader (name : String)
  /-- A text that is no document of the interchange format. -/
  | notJson
  /-- A document whose values are nested too deep. -/
  | deepDocument
  /-- Bytes that are no text. -/
  | notText
  /-- A replay file whose folder does not exist. -/
  | missingFolder
  /-- A replay file whose name is a folder. -/
  | isFolder
  /-- A file where a folder is needed. -/
  | notFolder
  /-- A file where a new folder is to be made. -/
  | isFile
  /-- A name of a file that is too long. -/
  | longName
  /-- A name of a file with the character that ends names. -/
  | nulInName
deriving DecidableEq, Repr, Inhabited

namespace Fault

/-- The fault of a text that is no integer in a base. -/
def ofInteger (base : Nat) (text : String) : Text.IntegerFlaw → Fault
  | .malformed => .badInteger base text
  | .tooLong digits => .longInteger digits

inductive Family where
  | general
  | request
  | missingFunction
  | noSummary
  | malformedFlow
  | cache
  | value
  | missingKey
  | type
  | object
  | sort
  | overflow
  | state
  | internal
  | argument
  | missingFolder
  | isFolder
  | notFolder
  | isFile
  | longName
  | endless
  | nested
  | index
deriving DecidableEq, Repr, Inhabited

def family : Fault → Family
  | illSorted => .sort
  | noWidth | notAnObject => .object
  | notArithmetic | wrongType => .type
  | unusableField => .argument
  | widthMismatch .. | unknownExpression _ | unknownBinary _ | unknownUnary _ | unknownCast _
  | unknownJump _ | expectedVariable _ => .general
  | missingField _ | unbuiltBlock => .missingKey
  | badInteger .. | undefinedInteger | badPair .. | replacementArity .. | bothFreshened
  | badVerdict _ | notJson | notText | longInteger _ | nulInName
  | mixedScripts => .value
  | infiniteInteger | largeRepetition => .overflow
  | farLook => .state
  | crossedGroup => .internal
  | unsupportedArchitecture _ | notARegister .. | noFunction | fileCount _ | comparativeOnly ..
  | badDebug .. | badShow .. | badPattern _ | badCondition _ | outsideOutput .. => .request
  | missingFunction _ => .missingFunction
  | noSummary .. => .noSummary
  | missingBlock .. | gotoWithoutTarget .. => .malformedFlow
  | unreadableFile _ | unreadableProgram _ | notAProgram .. | corruptEntry .. | unreadableEntry _
  | unwritableEntry _ | unreachable .. | refused .. | unknownLoader _ => .cache
  | missingFolder => .missingFolder
  | isFolder => .isFolder
  | notFolder => .notFolder
  | isFile => .isFile
  | longName => .longName
  | endlessWalk => .endless
  | deepDocument => .nested
  | noBlocks => .index

/-- The wording of a cause; causes that are reported by their kind alone have none. -/
def message? : Fault → Option String
  | illSorted | noWidth | notAnObject | notArithmetic | wrongType | unusableField | unbuiltBlock
  | infiniteInteger | missingFolder | isFolder | notFolder | isFile | longName | endlessWalk
  | deepDocument | noBlocks | largeRepetition | farLook | crossedGroup => none
  | notJson | notText => some ""
  | widthMismatch operator left right => some s!"Width mismatch in {operator}: {left} vs {right}"
  | missingField name => some (Text.quoted name)
  | badInteger base text =>
    let shown := String.ofList ((Text.quoted text).toList.take 200)
    some s!"invalid literal for int() with base {base}: {shown}"
  | longInteger digits =>
    some ("Exceeds the limit (4300 digits) for integer string conversion: value has "
      ++ s!"{digits} digits; use sys.set_int_max_str_digits() to increase the limit")
  | nulInName => some "embedded null byte"
  | mixedScripts => some "ASCII and UNICODE flags are incompatible"
  | undefinedInteger => some "cannot convert float NaN to integer"
  | badPair index length =>
    some s!"dictionary update sequence element #{index} has length {length}; 2 is required"
  | unknownExpression shown => some s!"Unknown expression kind: {shown}"
  | unknownBinary shown => some s!"Unknown binary operator: {shown}"
  | unknownUnary shown => some s!"Unknown unary operator: {shown}"
  | unknownCast shown => some s!"Unknown cast: {shown}"
  | unknownJump shown => some s!"Unknown jump kind: {shown}"
  | expectedVariable shown => some s!"Expected a variable, got {shown}"
  | unsupportedArchitecture name => some s!"Unsupported architecture: {name}"
  | notARegister register architecture registers =>
    let shown := Text.quotedList registers
    some (s!"'{register}' is not a register of {architecture}. Available registers are: "
      ++ shown)
  | missingFunction name => some s!"Missing function: {name} is not in binary."
  | noFunction => some "Function is not provided for analysis."
  | fileCount count =>
    some ("Only one binary (single analysis) or two binaries (comparative analysis) can be "
      ++ s!"analyzed. Number of binaries provided: {count}.")
  | comparativeOnly option count =>
    some (s!"{option} is only used for a comparative analysis. Please specify two files. "
      ++ s!"Number of files given: {count}.")
  | badDebug bad available =>
    some ("Invalid debug options: " ++ Text.quotedList bad ++ ". Available options are: "
      ++ Text.quotedList available)
  | badShow bad available =>
    some ("Invalid show options: " ++ Text.quotedList bad ++ ". Available options are: "
      ++ Text.quotedList available)
  | badPattern pattern => some ("Invalid inline pattern " ++ Text.quoted pattern ++ ": ")
  | badCondition text =>
    some ("Could not parse SMT-LIB condition " ++ Text.quoted text ++ ": ")
  | outsideOutput option path root =>
    some (s!"{option} " ++ Text.quoted path ++ s!" is outside the output directory {root}")
  | noSummary callee tried =>
    some (s!"No function spec matches the call to {callee} (tried: " ++ Text.quotedList tried
      ++ ")")
  | missingBlock subroutine block => some s!"{subroutine}: jump to missing block {block}"
  | gotoWithoutTarget subroutine jump => some s!"{subroutine}: goto {jump} has no target"
  | replacementArity olds news => some s!"Substitution arity mismatch: {olds} vs {news}"
  | bothFreshened => some "Only one side of a comparison may be freshened"
  | badVerdict text => some (Text.quoted text ++ " is not a valid Verdict")
  | unreadableFile file => some s!"Cannot read {file}: "
  | unreadableProgram file => some s!"Cannot load lifted program {file}: "
  | notAProgram file detail => some s!"Lifter output for {file} is not a program: {detail}"
  | corruptEntry area detail => some s!"Corrupt {area} cache entry: {detail}"
  | unreadableEntry path => some s!"Cannot read cache entry {path}: "
  | unwritableEntry path => some s!"Cannot write cache entry {path}: "
  | unreachable verb url detail => some s!"Cache {verb} {url} failed: {detail}"
  | refused verb url status => some s!"Cache {verb} {url} returned HTTP {status}"
  | unknownLoader name => some s!"Unknown loader: {name}"

def isRequest (f : Fault) : Bool :=
  f.family == .request || f.family == .missingFunction

/-- Whether the fault is one that the analysis announces, as opposed to a breakdown. -/
def isAnnounced (f : Fault) : Bool :=
  match f.family with
  | .general | .request | .missingFunction | .noSummary | .malformedFlow | .cache => true
  | _ => false

end Fault

end Antecedent
