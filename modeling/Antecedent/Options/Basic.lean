import Antecedent.Environment
import Antecedent.Options.Lenient
import Antecedent.Storage.Path

/-!
# Options of an analysis

The options of one run, how they are read, and which of them cannot be used together.
-/

namespace Antecedent

structure Options where
  func : String := ""
  precond : String := ""
  postcond : String := ""
  tripAsserts : Bool := false
  checkNull : Bool := false
  compareCalls : Bool := false
  compareRegisters : List String := []
  inline : Option String := none
  unroll : Option Int := none
  debuggerFile : Option String := none
  replayFile : Option String := none
  useInputs : Bool := true
  memoryOffset : Bool := false
  debug : List String := []
  shown : List String := []
  stackBase : Option Int := none
  stackSize : Option Int := none
deriving DecidableEq, Repr, Inhabited

namespace Options

/-! ## §1 Reading -/

abbrev Check := StateM (List Issue)

/-- Reads a field; a missing one has its default, and a bad one leaves issues. -/
def checkField {α : Type} (ms : List (Label × Json)) (name : String) (default : α)
    (read : Reader α) : Check α := do
  match Json.findMember? name ms with
  | none => return default
  | some j =>
    match read j with
    | .ok a => return a
    | .error is =>
      modify (· ++ is.map (Issue.within (.field name)))
      return default

def debuggerField : String := "gdb_output"

def replayField : String := "bildb_output"

/-- Reads all fields in order; unknown ones are passed over. -/
def check (ms : List (Label × Json)) : Check Options := do
  let func ← checkField ms "func" "" readText
  return {
    func := Text.trim func
    precond := ← checkField ms "precond" "" readText
    postcond := ← checkField ms "postcond" "" readText
    tripAsserts := ← checkField ms "trip_asserts" false readBool
    checkNull := ← checkField ms "check_null_derefs" false readBool
    compareCalls := ← checkField ms "compare_func_calls" false readBool
    compareRegisters := ← checkField ms "compare_post_reg_values" [] readWords
    inline := ← checkField ms "inline" none readText?
    unroll := ← checkField ms "num_unroll" none readNatural?
    debuggerFile := ← checkField ms debuggerField none readText?
    replayFile := ← checkField ms replayField none readText?
    useInputs := ← checkField ms "use_fun_input_regs" true readBool
    memoryOffset := ← checkField ms "mem_offset" false readBool
    debug := ← checkField ms "debug" [] readWords
    shown := ← checkField ms "show" [] readWords
    stackBase := ← checkField ms "stack_base" none readNatural?
    stackSize := ← checkField ms "stack_size" none readPositive? }

def ofMembers (ms : List (Label × Json)) : Except (List Issue) Options :=
  match (check ms).run [] with
  | (o, []) => .ok o
  | (_, is) => .error is

def toJson (o : Options) : Json :=
  let text? (s : Option String) : Json := (s.map Json.str).getD .null
  let int? (n : Option Int) : Json := (n.map Json.int).getD .null
  let texts (ss : List String) : Json := .arr (ss.map Json.str)
  .obj [
    ("func", .str o.func), ("precond", .str o.precond), ("postcond", .str o.postcond),
    ("trip_asserts", .bool o.tripAsserts), ("check_null_derefs", .bool o.checkNull),
    ("compare_func_calls", .bool o.compareCalls),
    ("compare_post_reg_values", texts o.compareRegisters), ("inline", text? o.inline),
    ("num_unroll", int? o.unroll), (.text debuggerField, text? o.debuggerFile),
    (.text replayField, text? o.replayFile), ("use_fun_input_regs", .bool o.useInputs),
    ("mem_offset", .bool o.memoryOffset), ("debug", texts o.debug), ("show", texts o.shown),
    ("stack_base", int? o.stackBase), ("stack_size", int? o.stackSize)]

/-! ## §2 Use -/

def debugWords : List String :=
  ["z3-solver-stats", "z3-verbose", "constraint-stats", "eval-constraint-stats"]

def shownWords : List String :=
  ["bir", "refuted-goals", "paths", "precond-internal", "precond-smtlib"]

/-- The first reason why the options cannot be used with a number of files. -/
def problem? (o : Options) (files : Nat) : Option Fault :=
  let badDebug := o.debug.filter (!debugWords.contains ·)
  let badShown := o.shown.filter (!shownWords.contains ·)
  if o.func.isEmpty then some .noFunction
  else if files ≠ 1 ∧ files ≠ 2 then some (.fileCount files)
  else if o.compareCalls && files != 2 then some (.comparativeOnly "compare_func_calls" files)
  else if !o.compareRegisters.isEmpty && files != 2 then
    some (.comparativeOnly "compare_post_reg_values" files)
  else if !badDebug.isEmpty then some (.badDebug badDebug debugWords)
  else if !badShown.isEmpty then some (.badShow badShown shownWords)
  else none

/-- The stack of a run: each bound is given or has its default. -/
def stack (o : Options) (default : StackRange) : StackRange where
  base := o.stackBase.getD default.base
  size := o.stackSize.getD default.size

/-! ## §3 Output files -/

def checkNul (name : String) : Except Fault Unit :=
  if name.toList.contains '\x00' then .error .nulInName else .ok ()

/-- The place of an output file, which must lie below the root folder. -/
def confine (field : String) (root : Path) (path : String) : Except Fault String := do
  checkNul path
  let target := Path.resolve root path
  if Path.isBelow root target then return Path.text target
  else throw (.outsideOutput field path (Path.text root))

def confined (o : Options) (root : String) : Except Fault Options := do
  checkNul root
  let base := Path.resolve [] root
  let debuggerFile ← o.debuggerFile.mapM (confine debuggerField base)
  let replayFile ← o.replayFile.mapM (confine replayField base)
  pure { o with debuggerFile, replayFile }

end Options

end Antecedent
