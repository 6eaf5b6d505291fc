import Antecedent.Fault
import Antecedent.Text.Case

/-!
# Architectures

The register file of a target, with the facts of its calling convention that call summaries use.
-/

namespace Antecedent

/-- A target: its registers with their widths in the order given, the width of an address, and its
calling convention. -/
structure Arch where
  name : String
  addressWidth : Int
  registers : List (String × Int) := []
  stackPointer : Option String := none
  callerSaved : List String := []
  inputRegisters : List String := []
  returnRegister : Option String := none
  memoryName : String := "mem"
deriving DecidableEq, Repr, Inhabited

namespace Arch

/-- Inserts a name before the first one that does not precede it. -/
def insertName (name : String) : List String → List String
  | [] => [name]
  | n :: names => if name ≤ n then name :: n :: names else n :: insertName name names

/-- The names of the registers in ascending order. -/
def registerNames (a : Arch) : List String :=
  a.registers.foldr (fun r names => insertName r.1 names) []

def width? (a : Arch) (register : String) : Option Int :=
  a.registers.lookup register

def width (a : Arch) (register : String) : Except Fault Int :=
  match a.width? register with
  | some w => .ok w
  | none => .error (.notARegister register a.name a.registerNames)

def registersOf (width : Int) (names : List String) : List (String × Int) :=
  names.map fun n => (n, width)

/-- The flag registers of the two related targets. -/
def statusFlags : List String :=
  ["CF", "PF", "AF", "ZF", "SF", "DF", "OF"]

/-- The 64-bit target. -/
def x8664 : Arch where
  name := "x86_64"
  addressWidth := 64
  registers :=
    registersOf 64 ["RAX", "RBX", "RCX", "RDX", "RSI", "RDI", "RSP", "RBP",
      "R8", "R9", "R10", "R11", "R12", "R13", "R14", "R15"] ++ registersOf 1 statusFlags
  stackPointer := some "RSP"
  callerSaved := ["RAX", "RCX", "RDX", "RSI", "RDI", "R8", "R9", "R10", "R11"]
  inputRegisters := ["RDI", "RSI", "RDX", "RCX", "R8", "R9"]
  returnRegister := some "RAX"

/-- The 32-bit target with stack arguments. -/
def x86 : Arch where
  name := "x86"
  addressWidth := 32
  registers :=
    registersOf 32 ["EAX", "EBX", "ECX", "EDX", "ESI", "EDI", "ESP", "EBP"]
      ++ registersOf 1 statusFlags
  stackPointer := some "ESP"
  callerSaved := ["EAX", "ECX", "EDX"]
  returnRegister := some "EAX"

/-- The 32-bit target with register arguments. -/
def armv7 : Arch where
  name := "armv7"
  addressWidth := 32
  registers :=
    registersOf 32 ["R0", "R1", "R2", "R3", "R4", "R5", "R6", "R7", "R8", "R9", "R10", "R11",
      "R12", "SP", "LR", "PC"] ++ registersOf 1 ["NF", "ZF", "CF", "VF"]
  stackPointer := some "SP"
  callerSaved := ["R0", "R1", "R2", "R3", "R12", "LR"]
  inputRegisters := ["R0", "R1", "R2", "R3"]
  returnRegister := some "R0"

def known : List (String × Arch) :=
  [("x86_64", x8664), ("x86", x86), ("armv7", armv7), ("amd64", x8664), ("i386", x86),
    ("arm", armv7)]

/-- The target of a name; letter case does not matter. -/
def ofName (name : String) : Except Fault Arch :=
  match known.lookup (Text.lower name) with
  | some a => .ok a
  | none => .error (.unsupportedArchitecture name)

end Arch

end Antecedent
