import IA32.Operand.Value

set_option autoImplicit false

/-!
# The operands of one instruction

Scale byte and displacement of the r/m operand stand in front of all values in the code, so the r/m
operand is read first, wherever it stands among the operands.
-/
namespace IA32.Operand

def requireModeByte : Option ModeByte → Reader ModeByte
  | some byte => pure byte
  | none => .invalid .missingModeByte

def readFirstRm (context : Context) (modeByte : Option ModeByte) :
    List OperandSpec → Reader (Option Operand)
  | [] => pure none
  | spec :: specs =>
    match spec.mode with
    | .rm form => do
      let byte ← requireModeByte modeByte
      return some (← readRm context byte form (context.width spec.type))
    | _ => readFirstRm context modeByte specs

def readPlain (context : Context) (opcode : UInt8) (modeByte : Option ModeByte)
    (spec : OperandSpec) : Reader Operand :=
  let width := context.width spec.type
  match spec.mode with
  | .reg => do return .register (.ofNumber (← requireModeByte modeByte).reg width)
  | .opcodeRegister => pure (.register (.ofNumber opcode.toNat width))
  | .fixedRegister number => pure (.register (.ofNumber number width))
  | .one => pure (.immediate (.unsigned 1 .byte))
  | _ => readValue context spec

/-- Reads the operands around the r/m operand and puts that in its place. -/
def readAround (context : Context) (opcode : UInt8) (modeByte : Option ModeByte) :
    Option Operand → List OperandSpec → Reader (List Operand)
  | _, [] => pure []
  | rm, spec :: specs =>
    if spec.mode.usesRm then
      match rm with
      | some operand => do return operand :: (← readAround context opcode modeByte none specs)
      | none => .invalid .secondRmOperand
    else do
      let operand ← readPlain context opcode modeByte spec
      return operand :: (← readAround context opcode modeByte rm specs)

def readAll (context : Context) (opcode : UInt8) (modeByte : Option ModeByte)
    (specs : List OperandSpec) : Reader (List Operand) := do
  let rm ← readFirstRm context modeByte specs
  readAround context opcode modeByte rm specs

end IA32.Operand
