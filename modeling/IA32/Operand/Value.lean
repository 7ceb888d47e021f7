import IA32.Operand.Address

set_option autoImplicit false

namespace IA32.Operand

def immediateOf (type : OperandType) (raw : Nat) (width : Width) : Immediate :=
  if type = .signExtendedByte then .signed raw width else .unsigned raw width

def readValue (context : Context) (spec : OperandSpec) : Reader Operand :=
  let width := context.encodedWidth spec.type
  match spec.mode with
  | .immediate => do return .immediate (immediateOf spec.type (← Reader.number width.bytes) width)
  | .relative => do return .immediate (.signed (← Reader.number width.bytes) width)
  | .offset => do
    let displacement ← Displacement.readFull context.addressWidth
    match MemoryAddress.make? none none 1 displacement context.segment context.addressWidth with
    | some address => return .memory address (context.width spec.type)
    | none => .invalid .emptyOffset
  | _ => .invalid .notInCode

end IA32.Operand
