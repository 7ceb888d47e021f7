import IA32.Config
import IA32.ModeByte
import IA32.Operand

set_option autoImplicit false

namespace IA32

namespace Displacement

def readFull : Width → Reader Displacement
  | .word => do return disp16 (Int16.ofNat (← Reader.number 2))
  | _ => do return disp32 (Int32.ofNat (← Reader.number 4))

def read (mode : Mode) (addressWidth : Width) : Reader Displacement :=
  match mode with
  | .withoutDisplacement => pure none
  | .shortDisplacement => do return disp8 (Int8.ofNat (← Reader.number 1))
  | _ => readFull addressWidth

end Displacement

namespace MemoryAddress

def complete (context : Context) (addressWidth : Width) (base index : Option Register) (scale : Nat)
    (displacement : Displacement) : Reader MemoryAddress :=
  match make? base index scale displacement context.segment addressWidth with
  | some address => pure address
  | none => .invalid .emptyAddress

def displacementOnlyBase : DisplacementOnly → Option Register
  | .absolute => none
  | .instructionPointerRelative => some (.instructionPointer .dword)

def index32 (number : Fin 8) : Option Register :=
  if number.val = 4 then none else some (.ofNumber number .dword)

/-- Addresses with a scale byte. Without a displacement, base 5 stands for a full displacement and no
base register. -/
def readScaled (context : Context) (mode : Mode) : Reader MemoryAddress := do
  let byte ← ScaleByte.read
  if mode = .withoutDisplacement ∧ byte.base.val = 5 then
    let displacement ← Displacement.readFull .dword
    complete context .dword none (index32 byte.index) byte.scale displacement
  else
    let displacement ← Displacement.read mode .dword
    let base := Register.ofNumber byte.base .dword
    complete context .dword (some base) (index32 byte.index) byte.scale displacement

def read32 (context : Context) (byte : ModeByte) : Reader MemoryAddress :=
  if byte.rm.val = 4 then readScaled context byte.mode
  else if byte.mode = .withoutDisplacement ∧ byte.rm.val = 5 then do
    let displacement ← Displacement.readFull .dword
    complete context .dword (displacementOnlyBase context.displacementOnly) none 1 displacement
  else do
    let displacement ← Displacement.read byte.mode .dword
    complete context .dword (some (.ofNumber byte.rm .dword)) none 1 displacement

def bx : Register := .ofNumber 3 .word
def bp : Register := .ofNumber 5 .word
def si : Register := .ofNumber 6 .word
def di : Register := .ofNumber 7 .word

def registers16 : Fin 8 → Register × Option Register
  | 0 => (bx, some si)
  | 1 => (bx, some di)
  | 2 => (bp, some si)
  | 3 => (bp, some di)
  | 4 => (si, none)
  | 5 => (di, none)
  | 6 => (bp, none)
  | 7 => (bx, none)

def read16 (context : Context) (byte : ModeByte) : Reader MemoryAddress :=
  if byte.mode = .withoutDisplacement ∧ byte.rm.val = 6 then do
    let displacement ← Displacement.readFull .word
    complete context .word none none 1 displacement
  else do
    let displacement ← Displacement.read byte.mode .word
    complete context .word (some (registers16 byte.rm).1) (registers16 byte.rm).2 1 displacement

def read (context : Context) (byte : ModeByte) : Reader MemoryAddress :=
  match context.addressWidth with
  | .word => read16 context byte
  | _ => read32 context byte

end MemoryAddress

namespace Operand

/-- The operand in the r/m field of a mode byte that has just been read. -/
def readRm (context : Context) (byte : ModeByte) (form : OperandForm) (width : Width) :
    Reader Operand :=
  if byte.isRegister then
    if form = .memoryOnly then .invalid .registerForm
    else pure (.register (.ofNumber byte.rm width))
  else if form = .registerOnly then .invalid .memoryForm
  else do return .memory (← MemoryAddress.read context byte) width

end Operand
end IA32
