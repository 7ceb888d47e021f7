import IA32.Table

set_option autoImplicit false

/-!
# The built-in table

The integer instructions that compilers emit for 32-bit code: arithmetic, moves, stack operations, shifts,
multiplication and division, string moves and every form of branch. `builtin_accepted` says that the table
takes all of them.

Operands are named as opcode maps name them: a letter for the place (`E` r/m, `G` reg field, `M` memory,
`I` immediate, `J` relative, `O` offset, `Z` opcode) and one for the size (`b` byte, `w` word, `v` by the
operand size).
-/
namespace IA32.Builtin

def Eb : OperandSpec := ⟨.rm .any, .byte⟩
def Ew : OperandSpec := ⟨.rm .any, .word⟩
def Ev : OperandSpec := ⟨.rm .any, .variable⟩
def Gb : OperandSpec := ⟨.reg, .byte⟩
def Gv : OperandSpec := ⟨.reg, .variable⟩
def Mv : OperandSpec := ⟨.rm .memoryOnly, .variable⟩
def Ib : OperandSpec := ⟨.immediate, .byte⟩
def Iw : OperandSpec := ⟨.immediate, .word⟩
def Iv : OperandSpec := ⟨.immediate, .variable⟩
/-- A byte that is extended by its sign. -/
def Ibs : OperandSpec := ⟨.immediate, .signExtendedByte⟩
def Jb : OperandSpec := ⟨.relative, .byte⟩
def Jv : OperandSpec := ⟨.relative, .variable⟩
def Zb : OperandSpec := ⟨.opcodeRegister, .byte⟩
def Zv : OperandSpec := ⟨.opcodeRegister, .variable⟩
def Ob : OperandSpec := ⟨.offset, .byte⟩
def Ov : OperandSpec := ⟨.offset, .variable⟩
def one : OperandSpec := ⟨.one, .byte⟩
def AL : OperandSpec := ⟨.fixedRegister 0, .byte⟩
def CL : OperandSpec := ⟨.fixedRegister 1, .byte⟩
def eAX : OperandSpec := ⟨.fixedRegister 0, .variable⟩

abbrev Registration := OpcodeKey × Descriptor

def general (mnemonic : String) (operands : List OperandSpec) : Descriptor :=
  { mnemonic, operands }

def transfer (mnemonic : String) (flow : Flow) (operands : List OperandSpec) : Descriptor :=
  { mnemonic, operands, kind := .transfer flow }

def primary (opcode : Nat) (descriptor : Descriptor) : Registration :=
  (.primary (.ofNat opcode), descriptor)

def secondary (opcode : Nat) (descriptor : Descriptor) : Registration :=
  (.secondary (.ofNat opcode), descriptor)

def member (opcode extension : Nat) (descriptor : Descriptor) : Registration :=
  ((OpcodeKey.primary (.ofNat opcode)).withExtension extension, descriptor)

def arithmeticNames : List (Nat × String) :=
  [(0, "add"), (1, "or"), (2, "adc"), (3, "sbb"), (4, "and"), (5, "sub"), (6, "xor"), (7, "cmp")]

def arithmetic : List Registration :=
  arithmeticNames.flatMap fun (number, name) =>
    [primary (8 * number) (general name [Eb, Gb]),
      primary (8 * number + 1) (general name [Ev, Gv]),
      primary (8 * number + 2) (general name [Gb, Eb]),
      primary (8 * number + 3) (general name [Gv, Ev]),
      primary (8 * number + 4) (general name [AL, Ib]),
      primary (8 * number + 5) (general name [eAX, Iv]),
      member 0x80 number (general name [Eb, Ib]),
      member 0x81 number (general name [Ev, Iv]),
      member 0x83 number (general name [Ev, Ibs])]

def opcodeRegisters : List Registration :=
  (List.range 8).flatMap fun register =>
    [primary (0x40 + register) (general "inc" [Zv]),
      primary (0x48 + register) (general "dec" [Zv]),
      primary (0x50 + register) (general "push" [Zv]),
      primary (0x58 + register) (general "pop" [Zv]),
      primary (0xB0 + register) (general "mov" [Zb, Ib]),
      primary (0xB8 + register) (general "mov" [Zv, Iv])]

/-- Exchanges with the accumulator; the exchange with itself is written `nop`. -/
def exchanges : List Registration :=
  (List.range' 1 7).map fun register => primary (0x90 + register) (general "xchg" [eAX, Zv])

def conditionSuffixes : List (Nat × String) :=
  [(0, "o"), (1, "no"), (2, "b"), (3, "ae"), (4, "e"), (5, "ne"), (6, "be"), (7, "a"),
    (8, "s"), (9, "ns"), (10, "p"), (11, "np"), (12, "l"), (13, "ge"), (14, "le"), (15, "g")]

def conditional : List Registration :=
  conditionSuffixes.flatMap fun (code, suffix) =>
    let flow := Flow.conditionalJump (.ofCode code)
    [primary (0x70 + code) (transfer ("j" ++ suffix) flow [Jb]),
      secondary (0x40 + code) (general ("cmov" ++ suffix) [Gv, Ev]),
      secondary (0x80 + code) (transfer ("j" ++ suffix) flow [Jv]),
      secondary (0x90 + code) (general ("set" ++ suffix) [Eb])]

def plain : List Registration :=
  [(0x90, "nop"), (0xA4, "movsb"), (0xA6, "cmpsb"), (0xAA, "stosb"), (0xAC, "lodsb"),
    (0xAE, "scasb"), (0xC9, "leave"), (0xCC, "int3"), (0xF4, "hlt"), (0xF5, "cmc"),
    (0xF8, "clc"), (0xF9, "stc"), (0xFC, "cld"), (0xFD, "std")].map
    fun (opcode, name) => primary opcode (general name [])

/-- Instructions without operands whose name tells the operand size. -/
def sized : List Registration :=
  [(0x98, "cwde", "cbw"), (0x99, "cdq", "cwd"), (0x9C, "pushfd", "pushf"),
    (0x9D, "popfd", "popf"), (0xA5, "movsd", "movsw"), (0xAB, "stosd", "stosw"),
    (0xAD, "lodsd", "lodsw")].map
    fun (opcode, name, wordName) =>
      primary opcode { mnemonic := name, wordMnemonic := some wordName }

def moves : List Registration :=
  [primary 0x68 (general "push" [Iv]),
    primary 0x6A (general "push" [Ibs]),
    primary 0x86 (general "xchg" [Eb, Gb]),
    primary 0x87 (general "xchg" [Ev, Gv]),
    primary 0x88 (general "mov" [Eb, Gb]),
    primary 0x89 (general "mov" [Ev, Gv]),
    primary 0x8A (general "mov" [Gb, Eb]),
    primary 0x8B (general "mov" [Gv, Ev]),
    primary 0x8D (general "lea" [Gv, Mv]),
    member 0x8F 0 (general "pop" [Ev]),
    primary 0xA0 (general "mov" [AL, Ob]),
    primary 0xA1 (general "mov" [eAX, Ov]),
    primary 0xA2 (general "mov" [Ob, AL]),
    primary 0xA3 (general "mov" [Ov, eAX]),
    member 0xC6 0 (general "mov" [Eb, Ib]),
    member 0xC7 0 (general "mov" [Ev, Iv]),
    secondary 0xB6 (general "movzx" [Gv, Eb]),
    secondary 0xB7 (general "movzx" [Gv, Ew]),
    secondary 0xBE (general "movsx" [Gv, Eb]),
    secondary 0xBF (general "movsx" [Gv, Ew])]

def products : List Registration :=
  [primary 0x69 (general "imul" [Gv, Ev, Iv]),
    primary 0x6B (general "imul" [Gv, Ev, Ibs]),
    secondary 0xAF (general "imul" [Gv, Ev])]

def tests : List Registration :=
  [primary 0x84 (general "test" [Eb, Gb]),
    primary 0x85 (general "test" [Ev, Gv]),
    primary 0xA8 (general "test" [AL, Ib]),
    primary 0xA9 (general "test" [eAX, Iv]),
    member 0xF6 0 (general "test" [Eb, Ib]),
    member 0xF7 0 (general "test" [Ev, Iv])]

def branches : List Registration :=
  [primary 0xC2 (transfer "ret" .ret [Iw]),
    primary 0xC3 (transfer "ret" .ret []),
    primary 0xE8 (transfer "call" .call [Jv]),
    primary 0xE9 (transfer "jmp" .jump [Jv]),
    primary 0xEB (transfer "jmp" .jump [Jb]),
    member 0xFF 2 (transfer "call" .call [Ev]),
    member 0xFF 4 (transfer "jmp" .jump [Ev])]

/-- Shifts and rotations; the sixth place of their groups is free. -/
def shifts : List Registration :=
  [(0, "rol"), (1, "ror"), (2, "rcl"), (3, "rcr"), (4, "shl"), (5, "shr"), (7, "sar")].flatMap
    fun (number, name) =>
      [member 0xC0 number (general name [Eb, Ib]),
        member 0xC1 number (general name [Ev, Ib]),
        member 0xD0 number (general name [Eb, one]),
        member 0xD1 number (general name [Ev, one]),
        member 0xD2 number (general name [Eb, CL]),
        member 0xD3 number (general name [Ev, CL])]

def unary : List Registration :=
  [(2, "not"), (3, "neg"), (4, "mul"), (5, "imul"), (6, "div"), (7, "idiv")].flatMap
    (fun (number, name) =>
      [member 0xF6 number (general name [Eb]),
        member 0xF7 number (general name [Ev])])
  ++ [member 0xFE 0 (general "inc" [Eb]),
    member 0xFE 1 (general "dec" [Eb]),
    member 0xFF 0 (general "inc" [Ev]),
    member 0xFF 1 (general "dec" [Ev]),
    member 0xFF 6 (general "push" [Ev])]

def system : List Registration :=
  [primary 0xCD (general "int" [Ib]),
    secondary 0x0B (general "ud2" []),
    ((OpcodeKey.secondary 0x1F).withExtension 0, general "nop" [Ev]),
    secondary 0x31 (general "rdtsc" []),
    secondary 0xA2 (general "cpuid" [])]

def registrations : List Registration :=
  arithmetic ++ opcodeRegisters ++ exchanges ++ conditional ++ plain ++ sized ++ moves ++ products
    ++ tests ++ branches ++ shifts ++ unary ++ system

end IA32.Builtin

namespace IA32.Table

def builtin : Table := (empty.registerAll Builtin.registrations).toOption.getD empty

theorem eq_ok_getD {ε α : Type} {outcome : Except ε α} (default : α)
    (accepted : outcome.toOption.isSome = true) : outcome = .ok (outcome.toOption.getD default) := by
  cases outcome with
  | ok value => rfl
  | error reason => simp [Except.toOption] at accepted

set_option maxRecDepth 10000 in
theorem builtin_accepted : empty.registerAll Builtin.registrations = .ok builtin :=
  eq_ok_getD empty (by decide +kernel)

end IA32.Table
