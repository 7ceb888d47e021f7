import IA32.DecodeError

set_option autoImplicit false

/-!
# Readers

A reader takes bytes from the front of some code, a few at a time, and ends with a value or a fault. It
knows neither where the code lies nor what follows the bytes it took. Running it may also find that the
code is too short.
-/
namespace IA32

/-- A failure that the bytes already taken decide. -/
inductive Fault where
  | unsupportedOpcode (key : OpcodeKey)
  | invalidOperand (fault : OperandFault)
  deriving DecidableEq, Repr

def Fault.cause : Fault → DecodeCause
  | unsupportedOpcode key => .unsupportedOpcode key
  | invalidOperand fault => .invalidOperand fault

inductive Halt where
  | endOfCode
  | fault (reason : Fault)
  deriving DecidableEq, Repr

inductive Reader (α : Type) where
  | done (value : α)
  | fail (fault : Fault)
  | take (count : Nat) (next : List UInt8 → Reader α)

namespace Reader

def bind {α β : Type} : Reader α → (α → Reader β) → Reader β
  | done value, next => next value
  | fail fault, _ => fail fault
  | take count rest, next => take count fun bytes => (rest bytes).bind next

instance : Monad Reader where
  pure := done
  bind := bind

def invalid {α : Type} (fault : OperandFault) : Reader α := fail (.invalidOperand fault)

/-- The value read and the code that follows. -/
def run {α : Type} : Reader α → List UInt8 → Except Halt (α × List UInt8)
  | done value, code => .ok (value, code)
  | fail fault, _ => .error (.fault fault)
  | take count next, code =>
    if count ≤ code.length then (next (code.take count)).run (code.drop count)
    else .error .endOfCode

def littleEndian : List UInt8 → Nat
  | [] => 0
  | byte :: rest => byte.toNat + 256 * littleEndian rest

/-- A number of so many bytes, lowest byte first. -/
def number (count : Nat) : Reader Nat := take count fun bytes => done (littleEndian bytes)

def byte : Reader UInt8 := take 1 fun bytes => done (bytes.headD 0)

@[simp] theorem run_pure {α : Type} (value : α) (code : List UInt8) :
    (pure value : Reader α).run code = .ok (value, code) := rfl

theorem run_bind {α β : Type} (reader : Reader α) (next : α → Reader β) (code : List UInt8) :
    (reader >>= next).run code = reader.run code >>= fun read => (next read.1).run read.2 := by
  change (reader.bind next).run code = _
  induction reader generalizing code with
  | done value => rfl
  | fail fault => rfl
  | take count rest ih =>
    by_cases enough : count ≤ code.length
    · simp only [bind, run, enough, if_true]
      exact ih _ _
    · simp only [bind, run, enough, if_false]
      rfl

end Reader
end IA32
