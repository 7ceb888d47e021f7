set_option autoImplicit false

namespace IA32

/-- Conditions on the flags, in encoding order. -/
inductive Condition where
  | overflow
  | notOverflow
  | below
  | aboveOrEqual
  | equal
  | notEqual
  | belowOrEqual
  | above
  | sign
  | notSign
  | parity
  | notParity
  | less
  | greaterOrEqual
  | lessOrEqual
  | greater
  deriving DecidableEq, Repr

namespace Condition

def all : Vector Condition 16 :=
  #v[overflow, notOverflow, below, aboveOrEqual, equal, notEqual, belowOrEqual, above,
    sign, notSign, parity, notParity, less, greaterOrEqual, lessOrEqual, greater]

def ofCode (code : Nat) : Condition := all[code % 16]

end Condition

inductive Flow where
  | jump
  | conditionalJump (condition : Condition)
  | call
  | ret
  deriving DecidableEq, Repr

end IA32
