set_option autoImplicit false

namespace IA32.Hex

def digits (value : Nat) : String := String.ofList (Nat.toDigits 16 value)

def unsigned (value : Nat) : String := "0x" ++ digits value

/-- The sign of a negative number stands before the `0x`. -/
def signed (value : Int) : String :=
  if value < 0 then "-" ++ unsigned value.natAbs else unsigned value.natAbs

def byte (value : UInt8) : String :=
  if value < 16 then "0x0" ++ digits value.toNat else unsigned value.toNat

end IA32.Hex
