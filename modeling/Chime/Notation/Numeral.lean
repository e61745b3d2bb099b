import Chime.Notation.Lexeme

/-!
# Numerals

A run of decimal digits has an exact value. Readers compute it in singles, which keep every
whole number up to 2^24; a `Numeral` is a run that does not exceed that.
-/

set_option autoImplicit false

namespace Chime

namespace Byte

def decimalValue (digits : Bytes) : Nat :=
  digits.foldl (fun n byte => n * 10 + (byte.toNat - 48)) 0

theorem decimalValue_concat (digits : Bytes) (byte : UInt8) :
    decimalValue (digits ++ [byte]) = decimalValue digits * 10 + (byte.toNat - 48) := by
  simp [decimalValue]

end Byte

structure Numeral where
  digits : Bytes
  ne_nil : digits ≠ []
  isDigit : ∀ byte ∈ digits, Byte.isDigit byte = true
  value_le : Byte.decimalValue digits ≤ 16777216

def Numeral.value (n : Numeral) : Nat := Byte.decimalValue n.digits

end Chime
