import Chime.Notation.Lexeme

/-!
# Directives

A directive is an opening byte with its operand. Reading one moves past it, with one exception:
where a note or a pause has digits, the last byte of its operand is left standing. That byte is
a digit or a dot, which open nothing, so the next reading passes over it.
-/

set_option autoImplicit false

namespace Chime

open Lexeme (Operand)

inductive Directive where
  | lower
  | raise
  | octave (octave : Octave)
  | length (denominator : Float32)
  | tempo (beats : Float32)
  | pause (operand : Operand)
  | note (pitch : Pitch) (operand : Operand)
  | nothing
  deriving DecidableEq

namespace Directive

/-- The number after `L` or `T`. Where no digit follows it is zero, and the byte there is lost. -/
def control : Bytes → Float32 × Bytes
  | [] => (0, [])
  | byte :: rest => if Byte.isDigit byte then Lexeme.number (byte :: rest) else (0, rest)

theorem control_suffix (bytes : Bytes) : (control bytes).2 <:+ bytes := by
  unfold control
  split
  · exact List.suffix_rfl
  · split
    · exact Lexeme.number_suffix _
    · exact List.suffix_cons _ _

/-- The length of a note or a pause, leaving the last byte of it where it has digits. -/
def operand (bytes : Bytes) : Operand × Bytes :=
  let read := Lexeme.length bytes
  let digits := (bytes.takeWhile Byte.isDigit).length
  let width := digits + if read.1.dotted then 1 else 0
  (read.1, if digits = 0 then read.2 else bytes.drop (width - 1))

theorem operand_suffix (bytes : Bytes) : (operand bytes).2 <:+ bytes := by
  simp only [operand]
  split
  · exact Lexeme.length_suffix _
  · exact List.drop_suffix _ _

def read (byte : UInt8) (bytes : Bytes) : Directive × Bytes :=
  match Opening.ofByte byte with
  | .lower => (lower, bytes)
  | .raise => (raise, bytes)
  | .octave =>
    match Lexeme.octave bytes with
    | .ok (o, rest) => (octave o, rest)
    | .error _ => (nothing, bytes)
  | .length => (length (control bytes).1, (control bytes).2)
  | .tempo => (tempo (control bytes).1, (control bytes).2)
  | .pause => (pause (operand bytes).1, (operand bytes).2)
  | .letter l =>
    let sign := Lexeme.accidental bytes
    (note ⟨l, sign.1⟩ (operand sign.2).1, (operand sign.2).2)
  | .nothing => (nothing, bytes)

theorem read_suffix (byte : UInt8) (bytes : Bytes) : (read byte bytes).2 <:+ bytes := by
  unfold read
  split
  · exact List.suffix_rfl
  · exact List.suffix_rfl
  · split
    next h => exact Lexeme.octave_suffix h
    next => exact List.suffix_rfl
  · exact control_suffix _
  · exact control_suffix _
  · exact operand_suffix _
  · exact (operand_suffix _).trans (Lexeme.accidental_suffix _)
  · exact List.suffix_rfl

theorem length_read_lt (byte : UInt8) (bytes : Bytes) :
    (read byte bytes).2.length < (byte :: bytes).length :=
  Nat.lt_succ_of_le (read_suffix byte bytes).length_le

end Directive

end Chime
