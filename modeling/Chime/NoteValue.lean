import Chime.Decimal.Shortest

/-!
# Note values

A note value divides a whole note of four beats; a dot adds half of it. At a tempo in beats per
minute it lasts a number of milliseconds. All arithmetic is that of singles, rounded after every
operation, so a tempo of zero lasts forever and the order of the operations is part of the
definition.
-/

set_option autoImplicit false

namespace Chime

structure NoteValue where
  denominator : Float32
  dotted : Bool
  deriving DecidableEq

namespace NoteValue

/-- A denominator of zero, of either sign, stands for none. -/
def resolve (denominator default : Float32) (dotted : Bool) : NoteValue :=
  ⟨if denominator == 0 then default else denominator, dotted⟩

def beats (value : NoteValue) : Float32 :=
  if value.dotted then 4 / value.denominator * 1.5 else 4 / value.denominator

def millis (value : NoteValue) (tempo : Float32) : Float32 :=
  60 / tempo * value.beats * 1000

def text (value : NoteValue) : String :=
  Decimal.text value.denominator ++ if value.dotted then "." else ""

end NoteValue

end Chime
