import Chime.Clock
import Chime.Notation.Directive

/-!
# Settings and events

Control directives change the settings; a note or a pause makes an event out of the settings as
they stand. An event occupies a slot of time, and a tone sounds for most of its slot.
-/

set_option autoImplicit false

namespace Chime

structure Settings where
  tempo : Float32
  octave : Octave
  defaultLength : Float32
  deriving DecidableEq

def Settings.initial : Settings := ⟨120, .middle, 4⟩

instance : Inhabited Settings := ⟨.initial⟩

inductive Event where
  | tone (note : Note) (millis : Float32)
  | rest (millis : Float32)
  deriving DecidableEq

namespace Event

/-- The part of a slot in which a tone sounds. -/
def articulation : Float32 := 0.85

def millis : Event → Float32
  | tone _ ms => ms
  | rest ms => ms

def slot (event : Event) : Duration := .ofMillis event.millis

theorem toNat_slot (event : Event) : event.slot.millis.toNat = event.millis.toUInt32.toNat := by
  simp [slot, Duration.ofMillis]

def sound? : Event → Option (Hertz × Duration)
  | tone note ms => some (note.frequency, .ofMillis (ms * articulation))
  | rest _ => none

def text : Event → String
  | tone note ms => note.text ++ " for " ++ Decimal.text ms ++ "ms"
  | rest ms => "rest for " ++ Decimal.text ms ++ "ms"

end Event

namespace Settings

/-- A default length of zero is ignored; a tempo of zero is not. -/
def apply (s : Settings) : Directive → Settings
  | .lower => { s with octave := s.octave.lower }
  | .raise => { s with octave := s.octave.raise }
  | .octave o => { s with octave := o }
  | .length n => if n == 0 then s else { s with defaultLength := n }
  | .tempo n => { s with tempo := n }
  | .pause _ => s
  | .note _ _ => s
  | .nothing => s

def millis (s : Settings) (operand : Lexeme.Operand) : Float32 :=
  (NoteValue.resolve operand.denominator s.defaultLength operand.dotted).millis s.tempo

def event? (s : Settings) : Directive → Option Event
  | .pause operand => some (.rest (s.millis operand))
  | .note pitch operand => some (.tone ⟨pitch, s.octave⟩ (s.millis operand))
  | _ => none

theorem apply_of_event? {s : Settings} {d : Directive} {e : Event} (h : s.event? d = some e) :
    s.apply d = s := by
  cases d with
  | pause _ => rfl
  | note _ _ => rfl
  | _ => cases h

end Settings

end Chime
