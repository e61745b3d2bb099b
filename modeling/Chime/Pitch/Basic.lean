import Chime.Pitch.Octave

/-!
# Letters, pitches and notes

A pitch is a letter with an accidental and has a frequency in the middle octave. A note is a
pitch in an octave: each step away from the middle halves or doubles that frequency, and halving
drops the fraction.
-/

set_option autoImplicit false

namespace Chime

abbrev Hertz := UInt32

inductive Letter where
  | a | b | c | d | e | f | g
  deriving DecidableEq, Repr

namespace Letter

def byte : Letter → UInt8
  | a => 0x41
  | b => 0x42
  | c => 0x43
  | d => 0x44
  | e => 0x45
  | f => 0x46
  | g => 0x47

def ofByte (byte : UInt8) : Except PitchError Letter :=
  match byte with
  | 0x41 => .ok a
  | 0x42 => .ok b
  | 0x43 => .ok c
  | 0x44 => .ok d
  | 0x45 => .ok e
  | 0x46 => .ok f
  | 0x47 => .ok g
  | _ => .error .notALetter

theorem ofByte_byte (letter : Letter) : ofByte letter.byte = .ok letter := by
  cases letter <;> rfl

theorem eq_byte_of_ofByte {byte : UInt8} {letter : Letter} (h : ofByte byte = .ok letter) :
    byte = letter.byte := by
  unfold ofByte at h
  split at h <;> cases h <;> rfl

def text : Letter → String
  | a => "A"
  | b => "B"
  | c => "C"
  | d => "D"
  | e => "E"
  | f => "F"
  | g => "G"

end Letter

inductive Accidental where
  | natural
  | flat
  | sharp
  deriving DecidableEq, Repr, Inhabited

def Accidental.text : Accidental → String
  | natural => ""
  | flat => "♭"
  | sharp => "♯"

structure Pitch where
  letter : Letter
  accidental : Accidental
  deriving DecidableEq, Repr

namespace Pitch

/-- The frequency in the middle octave, to the nearest hertz. -/
def base : Pitch → Hertz
  | ⟨.a, .natural⟩ => 440
  | ⟨.a, .flat⟩ => 415
  | ⟨.a, .sharp⟩ => 466
  | ⟨.b, .natural⟩ => 494
  | ⟨.b, .flat⟩ => 466
  | ⟨.b, .sharp⟩ => 523
  | ⟨.c, .natural⟩ => 262
  | ⟨.c, .flat⟩ => 247
  | ⟨.c, .sharp⟩ => 277
  | ⟨.d, .natural⟩ => 294
  | ⟨.d, .flat⟩ => 277
  | ⟨.d, .sharp⟩ => 311
  | ⟨.e, .natural⟩ => 330
  | ⟨.e, .flat⟩ => 311
  | ⟨.e, .sharp⟩ => 349
  | ⟨.f, .natural⟩ => 349
  | ⟨.f, .flat⟩ => 330
  | ⟨.f, .sharp⟩ => 370
  | ⟨.g, .natural⟩ => 392
  | ⟨.g, .flat⟩ => 370
  | ⟨.g, .sharp⟩ => 415

def frequency (pitch : Pitch) (octave : Octave) : Hertz :=
  if octave.number < Octave.middle.number then
    pitch.base >>> (Octave.middle.number - octave.number).toUInt32
  else if Octave.middle.number < octave.number then
    pitch.base <<< (octave.number - Octave.middle.number).toUInt32
  else pitch.base

def text (pitch : Pitch) : String := pitch.letter.text ++ pitch.accidental.text

end Pitch

structure Note where
  pitch : Pitch
  octave : Octave
  deriving DecidableEq, Repr

def Note.frequency (note : Note) : Hertz := note.pitch.frequency note.octave

def Note.text (note : Note) : String := note.pitch.text ++ note.octave.text

end Chime
