import Chime.Buzzer.Basic

/-!
# The speaker

A square wave from a pulse-width modulator. Its counter runs at 500 kHz up to `top`, which sets
the pitch, and the output is high for half of that. A tone switches it on and sets a deadline;
the first update that is not before the deadline switches it off. `coherent_performAll` ties the
switch to the deadline, whatever is asked.
-/

set_option autoImplicit false

namespace Chime

structure Pwm where
  enabled : Bool
  top : UInt32
  duty : UInt32
  deriving DecidableEq, Repr

namespace Pwm

def counterHz : UInt32 := 500000

def maxTop : UInt32 := 32767

/-- The binary logarithm of the divisor of the 16 MHz clock. -/
def prescaler : Nat := 5

def pin : Nat := 0

def idle : Pwm := ⟨false, maxTop, 0⟩

def topOf (hz : Hertz) : UInt32 := min (counterHz / hz) maxTop

def sounding (hz : Hertz) : Pwm := ⟨true, topOf hz, topOf hz / 2⟩

end Pwm

structure Speaker where
  pwm : Pwm
  now : Instant
  silenceAt : Option Instant
  deriving DecidableEq, Repr

namespace Speaker

def initial : Speaker := ⟨.idle, .zero, none⟩

/-- The deadline counts from the time of the last update. -/
def tone (hz : Hertz) (duration : Duration) (s : Speaker) : Speaker × List Notice :=
  (⟨.sounding hz, s.now, some (s.now + duration)⟩, [.tone hz duration])

def update (now : Instant) (s : Speaker) : Speaker :=
  match s.silenceAt with
  | some deadline =>
    if now.isBefore deadline then { s with now := now }
    else ⟨{ s.pwm with enabled := false }, now, none⟩
  | none => { s with now := now }

def buzzer : Buzzer Speaker := { tone := tone, update := update }

/-- The switch follows the deadline in every state that tones and updates lead to. -/
def Coherent (s : Speaker) : Prop := s.pwm.enabled = s.silenceAt.isSome

theorem coherent_initial : initial.Coherent := rfl

theorem coherent_tone (hz : Hertz) (duration : Duration) (s : Speaker) :
    (s.tone hz duration).1.Coherent := rfl

theorem coherent_update {s : Speaker} (h : s.Coherent) (now : Instant) :
    (s.update now).Coherent := by
  unfold update
  split
  next d hd =>
    split
    · exact h
    · rfl
  next => exact h

theorem coherent_perform {s : Speaker} (h : s.Coherent) (act : Act) :
    (buzzer.perform act s).1.Coherent := by
  cases act with
  | tick now => exact coherent_update h now
  | sound hz duration => exact coherent_tone hz duration s
  | say message => exact h

theorem coherent_performAll {s : Speaker} (h : s.Coherent) (acts : List Act) :
    (buzzer.performAll acts s).1.Coherent := by
  induction acts generalizing s with
  | nil => exact h
  | cons act acts ih => exact ih (coherent_perform h act)

end Speaker

end Chime
