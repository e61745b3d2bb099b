import Chime.Buzzer.Basic

/-!
# Recorders

A buzzer that makes no sound and writes down what it is asked for, with the time it was last
told.
-/

set_option autoImplicit false

namespace Chime

structure RecordedTone where
  now : Instant
  hz : Hertz
  duration : Duration
  deriving DecidableEq, Repr

structure Recorder where
  now : Instant
  updates : Nat
  tones : List RecordedTone
  deriving DecidableEq, Repr

namespace Recorder

def blank : Recorder := ⟨.zero, 0, []⟩

def tone (hz : Hertz) (duration : Duration) (r : Recorder) : Recorder × List Notice :=
  ({ r with tones := r.tones ++ [⟨r.now, hz, duration⟩] }, [])

def update (now : Instant) (r : Recorder) : Recorder :=
  { r with now := now, updates := r.updates + 1 }

def buzzer : Buzzer Recorder := { tone := tone, update := update }

def timeless : Buzzer Recorder := { tone := tone }

end Recorder

end Chime
