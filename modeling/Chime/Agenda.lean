import Chime.Playback

/-!
# The agenda

What playback comes to for a buzzer: the events still ahead and the deadline before the next of
them. Loading a tune lists all its events at once, so the agenda knows neither bytes nor cursor.
Readings are plain numbers here, and an update says for itself what it asks of the buzzer.
-/

set_option autoImplicit false

namespace Chime

def Act.isCall : Act → Bool
  | tick _ => true
  | sound _ _ => true
  | say _ => false

structure Agenda where
  events : List Event
  deadline : Instant
  deriving DecidableEq

namespace Agenda

def empty : Agenda := ⟨[], .zero⟩

/-- The way back from `now` to the deadline is the longer one around the circle. -/
def waits (a : Agenda) (now : Instant) : Bool :=
  0x7fffffffffffffff < (now.ticks.toNat + UInt64.size - a.deadline.ticks.toNat) % UInt64.size

def update (a : Agenda) (now : Instant) : Agenda × List Act :=
  let deadline := fun ms : Float32 => (now.ticks.toNat + ms.toUInt32.toNat) % UInt64.size
  match a.events with
  | [] => (a, [.tick now])
  | event :: others =>
    if a.waits now then (a, [.tick now])
    else
      match event with
      | .tone note ms =>
        (⟨others, ⟨.ofNat (deadline ms)⟩⟩,
          [.tick now, .sound note.frequency ⟨(ms * 0.85).toUInt32.toUInt64⟩])
      | .rest ms => (⟨others, ⟨.ofNat (deadline ms)⟩⟩, [.tick now])

def step (command : Command) (a : Agenda) : Agenda × List Act :=
  match command with
  | .play tune now => (⟨(Cursor.start tune).events, now⟩, [])
  | .stop => (⟨[], a.deadline⟩, [])
  | .update now => a.update now

def run : List Command → Agenda → Agenda × List Act
  | [], a => (a, [])
  | c :: cs, a => ((run cs (a.step c).1).1, (a.step c).2 ++ (run cs (a.step c).1).2)

end Agenda

end Chime
