import Chime.Cursor
import Chime.Journal

/-!
# Playback

Playback holds a cursor and the deadline before which no further event is taken. A command
changes it and yields acts: the buzzer is told the time or asked for a tone, and the journal is
told what happened. Nothing comes back from the buzzer, so playback does not depend on what the
buzzer does.
-/

set_option autoImplicit false

namespace Chime

inductive Command where
  | play (tune : Tune) (now : Instant)
  | stop
  | update (now : Instant)
  deriving DecidableEq

inductive Act where
  | tick (now : Instant)
  | sound (hz : Hertz) (duration : Duration)
  | say (message : Message)
  deriving DecidableEq

def Event.acts (event : Event) : List Act :=
  match event.sound? with
  | some (hz, duration) => [.sound hz duration]
  | none => []

structure Playback where
  cursor : Cursor
  deadline : Instant

namespace Playback

def initial : Playback := ⟨.start .empty, .zero⟩

def isPlaying (p : Playback) : Bool := p.cursor.isPlaying

def isDue (p : Playback) (now : Instant) : Bool := !now.isBefore p.deadline && p.isPlaying

def play (tune : Tune) (now : Instant) : Playback × List Act :=
  (⟨.start tune, now⟩, [.say (.started tune.length)])

/-- Drops the tune and keeps the deadline. A tone that sounds is not cut short. -/
def stop (p : Playback) : Playback × List Act :=
  (⟨.start .empty, p.deadline⟩,
    if p.isPlaying then [.say (.stopped p.cursor.position)] else [])

/-- Takes one event, if one is left. The next deadline counts from now, not from the last one. -/
def take (p : Playback) (now : Instant) : Playback × List Act :=
  match p.cursor.next with
  | (some event, behind) => (⟨behind, now + event.slot⟩, .say (.took event now) :: event.acts)
  | (none, behind) => (⟨behind, p.deadline⟩, [.say .finished])

def update (p : Playback) (now : Instant) : Playback × List Act :=
  if p.isDue now then ((p.take now).1, .tick now :: (p.take now).2) else (p, [.tick now])

def step (command : Command) (p : Playback) : Playback × List Act :=
  match command with
  | .play tune now => play tune now
  | .stop => p.stop
  | .update now => p.update now

def run : List Command → Playback → Playback × List Act
  | [], p => (p, [])
  | c :: cs, p => ((run cs (p.step c).1).1, (p.step c).2 ++ (run cs (p.step c).1).2)

theorem run_append (cs ds : List Command) (p : Playback) :
    run (cs ++ ds) p =
      ((run ds (run cs p).1).1, (run cs p).2 ++ (run ds (run cs p).1).2) := by
  induction cs generalizing p with
  | nil => rfl
  | cons c cs ih => simp [run, ih, List.append_assoc]

theorem update_of_not_isDue {p : Playback} {now : Instant} (h : p.isDue now = false) :
    p.update now = (p, [.tick now]) := by
  simp [update, h]

theorem update_of_isDue {p : Playback} {now : Instant} (h : p.isDue now = true) :
    p.update now = ((p.take now).1, .tick now :: (p.take now).2) := by
  simp [update, h]

end Playback

end Chime
