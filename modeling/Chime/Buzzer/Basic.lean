import Chime.Playback

/-!
# Buzzers

A buzzer is asked for tones and told the time. It has a state of its own and may report to the
device's channel; it cannot reach the playback that drives it.
-/

set_option autoImplicit false

namespace Chime

structure Buzzer (σ : Type) where
  tone : Hertz → Duration → σ → σ × List Notice
  update : Instant → σ → σ := fun _ s => s

namespace Buzzer

variable {σ : Type}

def perform (buzzer : Buzzer σ) : Act → σ → σ × List Entry
  | .tick now, s => (buzzer.update now s, [])
  | .sound hz duration, s =>
    let sounded := buzzer.tone hz duration s
    (sounded.1, sounded.2.map .device)
  | .say message, s => (s, [.playback message])

def performAll (buzzer : Buzzer σ) : List Act → σ → σ × List Entry
  | [], s => (s, [])
  | act :: acts, s =>
    let first := buzzer.perform act s
    let others := buzzer.performAll acts first.1
    (others.1, first.2 ++ others.2)

theorem performAll_append (buzzer : Buzzer σ) (as bs : List Act) (s : σ) :
    buzzer.performAll (as ++ bs) s =
      ((buzzer.performAll bs (buzzer.performAll as s).1).1,
        (buzzer.performAll as s).2 ++ (buzzer.performAll bs (buzzer.performAll as s).1).2) := by
  induction as generalizing s with
  | nil => rfl
  | cons a as ih => simp [performAll, ih, List.append_assoc]

end Buzzer

structure Player (σ : Type) where
  playback : Playback
  buzzer : σ

namespace Player

variable {σ : Type}

def ofBuzzer (s : σ) : Player σ := ⟨.initial, s⟩

def step (buzzer : Buzzer σ) (command : Command) (player : Player σ) : Player σ × List Entry :=
  let played := player.playback.step command
  let sounded := buzzer.performAll played.2 player.buzzer
  (⟨played.1, sounded.1⟩, sounded.2)

def run (buzzer : Buzzer σ) : List Command → Player σ → Player σ × List Entry
  | [], player => (player, [])
  | c :: cs, player =>
    let first := player.step buzzer c
    let others := run buzzer cs first.1
    (others.1, first.2 ++ others.2)

/-- A run of the player is a run of playback whose acts the buzzer performs. -/
theorem run_eq (buzzer : Buzzer σ) (cs : List Command) (player : Player σ) :
    run buzzer cs player =
      (⟨(player.playback.run cs).1, (buzzer.performAll (player.playback.run cs).2 player.buzzer).1⟩,
        (buzzer.performAll (player.playback.run cs).2 player.buzzer).2) := by
  induction cs generalizing player with
  | nil => rfl
  | cons c cs ih => simp [run, ih, step, Playback.run, Buzzer.performAll_append]

end Player

end Chime
