import Chime.Buzzer.Speaker
import Chime.Melody

/-!
# The device

A speaker with two buttons. Polling drives the player and asks for the next poll; an edge on a
button asks for the buttons to be looked at once they have settled. Button A alone plays the
next melody of the playlist, button B stops whatever plays.
-/

set_option autoImplicit false

namespace Chime

inductive Task where
  | poll
  | buttons
  deriving DecidableEq, Repr

structure Request where
  task : Task
  delay : Duration
  deriving DecidableEq, Repr

/-- Raises an event (mode 1) when its pin goes from high to low (polarity 2). -/
structure Channel where
  pin : Nat
  polarity : Nat
  mode : Nat
  deriving DecidableEq, Repr

structure Edges where
  a : Bool
  b : Bool
  deriving DecidableEq, Repr

structure Device where
  player : Player Speaker
  nextMelody : Fin Melody.playlist.length
  edges : Edges

namespace Device

def pollPeriod : Duration := ⟨5⟩

def settleTime : Duration := ⟨50⟩

def channels : List Channel := [⟨14, 2, 1⟩, ⟨23, 2, 1⟩]

inductive Step where
  | poll (now : Instant)
  | edge
  | buttons (a b : Bool) (now : Instant)
  deriving DecidableEq

structure Outcome where
  requests : List Request
  journal : List Entry
  deriving DecidableEq

def initial : Device := ⟨.ofBuzzer .initial, ⟨0, by decide⟩, ⟨false, false⟩⟩

def bootOutcome : Outcome := ⟨[⟨.poll, ⟨0⟩⟩], [.device .ready]⟩

def raiseEdges (a b : Bool) (device : Device) : Device :=
  { device with edges := ⟨device.edges.a || a, device.edges.b || b⟩ }

def command (c : Command) (device : Device) : Device × List Entry :=
  let played := device.player.step Speaker.buzzer c
  ({ device with player := played.1 }, played.2)

def following (i : Fin Melody.playlist.length) : Fin Melody.playlist.length :=
  ⟨(i.val + 1) % Melody.playlist.length, Nat.mod_lt _ (by decide)⟩

def step : Step → Device → Device × Outcome
  | .poll now, device =>
    let polled := device.command (.update now)
    (polled.1, ⟨[⟨.poll, pollPeriod⟩], polled.2⟩)
  | .edge, device =>
    ({ device with edges := ⟨false, false⟩ }, ⟨[⟨.buttons, settleTime⟩], [.device .edge]⟩)
  | .buttons true false now, device =>
    let tune := Melody.playlist[device.nextMelody].tune
    let played := device.command (.play tune now)
    ({ played.1 with nextMelody := following device.nextMelody },
      ⟨[], .device (.melody device.nextMelody.val) :: played.2⟩)
  | .buttons _ true _, device =>
    let stopped := device.command .stop
    (stopped.1, ⟨[], .device .silence :: stopped.2⟩)
  | .buttons false false _, device => (device, ⟨[], []⟩)

def run : List Step → Device → Device × List Outcome
  | [], device => (device, [])
  | s :: ss, device =>
    let first := device.step s
    let others := run ss first.1
    (others.1, first.2 :: others.2)

theorem run_append (ss ts : List Step) (device : Device) :
    run (ss ++ ts) device =
      ((run ts (run ss device).1).1, (run ss device).2 ++ (run ts (run ss device).1).2) := by
  induction ss generalizing device with
  | nil => rfl
  | cons s ss ih => simp [run, ih]

end Device

end Chime
