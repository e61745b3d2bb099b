import Chime.Buzzer.Speaker
import Chime.Proofs.Acts

/-!
# A new tune forgets the old one

Whatever a player has been through, a new tune starts it over: its cursor, its settings and its
deadline are those of the tune and the time alone. From there on two players that get the same
calls show the same, whatever their buzzers are, since a buzzer is told and asked and never heard.
-/

set_option autoImplicit false

namespace Chime

variable {σ τ : Type}

def Act.message? : Act → Option Message
  | say message => some message
  | _ => none

def Entry.message? : Entry → Option Message
  | .playback message => some message
  | .device _ => none

theorem Entry.messages_notices (notices : List Notice) :
    (notices.map Entry.device).filterMap message? = [] := by
  rw [List.filterMap_map]
  exact List.filterMap_eq_nil_iff.mpr fun _ _ => rfl

theorem Buzzer.messages_performAll (buzzer : Buzzer σ) (acts : List Act) (s : σ) :
    (buzzer.performAll acts s).2.filterMap Entry.message? = acts.filterMap Act.message? := by
  induction acts generalizing s with
  | nil => rfl
  | cons act acts ih =>
    rw [performAll, List.filterMap_append, ih]
    cases act with
    | tick now => rfl
    | sound hz duration =>
      rw [perform, Entry.messages_notices]
      rfl
    | say message => rfl

structure Observation where
  isPlaying : Bool
  position : Nat
  settings : Settings
  messages : List Message
  calls : List Act
  deriving DecidableEq

def Playback.observe (p : Playback) (c : Command) : Observation :=
  let stepped := p.step c
  ⟨stepped.1.isPlaying, stepped.1.cursor.position, stepped.1.cursor.settings,
    stepped.2.filterMap Act.message?, Act.calls stepped.2⟩

namespace Player

/-- The calls are those that a spied buzzer writes down. -/
def observe (buzzer : Buzzer σ) (c : Command) (player : Player σ) : Observation :=
  let stepped := player.step buzzer c
  let spied := step buzzer.spied c ⟨player.playback, (player.buzzer, [])⟩
  ⟨stepped.1.playback.isPlaying, stepped.1.playback.cursor.position,
    stepped.1.playback.cursor.settings, stepped.2.filterMap Entry.message?, spied.1.buzzer.2⟩

def observations (buzzer : Buzzer σ) : List Command → Player σ → List Observation
  | [], _ => []
  | c :: cs, player =>
    player.observe buzzer c :: observations buzzer cs (player.step buzzer c).1

theorem observe_eq (buzzer : Buzzer σ) (c : Command) (player : Player σ) :
    player.observe buzzer c = player.playback.observe c := by
  simp only [observe, step]
  rw [Buzzer.messages_performAll, Buzzer.performAll_spied, List.nil_append]
  rfl

theorem observations_congr {a : Buzzer σ} {b : Buzzer τ} (cs : List Command) {p : Player σ}
    {q : Player τ} (h : p.playback = q.playback) :
    p.observations a cs = q.observations b cs := by
  induction cs generalizing p q with
  | nil => rfl
  | cons c cs ih =>
    have hs : (p.step a c).1.playback = (q.step b c).1.playback :=
      congrArg (fun playback => (playback.step c).1) h
    rw [observations, observations, observe_eq, observe_eq, h, ih hs]

end Player

/-- Two players of whatever past, each with a buzzer of its own, show the same at every call from
the one on that plays a new tune on both. -/
theorem play_forgets_the_past (a : Buzzer σ) (b : Buzzer τ) (p : Player σ) (q : Player τ)
    (tune : Tune) (now : Instant) (cs : List Command) :
    p.observations a (.play tune now :: cs) = q.observations b (.play tune now :: cs) := by
  have hp : p.observe a (.play tune now) = q.observe b (.play tune now) := by
    rw [Player.observe_eq, Player.observe_eq]
    rfl
  have hs : (p.step a (.play tune now)).1.playback = (q.step b (.play tune now)).1.playback := rfl
  rw [Player.observations, Player.observations, hp, Player.observations_congr cs hs]

example : (Player.ofBuzzer .initial).observations Speaker.buzzer
    [.play (.ofString "C") ⟨7⟩, .update ⟨7⟩] =
    [⟨true, 0, .initial, [.started 1], []⟩,
      ⟨false, 1, .initial, [.took (.tone ⟨⟨.c, .natural⟩, .middle⟩ 500) ⟨7⟩],
        [.tick ⟨7⟩, .sound 262 ⟨425⟩]⟩] := by
  decide +kernel

end Chime
