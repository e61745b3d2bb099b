import Chime.Buzzer.Recorder
import Chime.Device
import Chime.Proofs.Silence
import Chime.Proofs.Update

/-!
# What a device asks of its player

A step of the device makes one call of the player or none, and the device's speaker performs the
acts that playback answers with. So a run of the device is a run of its player, whatever else the
steps do, and the tones that the speaker reports are those that any buzzer would have been asked
for.
-/

set_option autoImplicit false

namespace Chime

/-- The tones asked for, each at the time told last before it. -/
def Act.toned : List Act → Instant → List RecordedTone
  | [], _ => []
  | .tick now :: acts, _ => toned acts now
  | .sound hz duration :: acts, t => ⟨t, hz, duration⟩ :: toned acts t
  | .say _ :: acts, t => toned acts t

theorem Act.toned_append (as bs : List Act) (t : Instant) :
    toned (as ++ bs) t = toned as t ++ toned bs (Speaker.latest as t) := by
  induction as generalizing t with
  | nil => rfl
  | cons act as ih =>
    cases act with
    | tick now => exact ih now
    | sound hz duration => exact congrArg (⟨t, hz, duration⟩ :: ·) (ih t)
    | say message => exact ih t

theorem Act.toned_calls (acts : List Act) (t : Instant) : toned (calls acts) t = toned acts t := by
  induction acts generalizing t with
  | nil => rfl
  | cons act acts ih =>
    cases act with
    | tick now => exact ih now
    | sound hz duration => exact congrArg (⟨t, hz, duration⟩ :: ·) (ih t)
    | say message => exact ih t

theorem Act.map_toned (acts : List Act) (t : Instant) :
    (toned acts t).map (fun tone => (tone.hz, tone.duration)) = sounds acts := by
  induction acts generalizing t with
  | nil => rfl
  | cons act acts ih =>
    cases act with
    | tick now => exact ih now
    | sound hz duration => exact congrArg ((hz, duration) :: ·) (ih t)
    | say message => exact ih t

theorem Act.toned_eq_nil_iff {acts : List Act} {t : Instant} :
    toned acts t = [] ↔ sounds acts = [] := by
  rw [← map_toned acts t, List.map_eq_nil_iff]

theorem Recorder.tones_performAll (acts : List Act) (r : Recorder) :
    (buzzer.performAll acts r).1.tones = r.tones ++ Act.toned acts r.now := by
  induction acts generalizing r with
  | nil => simp [Buzzer.performAll, Act.toned]
  | cons act acts ih =>
    cases act with
    | tick now => exact ih (r.update now)
    | sound hz duration =>
      have hi := ih (r.tone hz duration).1
      rw [show (r.tone hz duration).1.tones = r.tones ++ [⟨r.now, hz, duration⟩] from rfl,
        List.append_assoc] at hi
      exact hi
    | say message => exact ih r

def Entry.tone? : Entry → Option (Hertz × Duration)
  | .device (.tone hz duration) => some (hz, duration)
  | _ => none

def Entry.tones (journal : List Entry) : List (Hertz × Duration) := journal.filterMap tone?

theorem Speaker.tones_performAll (acts : List Act) (s : Speaker) :
    Entry.tones (buzzer.performAll acts s).2 = Act.sounds acts := by
  induction acts generalizing s with
  | nil => rfl
  | cons act acts ih =>
    cases act with
    | tick now => exact ih (s.update now)
    | sound hz duration => exact congrArg ((hz, duration) :: ·) (ih (s.tone hz duration).1)
    | say message => exact ih s

theorem Player.run_append {σ : Type} (buzzer : Buzzer σ) (cs ds : List Command)
    (player : Player σ) :
    (run buzzer (cs ++ ds) player).1 = (run buzzer ds (run buzzer cs player).1).1 := by
  induction cs generalizing player with
  | nil => rfl
  | cons c cs ih => exact ih (player.step buzzer c).1

namespace Device

def command? (device : Device) : Step → Option Command
  | .poll now => some (.update now)
  | .edge => none
  | .buttons true false now => some (.play (Melody.playlist.get device.nextMelody).tune now)
  | .buttons _ true _ => some .stop
  | .buttons false false _ => none

def commands : List Step → Device → List Command
  | [], _ => []
  | s :: ss, device => (device.command? s).toList ++ commands ss (device.step s).1

def stepActs (device : Device) (s : Step) : List Act :=
  (device.player.playback.run (device.command? s).toList).2

def acts : List Step → Device → List Act
  | [], _ => []
  | s :: ss, device => device.stepActs s ++ acts ss (device.step s).1

/-- The tones that a run reports, each with the speaker's time after the step that started it. -/
def started : List Step → Device → List RecordedTone
  | [], _ => []
  | s :: ss, device =>
    let stepped := device.step s
    (Entry.tones stepped.2.journal).map
      (fun tone => ⟨stepped.1.player.buzzer.now, tone.1, tone.2⟩) ++ started ss stepped.1

def Step.poll? : Step → Option Instant
  | poll now => some now
  | _ => none

theorem Step.eq_poll {s : Step} {now : Instant} (h : s.poll? = some now) : s = .poll now := by
  cases s with
  | poll told => exact congrArg poll (Option.some.inj h)
  | edge => cases h
  | buttons a b told => cases h

def polls (ss : List Step) : List Instant := ss.filterMap Step.poll?

theorem step_player (s : Step) (device : Device) :
    (device.step s).1.player =
      (Player.run Speaker.buzzer (device.command? s).toList device.player).1 := by
  cases s with
  | poll now => rfl
  | edge => rfl
  | buttons a b now => cases a <;> cases b <;> rfl

theorem run_player (ss : List Step) (device : Device) :
    (run ss device).1.player =
      (Player.run Speaker.buzzer (commands ss device) device.player).1 := by
  induction ss generalizing device with
  | nil => rfl
  | cons s ss ih => rw [commands, Player.run_append, ← step_player, ← ih, run]

theorem playback_step (s : Step) (device : Device) :
    (device.step s).1.player.playback =
      (device.player.playback.run (device.command? s).toList).1 := by
  rw [step_player, Player.run_eq]

theorem buzzer_step (s : Step) (device : Device) :
    (device.step s).1.player.buzzer =
      (Speaker.buzzer.performAll (device.stepActs s) device.player.buzzer).1 := by
  rw [step_player, Player.run_eq, stepActs]

theorem acts_eq (ss : List Step) (device : Device) :
    acts ss device = (device.player.playback.run (commands ss device)).2 := by
  induction ss generalizing device with
  | nil => rfl
  | cons s ss ih => rw [acts, commands, Playback.run_append, ih, playback_step, stepActs]

theorem buzzer_run (ss : List Step) (device : Device) :
    (run ss device).1.player.buzzer =
      (Speaker.buzzer.performAll (acts ss device) device.player.buzzer).1 := by
  rw [run_player, Player.run_eq, acts_eq]

theorem acts_append (ss ts : List Step) (device : Device) :
    acts (ss ++ ts) device = acts ss device ++ acts ts (run ss device).1 := by
  induction ss generalizing device with
  | nil => rfl
  | cons s ss ih => simp [acts, ih, run, List.append_assoc]

theorem stepActs_poll (now : Instant) (device : Device) :
    device.stepActs (.poll now) = (device.player.playback.update now).2 :=
  List.append_nil _

theorem calls_stepActs {s : Step} (h : s.poll? = none) (device : Device) :
    Act.calls (device.stepActs s) = [] := by
  cases s with
  | poll now => cases h
  | edge => rfl
  | buttons a b now =>
    have hs : Act.calls (device.player.playback.stop.2 ++ []) = [] := by
      rw [List.append_nil, Act.calls_stop]
    cases b with
    | true => cases a <;> exact hs
    | false => cases a <;> rfl

theorem buzzer_step_of_no_poll {s : Step} (h : s.poll? = none) (device : Device) :
    (device.step s).1.player.buzzer = device.player.buzzer := by
  rw [buzzer_step, ← Buzzer.performAll_calls, calls_stepActs h]
  rfl

theorem ticks_stepActs (s : Step) (device : Device) :
    Act.ticks (device.stepActs s) = s.poll?.toList := by
  cases h : s.poll? with
  | none =>
    rw [← Act.ticks_calls, calls_stepActs h]
    rfl
  | some now =>
    rw [Step.eq_poll h, stepActs_poll, Playback.ticks_update]
    rfl

theorem ticks_acts (ss : List Step) (device : Device) :
    Act.ticks (acts ss device) = polls ss := by
  induction ss generalizing device with
  | nil => rfl
  | cons s ss ih =>
    rw [acts, Act.ticks_append, ticks_stepActs, ih, polls, polls, List.filterMap_cons]
    cases s.poll? <;> rfl

theorem tones_step (s : Step) (device : Device) :
    Entry.tones (device.step s).2.journal = Act.sounds (device.stepActs s) := by
  cases s with
  | poll now =>
    rw [stepActs_poll]
    exact Speaker.tones_performAll _ _
  | edge => rfl
  | buttons a b now =>
    have hs : Entry.tones (device.command .stop).2 =
        Act.sounds (device.player.playback.stop.2 ++ []) := by
      rw [List.append_nil]
      exact Speaker.tones_performAll _ _
    cases b with
    | true => cases a <;> exact hs
    | false => cases a <;> rfl

/-- The tones of one step all have the time after it. -/
theorem toned_stepActs (s : Step) (device : Device) :
    Act.toned (device.stepActs s) device.player.buzzer.now =
      (Act.sounds (device.stepActs s)).map
        fun tone => ⟨(device.step s).1.player.buzzer.now, tone.1, tone.2⟩ := by
  rw [buzzer_step, Speaker.now_performAll]
  cases h : s.poll? with
  | none =>
    have hs : Act.sounds (device.stepActs s) = [] := by
      rw [← Act.sounds_calls, calls_stepActs h]
      rfl
    rw [hs, ← Act.toned_calls, calls_stepActs h]
    rfl
  | some now =>
    rw [Step.eq_poll h, stepActs_poll]
    rcases device.player.playback.update_cases now with
      ⟨_,hu⟩ | ⟨event,behind,_,_,hu⟩ | ⟨behind,_,_,hu⟩
    · rw [hu]
      rfl
    · rw [hu]
      cases event <;> rfl
    · rw [hu]
      rfl

theorem started_eq (ss : List Step) (device : Device) :
    started ss device = Act.toned (acts ss device) device.player.buzzer.now := by
  induction ss generalizing device with
  | nil => rfl
  | cons s ss ih =>
    rw [started, tones_step, ← toned_stepActs, ih, acts, Act.toned_append,
      ← Speaker.now_performAll, ← buzzer_step]

end Device

end Chime
