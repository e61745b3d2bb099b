import Chime.Proofs.Calls

/-!
# Polls that come too early

A poll before the next event is due and before a tone is over only tells the speaker the time. That
time is told anew before any tone can count from it, so a run with such polls put into it anywhere
shows at each of its own steps what the run without them shows.
-/

set_option autoImplicit false

namespace Chime

namespace Speaker

def told (now : Instant) (s : Speaker) : Speaker := { s with now := now }

theorem update_of_early {now : Instant} {s : Speaker}
    (h : ∀ deadline ∈ s.silenceAt, now.isBefore deadline = true) :
    s.update now = s.told now := by
  unfold update
  split
  next deadline hd => rw [if_pos (h deadline hd)]; rfl
  next => rfl

theorem performAll_tick_told (now t : Instant) (acts : List Act) (s : Speaker) :
    buzzer.performAll (.tick now :: acts) (s.told t) =
      buzzer.performAll (.tick now :: acts) s := rfl

theorem performAll_told {acts : List Act} (h : Act.calls acts = []) (t : Instant) (s : Speaker) :
    buzzer.performAll acts (s.told t) =
      ((buzzer.performAll acts s).1.told t, (buzzer.performAll acts s).2) := by
  induction acts with
  | nil => rfl
  | cons act acts ih =>
    cases act with
    | tick now => cases h
    | sound hz duration => cases h
    | say message =>
      simp only [Buzzer.performAll, Buzzer.perform, ih h]

end Speaker

namespace Device

def told (now : Instant) (device : Device) : Device :=
  { device with player := ⟨device.player.playback, device.player.buzzer.told now⟩ }

/-- A poll that is before the next event and before the end of the tone that sounds, where there is
one to wait for. -/
def Early (device : Device) (now : Instant) : Prop :=
  (now.isBefore device.player.playback.deadline = true ∨
    device.player.playback.isPlaying = false) ∧
  ∀ deadline ∈ device.player.buzzer.silenceAt, now.isBefore deadline = true

instance (device : Device) (now : Instant) : Decidable (device.Early now) :=
  inferInstanceAs (Decidable (_ ∧ _))

structure View where
  pwm : Pwm
  isPlaying : Bool
  position : Nat
  settings : Settings
  nextMelody : Fin Melody.playlist.length
  edges : Edges
  outcome : Outcome
  deriving DecidableEq

def view (device : Device) (s : Step) : View :=
  let stepped := device.step s
  ⟨stepped.1.player.buzzer.pwm, stepped.1.player.playback.isPlaying,
    stepped.1.player.playback.cursor.position, stepped.1.player.playback.cursor.settings,
    stepped.1.nextMelody, stepped.1.edges, stepped.2⟩

def views : List Step → Device → List View
  | [], _ => []
  | s :: ss, device => device.view s :: views ss (device.step s).1

inductive Move where
  | own (s : Step)
  | extra (now : Instant)
  deriving DecidableEq

def Move.step : Move → Step
  | own s => s
  | extra now => .poll now

def Move.own? : Move → Option Step
  | own s => some s
  | extra _ => none

def own (moves : List Move) : List Step := moves.filterMap Move.own?

def padded (moves : List Move) : List Step := moves.map Move.step

def Padded : List Move → Device → Prop
  | [], _ => True
  | .own s :: moves, device => Padded moves (device.step s).1
  | .extra now :: moves, device => device.Early now ∧ Padded moves (device.step (.poll now)).1

instance decidablePadded : (moves : List Move) → (device : Device) →
    Decidable (Padded moves device)
  | [], _ => isTrue trivial
  | .own s :: moves, device => decidablePadded moves (device.step s).1
  | .extra now :: moves, device =>
    have := decidablePadded moves (device.step (.poll now)).1
    inferInstanceAs (Decidable (device.Early now ∧ Padded moves (device.step (.poll now)).1))

/-- What can be seen at the run's own steps while the polls put in are run as well. -/
def ownViews : List Move → Device → List View
  | [], _ => []
  | .own s :: moves, device => device.view s :: ownViews moves (device.step s).1
  | .extra now :: moves, device => ownViews moves (device.step (.poll now)).1

theorem told_now (device : Device) : device.told device.player.buzzer.now = device := rfl

theorem step_poll_of_early {device : Device} {now : Instant} (h : device.Early now) :
    device.step (.poll now) = (device.told now, ⟨[⟨.poll, pollPeriod⟩], []⟩) := by
  have hd : device.player.playback.isDue now = false := by
    rcases h.1 with hb | hp
    · simp [Playback.isDue, hb]
    · simp [Playback.isDue, hp]
  have hp : device.player.playback.step (.update now) = (device.player.playback, [.tick now]) :=
    Playback.update_of_not_isDue hd
  have hs : device.player.step Speaker.buzzer (.update now) =
      (⟨device.player.playback, device.player.buzzer.told now⟩, []) := by
    rw [Player.step, hp, ← Speaker.update_of_early h.2]
    rfl
  rw [step, command, hs]
  rfl

/-- A poll tells the time before it asks for anything. -/
theorem step_poll_told (now t : Instant) (device : Device) :
    (device.told t).step (.poll now) = device.step (.poll now) := by
  have hs : (device.told t).player.step Speaker.buzzer (.update now) =
      device.player.step Speaker.buzzer (.update now) := by
    have hp : ∃ acts, (device.player.playback.step (.update now)).2 = .tick now :: acts := by
      rcases device.player.playback.update_cases now with
        ⟨_,hu⟩ | ⟨event,behind,_,_,hu⟩ | ⟨behind,_,_,hu⟩ <;>
        exact ⟨_,congrArg Prod.snd hu⟩
    obtain ⟨acts,ha⟩ := hp
    simp only [Player.step, told, ha, Speaker.performAll_tick_told]
  simp only [step, command, hs]
  rfl

theorem step_told_of_no_poll {s : Step} (h : s.poll? = none) (t : Instant) (device : Device) :
    (device.told t).step s = ((device.step s).1.told t, (device.step s).2) := by
  have hstop : (device.told t).command .stop =
      ((device.command .stop).1.told t, (device.command .stop).2) := by
    have hs := Speaker.performAll_told (Act.calls_stop device.player.playback) t
      device.player.buzzer
    simp only [command, Player.step, Playback.step, told, hs]
  cases s with
  | poll now => cases h
  | edge => rfl
  | buttons a b now =>
    cases b with
    | true => cases a <;> (simp only [step, hstop])
    | false => cases a <;> rfl

/-- Devices whose speakers differ in the time told take steps that differ in no more. -/
theorem step_told (s : Step) (t : Instant) (device : Device) :
    ∃ u, (device.told t).step s = ((device.step s).1.told u, (device.step s).2) := by
  cases hp : s.poll? with
  | none => exact ⟨t,step_told_of_no_poll hp t device⟩
  | some now =>
    rw [Step.eq_poll hp, step_poll_told]
    exact ⟨_,Prod.ext (told_now _).symm rfl⟩

theorem view_told (s : Step) (t : Instant) (device : Device) :
    (device.told t).view s = device.view s := by
  obtain ⟨u,hu⟩ := device.step_told s t
  simp only [view, hu]
  rfl

theorem ownViews_told {moves : List Move} {device : Device} {t : Instant}
    (h : Padded moves (device.told t)) :
    ownViews moves (device.told t) = views (own moves) device ∧
      ∃ u, (run (padded moves) (device.told t)).1 = (run (own moves) device).1.told u := by
  induction moves generalizing device t with
  | nil => exact ⟨rfl,t,rfl⟩
  | cons move moves ih =>
    cases move with
    | own s =>
      obtain ⟨u,hu⟩ := device.step_told s t
      rw [Padded, hu] at h
      obtain ⟨hv,hr⟩ := ih h
      constructor
      · rw [ownViews, hu, hv, view_told]
        rfl
      · simp only [padded, List.map_cons, Move.step, run, hu]
        exact hr
    | extra now =>
      obtain ⟨he,h⟩ := h
      rw [step_poll_of_early he] at h
      obtain ⟨hv,hr⟩ := @ih device now h
      constructor
      · rw [ownViews, step_poll_of_early he]
        exact hv
      · simp only [padded, List.map_cons, Move.step, run, step_poll_of_early he]
        exact hr

theorem early_of_padded {front rest : List Move} {now : Instant} {device : Device}
    (h : Padded (front ++ .extra now :: rest) device) :
    (run (padded front) device).1.Early now := by
  induction front generalizing device with
  | nil => exact h.1
  | cons move front ih =>
    cases move with
    | own s => exact ih h
    | extra told => exact ih h.2

end Device

/-- Polls may be put into a run in any number and at any places where they come early. Every step of
the run shows what it shows without them, each of them asks for the next poll and does nothing else
but tell the speaker the time, and at the end that time is all that may differ. -/
theorem early_polls_change_nothing (moves : List Device.Move) (device : Device)
    (h : Device.Padded moves device) :
    Device.ownViews moves device = Device.views (Device.own moves) device ∧
    (∀ front now rest, moves = front ++ .extra now :: rest →
      let reached := (Device.run (Device.padded front) device).1
      reached.step (.poll now) = (reached.told now, ⟨[⟨.poll, Device.pollPeriod⟩], []⟩)) ∧
    ∃ now, (Device.run (Device.padded moves) device).1 =
      (Device.run (Device.own moves) device).1.told now := by
  obtain ⟨hv,hr⟩ := Device.ownViews_told (t := device.player.buzzer.now) h
  refine ⟨hv,?_,hr⟩
  rintro front now rest rfl
  exact Device.step_poll_of_early (Device.early_of_padded h)

/-- A poll before the first note, two while it sounds, the second of them back in time, and one
after a stop that leaves it sounding: it is switched off by the same poll with them and without. -/
theorem early_polls_change_nothing_around_a_tone :
    let moves : List Device.Move :=
      [.own (.buttons true false ⟨0⟩), .extra ⟨18446744073709551615⟩, .own (.poll ⟨0⟩),
        .extra ⟨100⟩, .extra ⟨50⟩, .own (.buttons false true ⟨120⟩), .extra ⟨200⟩,
        .own (.poll ⟨364⟩)]
    Device.Padded moves .initial ∧
      (Device.ownViews moves .initial).map Device.View.pwm =
        [⟨false, 32767, 0⟩, ⟨true, 1908, 954⟩, ⟨true, 1908, 954⟩, ⟨false, 1908, 954⟩] := by
  intro moves
  have h : Device.Padded moves .initial := by decide +kernel
  obtain ⟨hv,_,_⟩ := early_polls_change_nothing moves .initial h
  rw [hv]
  exact ⟨h,by decide +kernel⟩

end Chime
