import Chime.Agenda
import Chime.Buzzer.Basic

/-!
# Views of a list of acts

The events reported as taken, the calls that reach the buzzer, the tones asked for and the times
told. Each view is read off the acts of any run, one act after the other.
-/

set_option autoImplicit false

namespace Chime

namespace Act

def took? : Act → Option Event
  | say (.took event _) => some event
  | _ => none

def sound? : Act → Option (Hertz × Duration)
  | sound hz duration => some (hz, duration)
  | _ => none

def tick? : Act → Option Instant
  | tick now => some now
  | _ => none

def taken (acts : List Act) : List Event := acts.filterMap took?

def calls (acts : List Act) : List Act := acts.filter isCall

def sounds (acts : List Act) : List (Hertz × Duration) := acts.filterMap sound?

def ticks (acts : List Act) : List Instant := acts.filterMap tick?

@[simp] theorem taken_nil : taken [] = [] := rfl

@[simp] theorem taken_tick (now : Instant) (acts : List Act) :
    taken (.tick now :: acts) = taken acts := rfl

@[simp] theorem taken_took (event : Event) (now : Instant) (acts : List Act) :
    taken (.say (.took event now) :: acts) = event :: taken acts := rfl

@[simp] theorem taken_finished : taken [.say .finished] = [] := rfl

@[simp] theorem taken_acts (event : Event) : taken event.acts = [] := by
  cases event <;> rfl

@[simp] theorem taken_stop (p : Playback) : taken p.stop.2 = [] := by
  simp only [Playback.stop]
  split <;> rfl

theorem taken_append (as bs : List Act) : taken (as ++ bs) = taken as ++ taken bs :=
  List.filterMap_append

@[simp] theorem calls_nil : calls [] = [] := rfl

@[simp] theorem calls_tick (now : Instant) (acts : List Act) :
    calls (.tick now :: acts) = .tick now :: calls acts := rfl

@[simp] theorem calls_sound (hz : Hertz) (duration : Duration) (acts : List Act) :
    calls (.sound hz duration :: acts) = .sound hz duration :: calls acts := rfl

@[simp] theorem calls_say (message : Message) (acts : List Act) :
    calls (.say message :: acts) = calls acts := rfl

@[simp] theorem calls_acts (event : Event) : calls event.acts = event.acts := by
  cases event <;> rfl

@[simp] theorem calls_stop (p : Playback) : calls p.stop.2 = [] := by
  simp only [Playback.stop]
  split <;> rfl

theorem calls_append (as bs : List Act) : calls (as ++ bs) = calls as ++ calls bs :=
  List.filter_append as bs

@[simp] theorem sounds_nil : sounds [] = [] := rfl

@[simp] theorem sounds_tick (now : Instant) (acts : List Act) :
    sounds (.tick now :: acts) = sounds acts := rfl

@[simp] theorem sounds_say (message : Message) (acts : List Act) :
    sounds (.say message :: acts) = sounds acts := rfl

@[simp] theorem sounds_sound (hz : Hertz) (duration : Duration) (acts : List Act) :
    sounds (.sound hz duration :: acts) = (hz, duration) :: sounds acts := rfl

@[simp] theorem sounds_acts (event : Event) : sounds event.acts = event.sound?.toList := by
  cases event <;> rfl

theorem sounds_append (as bs : List Act) : sounds (as ++ bs) = sounds as ++ sounds bs :=
  List.filterMap_append

@[simp] theorem sounds_stop (p : Playback) : sounds p.stop.2 = [] := by
  simp only [Playback.stop]
  split <;> rfl

/-- The latest tone is asked for by one act, and none of the acts since asks for another. -/
theorem split_last_sound {acts : List Act} {tone : Hertz × Duration}
    (h : (sounds acts).getLast? = some tone) :
    ∃ before after, acts = before ++ .sound tone.1 tone.2 :: after ∧ sounds after = [] := by
  obtain ⟨earlier,he⟩ := List.getLast?_eq_some_iff.mp h
  obtain ⟨before,rest,rfl,_,hr⟩ := List.filterMap_eq_append_iff.mp he
  obtain ⟨between,act,after,rfl,_,ha,hn⟩ := List.filterMap_eq_cons_iff.mp hr
  cases act with
  | tick now => cases ha
  | sound hz duration =>
    cases ha
    exact ⟨before ++ between,after,(List.append_assoc ..).symm,hn⟩
  | say message => cases ha

@[simp] theorem ticks_nil : ticks [] = [] := rfl

@[simp] theorem ticks_tick (now : Instant) (acts : List Act) :
    ticks (.tick now :: acts) = now :: ticks acts := rfl

@[simp] theorem ticks_say (message : Message) (acts : List Act) :
    ticks (.say message :: acts) = ticks acts := rfl

@[simp] theorem ticks_sound (hz : Hertz) (duration : Duration) (acts : List Act) :
    ticks (.sound hz duration :: acts) = ticks acts := rfl

@[simp] theorem ticks_acts (event : Event) : ticks event.acts = [] := by
  cases event <;> rfl

theorem ticks_append (as bs : List Act) : ticks (as ++ bs) = ticks as ++ ticks bs :=
  List.filterMap_append

theorem filterMap_calls {α : Type} {view : Act → Option α} (h : ∀ m, view (.say m) = none)
    (acts : List Act) : (calls acts).filterMap view = acts.filterMap view := by
  induction acts with
  | nil => rfl
  | cons act acts ih =>
    cases act with
    | tick now => rw [calls_tick, List.filterMap_cons, List.filterMap_cons, ih]
    | sound hz duration => rw [calls_sound, List.filterMap_cons, List.filterMap_cons, ih]
    | say message => rw [calls_say, List.filterMap_cons_none (h message), ih]

theorem sounds_calls (acts : List Act) : sounds (calls acts) = sounds acts :=
  filterMap_calls (fun _ => rfl) acts

theorem ticks_calls (acts : List Act) : ticks (calls acts) = ticks acts :=
  filterMap_calls (fun _ => rfl) acts

end Act

theorem Buzzer.performAll_calls {σ : Type} (buzzer : Buzzer σ) (acts : List Act) (s : σ) :
    (buzzer.performAll (Act.calls acts) s).1 = (buzzer.performAll acts s).1 := by
  induction acts generalizing s with
  | nil => rfl
  | cons act acts ih =>
    cases act with
    | tick now => exact ih (buzzer.perform (.tick now) s).1
    | sound hz duration => exact ih (buzzer.perform (.sound hz duration) s).1
    | say message => exact ih s

/-- The same buzzer with every call to it written down. -/
def Buzzer.spied {σ : Type} (buzzer : Buzzer σ) : Buzzer (σ × List Act) where
  tone hz duration s :=
    let sounded := buzzer.tone hz duration s.1
    ((sounded.1, s.2 ++ [.sound hz duration]), sounded.2)
  update now s := (buzzer.update now s.1, s.2 ++ [.tick now])

theorem Buzzer.perform_spied {σ : Type} (buzzer : Buzzer σ) (act : Act) (s : σ)
    (log : List Act) :
    buzzer.spied.perform act (s, log) =
      (((buzzer.perform act s).1, log ++ Act.calls [act]), (buzzer.perform act s).2) := by
  cases act with
  | tick now => rfl
  | sound hz duration => rfl
  | say message =>
    rw [Act.calls_say, Act.calls_nil, List.append_nil]
    rfl

/-- A buzzer does and reports the same when it is spied upon, and the calls are those asked for. -/
theorem Buzzer.performAll_spied {σ : Type} (buzzer : Buzzer σ) (acts : List Act) (s : σ)
    (log : List Act) :
    buzzer.spied.performAll acts (s, log) =
      (((buzzer.performAll acts s).1, log ++ Act.calls acts), (buzzer.performAll acts s).2) := by
  induction acts generalizing s log with
  | nil => rw [Act.calls_nil, List.append_nil]; rfl
  | cons act acts ih =>
    have hc : Act.calls (act :: acts) = Act.calls [act] ++ Act.calls acts :=
      Act.calls_append [act] acts
    simp only [performAll]
    rw [perform_spied, ih, hc, List.append_assoc]

theorem Player.run_spied {σ : Type} (buzzer : Buzzer σ) (cs : List Command) (p : Playback) (s : σ)
    (log : List Act) :
    run buzzer.spied cs ⟨p, (s, log)⟩ =
      (⟨(run buzzer cs ⟨p, s⟩).1.playback,
        ((run buzzer cs ⟨p, s⟩).1.buzzer, log ++ Act.calls (p.run cs).2)⟩,
        (run buzzer cs ⟨p, s⟩).2) := by
  rw [run_eq, run_eq, Buzzer.performAll_spied]

end Chime
