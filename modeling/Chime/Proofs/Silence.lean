import Chime.Buzzer.Speaker
import Chime.Proofs.Acts

/-!
# From one tone to the next

What the speaker does after a tone depends on that tone alone: the switch stays on as long as
every time that is told is before the deadline, and the first one that is not switches it off for
good. Tones before it leave no trace.
-/

set_option autoImplicit false

namespace Chime.Speaker

def latest : List Act → Instant → Instant
  | [], t => t
  | .tick now :: acts, _ => latest acts now
  | .sound _ _ :: acts, t => latest acts t
  | .say _ :: acts, t => latest acts t

@[simp] theorem latest_tick (now t : Instant) (acts : List Act) :
    latest (.tick now :: acts) t = latest acts now := rfl

@[simp] theorem performAll_tick (now : Instant) (acts : List Act) (s : Speaker) :
    (buzzer.performAll (.tick now :: acts) s).1 = (buzzer.performAll acts (s.update now)).1 := rfl

theorem now_performAll (acts : List Act) (s : Speaker) :
    (buzzer.performAll acts s).1.now = latest acts s.now := by
  induction acts generalizing s with
  | nil => rfl
  | cons act acts ih =>
    cases act with
    | tick now =>
      have hn : (s.update now).now = now := by
        unfold update
        split
        · split <;> rfl
        · rfl
      have hi := ih (s.update now)
      rw [hn] at hi
      exact hi
    | sound hz duration => exact ih (s.tone hz duration).1
    | say message => exact ih s

theorem latest_append (as bs : List Act) (t : Instant) :
    latest (as ++ bs) t = latest bs (latest as t) := by
  induction as generalizing t with
  | nil => rfl
  | cons act as ih => cases act <;> exact ih _

theorem latest_eq_getLast (acts : List Act) (t : Instant) :
    latest acts t = (Act.ticks acts).getLast?.getD t := by
  induction acts generalizing t with
  | nil => rfl
  | cons act acts ih =>
    cases act with
    | tick now =>
      have hi := ih now
      rw [Act.ticks_tick, List.getLast?_cons, Option.getD_some]
      exact hi
    | sound hz duration => exact ih t
    | say message => exact ih t

theorem performAll_idle {acts : List Act} (h : Act.sounds acts = []) (pwm : Pwm) (now : Instant) :
    (buzzer.performAll acts ⟨pwm, now, none⟩).1 = ⟨pwm, latest acts now, none⟩ := by
  induction acts generalizing now with
  | nil => rfl
  | cons act acts ih =>
    cases act with
    | tick told => exact ih h told
    | sound hz duration => cases h
    | say message => exact ih h now

/-- The first time that is not before the deadline switches the tone off. -/
theorem performAll_sounding {acts : List Act} (h : Act.sounds acts = []) (pwm : Pwm)
    (now deadline : Instant) :
    (buzzer.performAll acts ⟨pwm, now, some deadline⟩).1 =
      if (Act.ticks acts).all (·.isBefore deadline) then
        ⟨pwm, latest acts now, some deadline⟩
      else ⟨{ pwm with enabled := false }, latest acts now, none⟩ := by
  induction acts generalizing now with
  | nil => rfl
  | cons act acts ih =>
    cases act with
    | tick told =>
      rw [Act.sounds_tick] at h
      cases hb : told.isBefore deadline with
      | true =>
        have hu : update told ⟨pwm, now, some deadline⟩ = ⟨pwm, told, some deadline⟩ := by
          simp [update, hb]
        rw [performAll_tick, hu, ih h told, Act.ticks_tick, List.all_cons, hb, latest_tick]
        rfl
      | false =>
        have hu : update told ⟨pwm, now, some deadline⟩ =
            ⟨{ pwm with enabled := false }, told, none⟩ := by
          simp [update, hb]
        rw [performAll_tick, hu, performAll_idle h, Act.ticks_tick, List.all_cons, hb, latest_tick]
        rfl
    | sound hz duration => cases h
    | say message => exact ih h now

/-- The state after the latest of the tones, which counts from the time told last before it. -/
theorem performAll_last_sound (before : List Act) {after : List Act} (h : Act.sounds after = [])
    (hz : Hertz) (duration : Duration) (s : Speaker) :
    (buzzer.performAll (before ++ .sound hz duration :: after) s).1 =
      let deadline := latest before s.now + duration
      if (Act.ticks after).all (·.isBefore deadline) then
        ⟨.sounding hz, latest after (latest before s.now), some deadline⟩
      else ⟨{ Pwm.sounding hz with enabled := false },
        latest after (latest before s.now), none⟩ := by
  rw [Buzzer.performAll_append]
  have ht := performAll_sounding h (.sounding hz) (latest before s.now)
    (latest before s.now + duration)
  rw [← now_performAll] at ht ⊢
  exact ht

end Chime.Speaker
