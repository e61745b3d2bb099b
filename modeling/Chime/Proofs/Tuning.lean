import Chime.Proofs.Silence
import Chime.Proofs.Update
import Mathlib.Algebra.Group.Nat.Defs

/-!
# Tones within reach of the modulator

The lowest tone is the flat C of the first octave, at 30 hertz, and the highest the sharp B of the
seventh, at 4184 hertz. The counter of the modulator can be set to each of them without being cut,
and what is left of it after the division is enough to be heard.
-/

set_option autoImplicit false

namespace Chime

namespace Hertz

variable {hz : Hertz} {places : UInt8}

theorem toNat_shiftRight (hp : places.toNat < 32) :
    (hz >>> places.toUInt32).toNat = hz.toNat / 2 ^ places.toNat := by
  rw [UInt32.toNat_shiftRight, UInt8.toNat_toUInt32, Nat.mod_eq_of_lt hp,
    Nat.shiftRight_eq_div_pow]

theorem toNat_shiftLeft (hp : places.toNat < 32) (h : hz.toNat * 2 ^ places.toNat < 2 ^ 32) :
    (hz <<< places.toUInt32).toNat = hz.toNat * 2 ^ places.toNat := by
  rw [UInt32.toNat_shiftLeft, UInt8.toNat_toUInt32, Nat.mod_eq_of_lt hp, Nat.shiftLeft_eq,
    Nat.mod_eq_of_lt h]

end Hertz

namespace Pitch

theorem base_bounds (pitch : Pitch) : 247 ≤ pitch.base.toNat ∧ pitch.base.toNat ≤ 523 := by
  obtain ⟨letter,accidental⟩ := pitch
  cases letter <;> cases accidental <;> decide

/-- One of the two powers is one, and no bit is lost to the left. -/
theorem toNat_frequency (pitch : Pitch) (octave : Octave) :
    (pitch.frequency octave).toNat =
      pitch.base.toNat * 2 ^ (octave.number.toNat - 4) / 2 ^ (4 - octave.number.toNat) := by
  obtain ⟨hlow,hhigh⟩ := octave.bounds
  have hb := pitch.base_bounds
  unfold frequency
  split
  next hl =>
    have hlt : octave.number.toNat < 4 := UInt8.lt_iff_toNat_lt.mp hl
    have hp : (Octave.middle.number - octave.number).toNat = 4 - octave.number.toNat :=
      UInt8.toNat_sub_of_le _ _ (UInt8.le_of_lt hl)
    rw [Hertz.toNat_shiftRight (by omega), hp, Nat.sub_eq_zero_of_le (Nat.le_of_lt hlt),
      Nat.pow_zero, Nat.mul_one]
  next hl =>
    have hge : 4 ≤ octave.number.toNat := Nat.not_lt.mp fun h => hl (UInt8.lt_iff_toNat_lt.mpr h)
    rw [Nat.sub_eq_zero_of_le hge, Nat.pow_zero, Nat.div_one]
    split
    next hh =>
      have hp : (octave.number - Octave.middle.number).toNat = octave.number.toNat - 4 :=
        UInt8.toNat_sub_of_le _ _ (UInt8.le_of_lt hh)
      have hpow : 2 ^ (octave.number.toNat - 4) ≤ 2 ^ 3 :=
        Nat.pow_le_pow_right (by decide) (by omega)
      have hmul : pitch.base.toNat * 2 ^ (octave.number.toNat - 4) < 2 ^ 32 :=
        Nat.lt_of_le_of_lt (Nat.mul_le_mul hb.2 hpow) (by decide)
      rw [← hp] at hmul ⊢
      exact Hertz.toNat_shiftLeft (by omega) hmul
    next hh =>
      have hle : octave.number.toNat ≤ 4 :=
        Nat.not_lt.mp fun h => hh (UInt8.lt_iff_toNat_lt.mpr h)
      rw [Nat.sub_eq_zero_of_le hle, Nat.pow_zero, Nat.mul_one]

theorem frequency_bounds (pitch : Pitch) (octave : Octave) :
    30 ≤ pitch.frequency octave ∧ pitch.frequency octave ≤ 4184 := by
  obtain ⟨hlow,hhigh⟩ := octave.bounds
  obtain ⟨hb,ht⟩ := pitch.base_bounds
  rw [UInt32.le_iff_toNat_le, UInt32.le_iff_toNat_le, toNat_frequency]
  have hup : 2 ^ (octave.number.toNat - 4) ≤ 2 ^ 3 := Nat.pow_le_pow_right (by decide) (by omega)
  have hdown : 2 ^ (4 - octave.number.toNat) ≤ 2 ^ 3 := Nat.pow_le_pow_right (by decide) (by omega)
  constructor
  · rw [Nat.le_div_iff_mul_le (Nat.two_pow_pos _)]
    calc 30 * 2 ^ (4 - octave.number.toNat) ≤ 30 * 2 ^ 3 := Nat.mul_le_mul_left 30 hdown
      _ ≤ pitch.base.toNat := Nat.le_trans (by decide) hb
      _ ≤ _ := Nat.le_mul_of_pos_right _ (Nat.two_pow_pos _)
  · exact Nat.le_trans (Nat.div_le_self _ _) (Nat.mul_le_mul ht hup)

end Pitch

theorem Playback.sounds_step (c : Command) (p : Playback) :
    ∀ tone ∈ Act.sounds (p.step c).2, ∃ note : Note, tone.1 = note.frequency := by
  intro tone hm
  cases c with
  | play tune now => cases hm
  | stop =>
    rw [step, Act.sounds_stop] at hm
    cases hm
  | update now =>
    rw [step] at hm
    rcases p.update_cases now with ⟨_,hu⟩ | ⟨event,behind,_,_,hu⟩ | ⟨behind,_,_,hu⟩
    · rw [hu] at hm
      cases hm
    · rw [hu, Act.sounds_tick, Act.sounds_say, Act.sounds_acts] at hm
      cases event with
      | tone note ms =>
        cases Option.mem_toList.mp hm
        exact ⟨note,rfl⟩
      | rest ms => cases hm
    · rw [hu] at hm
      cases hm

theorem Playback.sounds_run (cs : List Command) (p : Playback) :
    ∀ tone ∈ Act.sounds (run cs p).2, ∃ note : Note, tone.1 = note.frequency := by
  induction cs generalizing p with
  | nil => exact fun _ hm => nomatch hm
  | cons c cs ih =>
    intro tone hm
    rw [run, Act.sounds_append] at hm
    rcases List.mem_append.mp hm with hm | hm
    · exact sounds_step c p tone hm
    · exact ih _ tone hm

namespace Pwm

structure Plays (pwm : Pwm) (hz : Hertz) : Prop where
  nonzero : hz ≠ 0
  unclamped : 500000 / hz < 32767
  top : pwm.top = 500000 / hz
  duty : pwm.duty = pwm.top / 2
  top_bounds : 119 ≤ pwm.top ∧ pwm.top ≤ 16666
  duty_bounds : 59 ≤ pwm.duty ∧ pwm.duty ≤ 8333

theorem counter_bounds {hz : Hertz} (h : 30 ≤ hz ∧ hz ≤ 4184) :
    119 ≤ counterHz / hz ∧ counterHz / hz ≤ 16666 := by
  obtain ⟨hl,hh⟩ := h
  rw [UInt32.le_iff_toNat_le] at hl hh
  have hpos : 0 < hz.toNat := Nat.lt_of_lt_of_le (by decide) hl
  rw [UInt32.le_iff_toNat_le, UInt32.le_iff_toNat_le, UInt32.toNat_div,
    Nat.le_div_iff_mul_le hpos]
  exact ⟨Nat.le_trans (Nat.mul_le_mul_left 119 hh) (by decide),
    Nat.le_trans (Nat.div_le_div_left hl (by decide)) (by decide)⟩

theorem half_bounds {top : UInt32} (h : 119 ≤ top ∧ top ≤ 16666) :
    59 ≤ top / 2 ∧ top / 2 ≤ 8333 := by
  simp only [UInt32.le_iff_toNat_le, UInt32.toNat_div, UInt32.reduceToNat] at h ⊢
  omega

theorem plays_of_sounding {pwm : Pwm} {hz : Hertz} (h : 30 ≤ hz ∧ hz ≤ 4184)
    (ht : pwm.top = topOf hz) (hd : pwm.duty = topOf hz / 2) : pwm.Plays hz := by
  have hc := counter_bounds h
  have hlt : counterHz / hz < maxTop := UInt32.lt_of_le_of_lt hc.2 (by decide)
  have hm : topOf hz = counterHz / hz := if_pos (UInt32.le_of_lt hlt)
  refine ⟨?_,hlt,ht.trans hm,by rw [hd, ht],?_,?_⟩
  · rintro rfl
    exact absurd h.1 (by decide)
  · rwa [ht, hm]
  · rw [hd, hm]
    exact half_bounds hc

end Pwm

/-- Whatever is played, stopped and polled, every tone that a buzzer is asked for has a frequency
from 30 to 4184 hertz. On the speaker it sets the modulator to that frequency, neither cut nor
silent, whatever went before; and the modulator stays so until the next tone. -/
theorem tones_fit_the_modulator (cs : List Command) :
    (∀ (σ : Type) (buzzer : Buzzer σ) (b : σ),
      ∀ tone ∈ Act.sounds (Player.run buzzer.spied cs (.ofBuzzer (b, []))).1.buzzer.2,
        (30 ≤ tone.1 ∧ tone.1 ≤ 4184) ∧
        ∀ s : Speaker, (s.tone tone.1 tone.2).1.pwm.enabled = true ∧
          (s.tone tone.1 tone.2).1.pwm.Plays tone.1) ∧
    let speaker := (Player.run Speaker.buzzer.spied cs (.ofBuzzer (.initial, []))).1.buzzer
    ∀ tone ∈ (Act.sounds speaker.2).getLast?, speaker.1.pwm.Plays tone.1 := by
  have hb : ∀ tone ∈ Act.sounds (Playback.run cs .initial).2, 30 ≤ tone.1 ∧ tone.1 ≤ 4184 := by
    intro tone hm
    obtain ⟨note,hn⟩ := Playback.sounds_run cs .initial tone hm
    rw [hn]
    exact note.pitch.frequency_bounds note.octave
  constructor
  · intro σ buzzer b tone hm
    rw [Player.ofBuzzer, Player.run_spied, List.nil_append, Act.sounds_calls] at hm
    exact ⟨hb tone hm,fun s => ⟨rfl,Pwm.plays_of_sounding (hb tone hm) rfl rfl⟩⟩
  · intro speaker tone hl
    have hs : speaker = ((Speaker.buzzer.performAll (Playback.run cs .initial).2 .initial).1,
        Act.calls (Playback.run cs .initial).2) := by
      dsimp only [speaker]
      rw [Player.ofBuzzer, Player.run_spied, Player.run_eq, List.nil_append]
    rw [hs, Act.sounds_calls] at hl
    obtain ⟨before,after,ha,hn⟩ := Act.split_last_sound hl
    rw [hs, ha, Speaker.performAll_last_sound before hn]
    apply Pwm.plays_of_sounding (hb tone (List.mem_of_getLast? hl)) <;> dsimp only <;> split <;> rfl

/-- The lowest note there is and the highest, one after the other. -/
theorem tones_fit_the_modulator_at_both_ends :
    let cs : List Command := [.play (.ofString "O1C-64O7B+") ⟨0⟩, .update ⟨0⟩, .update ⟨100⟩]
    let speaker := (Player.run Speaker.buzzer.spied cs (.ofBuzzer (.initial, []))).1.buzzer
    Act.sounds speaker.2 = [(30, ⟨26⟩), (4184, ⟨425⟩)] ∧
      (∀ s : Speaker, (s.tone 30 ⟨26⟩).1.pwm.Plays 30) ∧ speaker.1.pwm.Plays 4184 := by
  intro cs speaker
  have hs : Act.sounds speaker.2 = [(30, ⟨26⟩), (4184, ⟨425⟩)] := by decide +kernel
  obtain ⟨hall,hlast⟩ := tones_fit_the_modulator cs
  have hlow := hall Speaker Speaker.buzzer .initial (30, ⟨26⟩) (hs ▸ List.mem_cons_self)
  have hhigh := hlast (4184, ⟨425⟩) (congrArg List.getLast? hs)
  exact ⟨hs,fun s => (hlow.2 s).2,hhigh⟩

end Chime
