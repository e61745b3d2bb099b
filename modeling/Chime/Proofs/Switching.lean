import Chime.Proofs.Silence

/-!
# The switch of the speaker

However tones and times are mixed, the speaker is on just as long as it waits for a deadline, and
the only deadline it ever waits for is that of the latest tone. A tone overwrites whatever the tones
before it have set, and nothing but a tone changes the wave.
-/

set_option autoImplicit false

namespace Chime.Speaker

variable {acts : List Act} {deadline : Instant}

theorem performAll_sound_congr (hz : Hertz) (duration : Duration) (after : List Act) {s t : Speaker}
    (h : s.now = t.now) :
    (buzzer.performAll (.sound hz duration :: after) s).1 =
      (buzzer.performAll (.sound hz duration :: after) t).1 := by
  have hs : (s.tone hz duration).1 = (t.tone hz duration).1 := by rw [tone, tone, h]
  exact congrArg (fun sounded => (buzzer.performAll after sounded).1) hs

/-- Of what comes before a tone only the time told last counts. -/
theorem performAll_sound_of_time {before other : List Act} (s : Speaker)
    (h : (Act.ticks before).getLast? = (Act.ticks other).getLast?) (hz : Hertz)
    (duration : Duration) (after : List Act) :
    (buzzer.performAll (before ++ .sound hz duration :: after) s).1 =
      (buzzer.performAll (other ++ .sound hz duration :: after) s).1 := by
  rw [Buzzer.performAll_append, Buzzer.performAll_append]
  apply performAll_sound_congr
  rw [now_performAll, now_performAll, latest_eq_getLast, latest_eq_getLast, h]

theorem wave_update (now : Instant) (s : Speaker) :
    (s.update now).pwm.top = s.pwm.top ∧ (s.update now).pwm.duty = s.pwm.duty := by
  unfold update
  split
  · split <;> exact ⟨rfl,rfl⟩
  · exact ⟨rfl,rfl⟩

theorem wave_perform {act : Act} (h : act.sound? = none) (s : Speaker) :
    (buzzer.perform act s).1.pwm.top = s.pwm.top ∧
      (buzzer.perform act s).1.pwm.duty = s.pwm.duty := by
  cases act with
  | tick now => exact wave_update now s
  | sound hz duration => cases h
  | say message => exact ⟨rfl,rfl⟩

theorem silenceAt_of_latest {before after : List Act} (h : Act.sounds after = []) (hz : Hertz)
    (duration : Duration) (s : Speaker) :
    (buzzer.performAll (before ++ .sound hz duration :: after) s).1.silenceAt = some deadline ↔
      deadline = (Act.ticks before).getLast?.getD s.now + duration ∧
        ∀ now ∈ Act.ticks after, now.isBefore deadline = true := by
  rw [performAll_last_sound before h, latest_eq_getLast, ← List.all_eq_true]
  dsimp only
  constructor
  · intro hd
    split at hd
    next ha => exact ⟨(Option.some.inj hd).symm,Option.some.inj hd ▸ ha⟩
    next => cases hd
  · rintro ⟨rfl,ha⟩
    rw [if_pos ha]

theorem wave_of_latest {before after : List Act} (h : Act.sounds after = []) (hz : Hertz)
    (duration : Duration) (s : Speaker) :
    let pwm := (buzzer.performAll (before ++ .sound hz duration :: after) s).1.pwm
    pwm.top = min (500000 / hz) 32767 ∧ pwm.duty = pwm.top / 2 := by
  rw [performAll_last_sound before h]
  dsimp only
  split <;> exact ⟨rfl,rfl⟩

theorem half_le (top : UInt32) : top / 2 ≤ top := by
  rw [UInt32.le_iff_toNat_le, UInt32.toNat_div]
  exact Nat.div_le_self _ _

end Chime.Speaker

namespace Chime

/-- Whatever is asked of a new speaker, and in whatever order: it is on if and only if a deadline is
pending, and a deadline is pending if and only if it is that of the latest tone, counted from the
time told last before that tone, and no time told since has reached it. So the tones before the
latest one might as well not have been there. The wave is that of the latest tone, and no other call
changes it. -/
theorem switch_follows_the_latest_tone (acts : List Act) :
    let speaker := (Speaker.buzzer.performAll acts .initial).1
    (speaker.pwm.enabled = true ↔ ∃ deadline, speaker.silenceAt = some deadline) ∧
    (∀ deadline, speaker.silenceAt = some deadline ↔
      ∃ before hz duration after, acts = before ++ .sound hz duration :: after ∧
        Act.sounds after = [] ∧
        deadline = (Act.ticks before).getLast?.getD .zero + duration ∧
        ∀ now ∈ Act.ticks after, now.isBefore deadline = true) ∧
    (∀ before other hz duration after, acts = before ++ .sound hz duration :: after →
      (Act.ticks before).getLast? = (Act.ticks other).getLast? →
      speaker =
        (Speaker.buzzer.performAll (other ++ .sound hz duration :: after) .initial).1) ∧
    (∀ before hz duration after, acts = before ++ .sound hz duration :: after →
      Act.sounds after = [] → speaker.pwm.top = min (500000 / hz) 32767 ∧
        speaker.pwm.duty = speaker.pwm.top / 2 ∧ speaker.pwm.duty ≤ speaker.pwm.top) ∧
    (Act.sounds acts = [] → speaker.pwm = .idle) ∧
    ∀ act, act.sound? = none →
      (Speaker.buzzer.perform act speaker).1.pwm.top = speaker.pwm.top ∧
        (Speaker.buzzer.perform act speaker).1.pwm.duty = speaker.pwm.duty := by
  intro speaker
  have hi : Act.sounds acts = [] → speaker = ⟨.idle, Speaker.latest acts .zero, none⟩ :=
    fun h => Speaker.performAll_idle h .idle .zero
  refine ⟨?_,?_,?_,?_,?_,?_⟩
  · have hc : speaker.pwm.enabled = speaker.silenceAt.isSome :=
      Speaker.coherent_performAll Speaker.coherent_initial acts
    rw [hc, Option.isSome_iff_exists]
  · intro deadline
    constructor
    · intro hd
      cases hl : (Act.sounds acts).getLast? with
      | none =>
        rw [hi (List.getLast?_eq_none_iff.mp hl)] at hd
        cases hd
      | some tone =>
        obtain ⟨before,after,ha,hn⟩ := Act.split_last_sound hl
        refine ⟨before,tone.1,tone.2,after,ha,hn,?_⟩
        subst ha
        exact (Speaker.silenceAt_of_latest hn tone.1 tone.2 .initial).mp hd
    · rintro ⟨before,hz,duration,after,rfl,hn,hd⟩
      exact (Speaker.silenceAt_of_latest hn hz duration .initial).mpr hd
  · rintro before other hz duration after rfl ht
    exact Speaker.performAll_sound_of_time .initial ht hz duration after
  · rintro before hz duration after rfl hn
    obtain ⟨ht,hd⟩ := @Speaker.wave_of_latest before after hn hz duration .initial
    exact ⟨ht,hd,hd ▸ Speaker.half_le _⟩
  · exact fun h => congrArg Speaker.pwm (hi h)
  · exact fun act h => Speaker.wave_perform h speaker

/-- Two tones without an update between them, shortly before the clock starts over: the deadline of
the first passes and a time is told from before it, and the second sounds on until its own. -/
theorem switch_follows_the_latest_tone_over_the_turn :
    let before : List Act := [.tick ⟨18446744073709551610⟩, .sound 440 ⟨10⟩]
    let after : List Act := [.tick ⟨50⟩, .tick ⟨18446744073709551600⟩, .tick ⟨93⟩]
    let speaker := (Speaker.buzzer.performAll (before ++ .sound 30 ⟨100⟩ :: after) .initial).1
    Act.sounds after = [] ∧ (∀ now ∈ Act.ticks after, now.isBefore ⟨94⟩ = true) ∧
      speaker.silenceAt = some ⟨94⟩ ∧ speaker.pwm = ⟨true, 16666, 8333⟩ ∧
      (speaker.update ⟨94⟩).pwm = ⟨false, 16666, 8333⟩ := by
  intro before after speaker
  have hn : Act.sounds after = [] := rfl
  have hb : ∀ now ∈ Act.ticks after, now.isBefore ⟨94⟩ = true := by decide
  obtain ⟨he,hs,_,hw,_,_⟩ := switch_follows_the_latest_tone (before ++ .sound 30 ⟨100⟩ :: after)
  have hd : speaker.silenceAt = some ⟨94⟩ :=
    (hs ⟨94⟩).mpr ⟨before,30,⟨100⟩,after,rfl,hn,by decide,hb⟩
  have hon : speaker.pwm.enabled = true := he.mpr ⟨_,hd⟩
  obtain ⟨ht,hh,_⟩ := hw before 30 ⟨100⟩ after rfl hn
  have hp : speaker.pwm = ⟨true, 16666, 8333⟩ := by
    have htop : speaker.pwm.top = 16666 := ht
    have hduty : speaker.pwm.duty = 8333 := hh.trans (congrArg (· / 2) htop)
    rw [← hon, ← htop, ← hduty]
  refine ⟨hn,hb,hd,hp,?_⟩
  rw [Speaker.update, hd, hp]
  rfl

end Chime
