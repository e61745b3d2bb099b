import Chime.Proofs.Calls
import Chime.Proofs.Circle

/-!
# Sounding windows

On a device whose polls never go back in time the speaker is on from the poll that starts a tone
until the first later poll that finds the tone's sounding time over. Looking at the buttons in
between changes what will be played and never the speaker.
-/

set_option autoImplicit false

namespace Chime

namespace Event

variable {event : Event} {hz : Hertz} {duration : Duration}

theorem acts_of_sound (h : event.sound? = some (hz, duration)) :
    event.acts = [.sound hz duration] := by
  simp [acts, h]

theorem duration_lt_of_sound (h : event.sound? = some (hz, duration)) :
    duration.millis.toNat < UInt32.size := by
  cases event with
  | tone note ms =>
    cases h
    exact Duration.ofMillis_lt _
  | rest ms => cases h

end Event

theorem Instant.all_isBefore_iff {t : Instant} {us : List Instant} {d : Duration}
    (hs : (t :: us).Pairwise fun a b => a.ticks.toNat ≤ b.ticks.toNat)
    (hu : ∀ u ∈ us, u.ticks.toNat < 2 ^ 63) (hd : d.millis.toNat < 2 ^ 63) :
    us.all (·.isBefore (t + d)) = true ↔
      ∀ u ∈ us.getLast?, u.ticks.toNat < t.ticks.toNat + d.millis.toNat := by
  obtain ⟨ht,hs⟩ := List.pairwise_cons.mp hs
  have hi : ∀ u ∈ us, (u.isBefore (t + d) = true ↔
      u.ticks.toNat < t.ticks.toNat + d.millis.toNat) :=
    fun u hm => isBefore_add_iff (ht u hm) (hu u hm) hd
  rw [List.all_eq_true]
  constructor
  · intro h u hl
    have hm := List.mem_of_getLast? hl
    exact (hi u hm).mp (h u hm)
  · intro h u hm
    obtain ⟨ys,last,hl⟩ := (List.eq_nil_or_concat us).resolve_left (List.ne_nil_of_mem hm)
    rw [List.concat_eq_append] at hl
    have hb := h last (by rw [hl, List.getLast?_concat]; rfl)
    have hle : u.ticks.toNat ≤ last.ticks.toNat := by
      rw [hl] at hs hm
      rcases List.mem_append.mp hm with hy | hy
      · exact (List.pairwise_append.mp hs).2.2 u hy last (List.mem_singleton.mpr rfl)
      · exact Nat.le_of_eq (by rw [List.mem_singleton.mp hy])
    exact (hi u hm).mpr (Nat.lt_of_le_of_lt hle hb)

namespace Device

def Latest (ss : List Step) (device : Device) (tone : RecordedTone) (since : List Step) : Prop :=
  ∃ earlier event, ss = earlier ++ .poll tone.now :: since ∧
    event.sound? = some (tone.hz, tone.duration) ∧
    ((run earlier device).1.step (.poll tone.now)).2.journal =
      [.playback (.took event tone.now), .device (.tone tone.hz tone.duration)] ∧
    started since ((run earlier device).1.step (.poll tone.now)).1 = []

/-- A step that starts a tone is a poll, and the tone is that of the event that it takes. -/
theorem stepActs_of_sounds {s : Step} {device : Device}
    (h : Act.sounds (device.stepActs s) ≠ []) :
    ∃ now event hz duration, s = .poll now ∧ event.sound? = some (hz, duration) ∧
      device.stepActs s = [.tick now, .say (.took event now), .sound hz duration] := by
  cases hp : s.poll? with
  | none =>
    rw [← Act.sounds_calls, calls_stepActs hp] at h
    exact absurd rfl h
  | some now =>
    cases Step.eq_poll hp
    rw [stepActs_poll] at h ⊢
    rcases device.player.playback.update_cases now with
      ⟨_,hu⟩ | ⟨event,behind,_,_,hu⟩ | ⟨behind,_,_,hu⟩
    · rw [hu] at h
      exact absurd rfl h
    · rw [hu] at h ⊢
      cases he : event.sound? with
      | none => simp [he] at h
      | some tone => exact ⟨now,event,tone.1,tone.2,rfl,he,by rw [Event.acts_of_sound he]⟩
    · rw [hu] at h
      exact absurd rfl h

theorem journal_poll (now : Instant) (device : Device) :
    (device.step (.poll now)).2.journal =
      (Speaker.buzzer.performAll (device.stepActs (.poll now)) device.player.buzzer).2 := by
  rw [stepActs_poll]
  rfl

theorem stepActs_of_journal {now : Instant} {event : Event} {hz : Hertz} {duration : Duration}
    {device : Device} (h : (device.step (.poll now)).2.journal =
      [.playback (.took event now), .device (.tone hz duration)]) :
    device.stepActs (.poll now) = [.tick now, .say (.took event now), .sound hz duration] := by
  have hs : Act.sounds (device.stepActs (.poll now)) ≠ [] := by
    rw [← tones_step, h]
    exact List.cons_ne_nil _ _
  obtain ⟨told,took,pitch,length,ht,_,ha⟩ := stepActs_of_sounds hs
  cases ht
  rw [journal_poll, ha] at h
  cases h
  exact ha

theorem exists_latest {ss : List Step} {device : Device} (h : started ss device ≠ []) :
    ∃ tone since, Latest ss device tone since := by
  induction ss generalizing device with
  | nil => exact absurd rfl h
  | cons s ss ih =>
    by_cases hn : started ss (device.step s).1 = []
    · rw [started, hn, List.append_nil, tones_step] at h
      obtain ⟨now,event,hz,duration,rfl,he,ha⟩ :=
        stepActs_of_sounds fun hs => h (by rw [hs]; rfl)
      refine ⟨⟨now, hz, duration⟩,ss,[],event,rfl,he,?_,hn⟩
      rw [journal_poll, run, ha]
      rfl
    · obtain ⟨tone,since,earlier,event,rfl,he,hj,hl⟩ := ih hn
      exact ⟨tone,since,s :: earlier,event,rfl,he,hj,hl⟩

theorem acts_of_latest {ss since : List Step} {device : Device} {tone : RecordedTone}
    (h : Latest ss device tone since) :
    ∃ before after, acts ss device = before ++ .sound tone.hz tone.duration :: after ∧
      Speaker.latest before device.player.buzzer.now = tone.now ∧
      Act.sounds after = [] ∧ Act.ticks after = polls since := by
  obtain ⟨earlier,event,rfl,_,hj,hl⟩ := h
  refine ⟨acts earlier device ++ [.tick tone.now, .say (.took event tone.now)],
    acts since ((run earlier device).1.step (.poll tone.now)).1,?_,?_,?_,?_⟩
  · rw [acts_append, acts, stepActs_of_journal hj]
    simp
  · rw [Speaker.latest_append]
    rfl
  · rw [started_eq] at hl
    exact Act.toned_eq_nil_iff.mp hl
  · exact ticks_acts _ _

/-- The modulator after the latest tone, in whatever order the polls come. -/
theorem pwm_of_latest {ss since : List Step} {device : Device} {tone : RecordedTone}
    (h : Latest ss device tone since) :
    (run ss device).1.player.buzzer.pwm =
      { Pwm.sounding tone.hz with
        enabled := (polls since).all (·.isBefore (tone.now + tone.duration)) } := by
  obtain ⟨before,after,ha,ht,hs,hp⟩ := acts_of_latest h
  rw [buzzer_run, ha, Speaker.performAll_last_sound before hs, ht, hp]
  dsimp only
  cases (polls since).all (·.isBefore (tone.now + tone.duration)) <;> rfl

theorem getLast?_started {ss since : List Step} {device : Device} {tone : RecordedTone}
    (h : Latest ss device tone since) : (started ss device).getLast? = some tone := by
  obtain ⟨before,after,ha,ht,hs,_⟩ := acts_of_latest h
  have hn : Act.toned after tone.now = [] := Act.toned_eq_nil_iff.mpr hs
  rw [started_eq, ha, Act.toned_append, ht, Act.toned, hn, List.getLast?_concat]

theorem pwm_of_not_started {ss : List Step} {device : Device} (h : started ss device = [])
    (hs : device.player.buzzer.silenceAt = none) :
    (run ss device).1.player.buzzer.pwm = device.player.buzzer.pwm := by
  rw [started_eq, Act.toned_eq_nil_iff] at h
  have hi := Speaker.performAll_idle h device.player.buzzer.pwm device.player.buzzer.now
  rw [← hs] at hi
  rw [buzzer_run, hi]

/-- With polls in order the last one since the latest tone decides. -/
theorem enabled_of_latest {ss since : List Step} {device : Device} {tone : RecordedTone}
    (hs : (polls ss).Pairwise fun a b => a.ticks.toNat ≤ b.ticks.toNat)
    (hb : ∀ now ∈ polls ss, now.ticks.toNat < 2 ^ 63) (h : Latest ss device tone since) :
    (run ss device).1.player.buzzer.pwm.enabled = true ↔
      ∀ u ∈ (polls since).getLast?,
        u.ticks.toNat < tone.now.ticks.toNat + tone.duration.millis.toNat := by
  rw [pwm_of_latest h]
  obtain ⟨earlier,event,rfl,he,_,_⟩ := h
  have hp : polls (earlier ++ .poll tone.now :: since) =
      polls earlier ++ tone.now :: polls since := by
    rw [polls, List.filterMap_append]
    rfl
  have hd := Event.duration_lt_of_sound he
  rw [hp] at hs hb
  apply Instant.all_isBefore_iff (List.pairwise_append.mp hs).2.1
  · intro u hu
    exact hb u (List.mem_append_right _ (List.mem_cons_of_mem _ hu))
  · exact Nat.lt_trans hd (by decide)

end Device

/-- After every run since boot the speaker is on if and only if a tone has been started and no poll
since has reached the end of the latest one. The wave is that of the latest tone, only a poll ever
touches the speaker, and a recorder in its place would have written down the same tones. -/
theorem speaker_on_in_windows (ss : List Device.Step)
    (hs : (Device.polls ss).Pairwise fun a b => a.ticks.toNat ≤ b.ticks.toNat)
    (hb : ∀ now ∈ Device.polls ss, now.ticks.toNat < 2 ^ 63) :
    let device := (Device.run ss .initial).1
    let cs := Device.commands ss .initial
    let speaker := device.player.buzzer
    (speaker.pwm.enabled = true ↔ ∃ tone since, Device.Latest ss .initial tone since ∧
      ∀ u ∈ (Device.polls since).getLast?,
        u.ticks.toNat < tone.now.ticks.toNat + tone.duration.millis.toNat) ∧
    (∀ tone ∈ (Device.started ss .initial).getLast?,
      speaker.pwm.top = min (500000 / tone.hz) 32767 ∧ speaker.pwm.duty = speaker.pwm.top / 2) ∧
    (∀ s, (∀ now, s ≠ .poll now) → (device.step s).1.player.buzzer = speaker) ∧
    device.player = (Player.run Speaker.buzzer cs (.ofBuzzer .initial)).1 ∧
    (Player.run Recorder.buzzer cs (.ofBuzzer .blank)).1.buzzer.tones =
      Device.started ss .initial := by
  intro device cs speaker
  have hl : Device.started ss .initial ≠ [] → ∃ tone since, Device.Latest ss .initial tone since :=
    Device.exists_latest
  refine ⟨?_,?_,?_,?_,?_⟩
  · constructor
    · intro h
      have hn : Device.started ss .initial ≠ [] := by
        intro hn
        have hi : speaker.pwm = _ := Device.pwm_of_not_started hn rfl
        rw [hi] at h
        cases h
      obtain ⟨tone,since,ht⟩ := hl hn
      exact ⟨tone,since,ht,(Device.enabled_of_latest hs hb ht).mp h⟩
    · rintro ⟨tone,since,ht,hu⟩
      exact (Device.enabled_of_latest hs hb ht).mpr hu
  · intro tone hm
    obtain ⟨latest,since,ht⟩ := hl (by rintro h; rw [h] at hm; cases hm)
    have he : tone = latest := Option.some.inj (hm.symm.trans (Device.getLast?_started ht))
    have hp : speaker.pwm = _ := Device.pwm_of_latest ht
    rw [hp, he]
    exact ⟨rfl,rfl⟩
  · intro s hp
    apply Device.buzzer_step_of_no_poll
    cases s with
    | poll now => exact absurd rfl (hp now)
    | edge => rfl
    | buttons a b now => rfl
  · exact Device.run_player ss .initial
  · rw [Player.run_eq, Device.started_eq, Device.acts_eq]
    exact Recorder.tones_performAll _ .blank

/-- The first tone of the first melody sounds for 364 ms: a stop and a poll after 100 ms leave it
on. -/
theorem speaker_on_in_windows_after_stop :
    let ss : List Device.Step :=
      [.buttons true false ⟨0⟩, .poll ⟨1000⟩, .edge, .buttons false true ⟨1050⟩, .poll ⟨1100⟩]
    (Device.polls ss).Pairwise (fun a b => a.ticks.toNat ≤ b.ticks.toNat) ∧
      (∀ now ∈ Device.polls ss, now.ticks.toNat < 2 ^ 63) ∧
      (Device.run ss .initial).1.player.buzzer.pwm.enabled = true ∧
      (Device.run ss .initial).1.player.buzzer.pwm.top = 1908 ∧
      (Player.run Recorder.buzzer (Device.commands ss .initial) (.ofBuzzer .blank)).1.buzzer.tones =
        [⟨⟨1000⟩, 262, ⟨364⟩⟩] := by
  intro ss
  have hs : (Device.polls ss).Pairwise fun a b => a.ticks.toNat ≤ b.ticks.toNat := by decide
  have hb : ∀ now ∈ Device.polls ss, now.ticks.toNat < 2 ^ 63 := by decide
  have hl : Device.Latest ss .initial ⟨⟨1000⟩, 262, ⟨364⟩⟩
      [.edge, .buttons false true ⟨1050⟩, .poll ⟨1100⟩] :=
    ⟨[.buttons true false ⟨0⟩],.tone ⟨⟨.c, .natural⟩, .middle⟩ 428.57144,rfl,by decide +kernel,
      by decide +kernel,by decide +kernel⟩
  have ht : Device.started ss .initial = [⟨⟨1000⟩, 262, ⟨364⟩⟩] := by decide +kernel
  obtain ⟨he,hp,_,_,hr⟩ := speaker_on_in_windows ss hs hb
  have hw := (hp ⟨⟨1000⟩, 262, ⟨364⟩⟩ (by rw [ht]; rfl)).1
  exact ⟨hs,hb,he.mpr ⟨_,_,hl,by decide⟩,hw.trans (by decide),hr.trans ht⟩

end Chime
