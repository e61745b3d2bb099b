import Chime.Proofs.Calls
import Chime.Proofs.Circle
import Chime.Proofs.Single.Truncation

/-!
# Pauses

A tone sounds for a part of its slot, whatever the slot comes to after rounding. So once playback
is due again the speaker is off before the next event is taken, and it stays off if that event is a
rest or if there is none. What sounded before the tune was started makes no difference from its
first tone on.
-/

set_option autoImplicit false

namespace Chime

def Command.instant? : Command → Option Instant
  | .play _ now => some now
  | .stop => none
  | .update now => some now

def Command.instants (cs : List Command) : List Instant := cs.filterMap instant?

namespace Event

open Float.Model.UnpackedFloat in
theorem unpack_articulation :
    articulation.toModel.unpack = .finite .positive 14260634 (-24) (by decide) := by
  rfl

theorem holds_articulation : Single.Holds articulation (14260634 * 2 ^ (-24 : Int)) := by
  rw [Single.Holds, unpack_articulation]
  exact .finite _ ⟨by decide,by decide,.inl (by decide)⟩ (by norm_num)

/-- Sounding never outlasts the slot, be it zero, saturated, infinite or no number. -/
theorem sounding_le_slot (ms : Float32) :
    (Duration.ofMillis (ms * articulation)).millis.toNat ≤ (Duration.ofMillis ms).millis.toNat := by
  have h := Single.toUInt32_mul_le (x := ms) holds_articulation (by positivity) (by norm_num)
  simpa [Duration.ofMillis] using h

end Event

namespace Speaker

theorem now_update (now : Instant) (s : Speaker) : (s.update now).now = now :=
  now_performAll [.tick now] s

theorem silenceAt_update {now : Instant} {s : Speaker}
    (h : ∀ silence ∈ s.silenceAt, now.isBefore silence = false) :
    (s.update now).silenceAt = none := by
  cases hs : s.silenceAt with
  | none => simp [update, hs]
  | some silence => simp [update, hs, h silence hs]

theorem mem_silenceAt_update {now silence : Instant} {s : Speaker}
    (h : silence ∈ (s.update now).silenceAt) : silence ∈ s.silenceAt := by
  unfold update at h
  split at h
  next d hd =>
    split at h
    · exact h
    · cases h
  next => exact h

end Speaker

namespace Player

/-- From the reading `t` on, where playback's deadline is reached the speaker's is. -/
structure Covered (t : Instant) (player : Player Speaker) : Prop where
  coherent : player.buzzer.Coherent
  reached : ∀ now : Instant, t.ticks.toNat ≤ now.ticks.toNat → now.ticks.toNat < 2 ^ 63 →
    now.isBefore player.playback.deadline = false →
      ∀ silence ∈ player.buzzer.silenceAt, now.isBefore silence = false

variable {player : Player Speaker} {t now : Instant}

theorem Covered.mono (h : player.Covered t) (ht : t.ticks.toNat ≤ now.ticks.toNat) :
    player.Covered now :=
  ⟨h.coherent,fun u hu hb => h.reached u (ht.trans hu) hb⟩

theorem Covered.stop (h : player.Covered t) :
    (player.step Speaker.buzzer .stop).1.Covered t := by
  have hs : (player.step Speaker.buzzer .stop).1.buzzer = player.buzzer := by
    simp only [step, Playback.step, Playback.stop]
    split <;> rfl
  refine ⟨by rw [hs]; exact h.coherent,?_⟩
  rw [hs]
  exact h.reached

/-- Where an update is due the speaker is off as soon as it has been told the time. -/
theorem Covered.silenceAt_update (h : player.Covered t) (ht : t.ticks.toNat ≤ now.ticks.toNat)
    (hb : now.ticks.toNat < 2 ^ 63) (hd : player.playback.isDue now = true) :
    (player.buzzer.update now).silenceAt = none :=
  Speaker.silenceAt_update (h.reached now ht hb ((player.playback.isDue_iff now).mp hd).1)

theorem covered_of_tone {note : Note} {ms : Float32}
    (h : .tone note ms ∈ Act.taken (player.playback.update now).2) :
    (player.step Speaker.buzzer (.update now)).1.Covered now := by
  rcases player.playback.update_cases now with ⟨_,hu⟩ | ⟨event,behind,_,_,hu⟩ | ⟨behind,_,_,hu⟩
  · simp [hu] at h
  · rw [hu, Act.taken_tick, Act.taken_took, Act.taken_acts, List.mem_singleton] at h
    have hs : (player.step Speaker.buzzer (.update now)).1 =
        ⟨⟨behind, now + event.slot⟩, ((player.buzzer.update now).tone note.frequency
          (.ofMillis (ms * Event.articulation))).1⟩ := by
      simp only [step, Playback.step, hu, ← h]
      rfl
    rw [hs, ← h]
    refine ⟨Speaker.coherent_tone _ _ _,?_⟩
    intro u hu hub hd silence hsil
    obtain rfl : now + Duration.ofMillis (ms * Event.articulation) = silence := by
      rw [← Speaker.now_update now player.buzzer]
      exact Option.some.inj hsil
    have hl : (Duration.ofMillis ms).millis.toNat < 2 ^ 63 :=
      (Duration.ofMillis_lt ms).trans (by decide)
    exact Instant.not_isBefore_add_of_le hu hub hl (Event.sounding_le_slot ms) hd
  · simp [hu] at h

theorem covered_of_silent (hc : player.buzzer.Coherent) (hs : player.buzzer.silenceAt = none) :
    player.Covered t := by
  refine ⟨hc,fun u _ _ _ silence h => ?_⟩
  rw [hs] at h
  cases h

theorem buzzer_update_of_no_tone
    (h : ∀ note ms, Event.tone note ms ∉ Act.taken (player.playback.update now).2) :
    (player.step Speaker.buzzer (.update now)).1.buzzer = player.buzzer.update now := by
  rcases player.playback.update_cases now with ⟨_,hu⟩ | ⟨event,behind,_,_,hu⟩ | ⟨behind,_,_,hu⟩
  · simp only [step, Playback.step, hu]
    rfl
  · cases event with
    | tone note ms =>
      rw [hu] at h
      exact absurd List.mem_cons_self (h note ms)
    | rest ms =>
      simp only [step, Playback.step, hu]
      rfl
  · simp only [step, Playback.step, hu]
    rfl

theorem Covered.update (h : player.Covered t) (ht : t.ticks.toNat ≤ now.ticks.toNat)
    (hb : now.ticks.toNat < 2 ^ 63) :
    (player.step Speaker.buzzer (.update now)).1.Covered now := by
  by_cases hn : ∃ note ms, Event.tone note ms ∈ Act.taken (player.playback.update now).2
  · obtain ⟨note,ms,hn⟩ := hn
    exact covered_of_tone hn
  · have hs := buzzer_update_of_no_tone fun note ms hm => hn ⟨note,ms,hm⟩
    have hc : (player.step Speaker.buzzer (.update now)).1.buzzer.Coherent := by
      rw [hs]
      exact Speaker.coherent_update h.coherent now
    cases hd : player.playback.isDue now with
    | true => exact covered_of_silent hc (by rw [hs, h.silenceAt_update ht hb hd])
    | false =>
      -- the deadline is that of before, and the speaker's has at most gone
      have hp : (player.step Speaker.buzzer (.update now)).1.playback = player.playback := by
        simp only [step, Playback.step, Playback.update_of_not_isDue hd]
      refine ⟨hc,fun u hu hub hbd silence hsil => ?_⟩
      rw [hp] at hbd
      rw [hs] at hsil
      exact h.reached u (ht.trans hu) hub hbd silence (Speaker.mem_silenceAt_update hsil)

/-- Stops and updates in order keep the speaker covered. -/
theorem Covered.run {cs : List Command} {player : Player Speaker} {t now : Instant}
    (h : player.Covered t) (hp : ∀ tune start, Command.play tune start ∉ cs)
    (hs : (t :: (Command.instants cs ++ [now])).Pairwise fun a b => a.ticks.toNat ≤ b.ticks.toNat)
    (hb : ∀ u ∈ Command.instants cs, u.ticks.toNat < 2 ^ 63) :
    (Player.run Speaker.buzzer cs player).1.Covered now := by
  induction cs generalizing player t with
  | nil => exact h.mono (List.rel_of_pairwise_cons hs (List.mem_singleton.mpr rfl))
  | cons c cs ih =>
    have hp' : ∀ tune start, Command.play tune start ∉ cs := fun tune start hm =>
      hp tune start (List.mem_cons_of_mem c hm)
    cases c with
    | play tune start => exact absurd List.mem_cons_self (hp tune start)
    | stop => exact ih h.stop hp' hs hb
    | update u =>
      obtain ⟨ht,hs'⟩ := List.pairwise_cons.mp hs
      have hu := h.update (ht u List.mem_cons_self) (hb u List.mem_cons_self)
      exact ih hu hp' hs' fun v hv => hb v (List.mem_cons_of_mem u hv)

theorem covered_of_taken {cs : List Command} {player : Player Speaker} {now : Instant}
    {note : Note} {ms : Float32} (hp : ∀ tune start, Command.play tune start ∉ cs)
    (hs : (Command.instants cs ++ [now]).Pairwise fun a b => a.ticks.toNat ≤ b.ticks.toNat)
    (hb : ∀ u ∈ Command.instants cs, u.ticks.toNat < 2 ^ 63)
    (ht : .tone note ms ∈ Act.taken (player.playback.run cs).2) :
    (Player.run Speaker.buzzer cs player).1.Covered now := by
  induction cs generalizing player with
  | nil => cases ht
  | cons c cs ih =>
    have hp' : ∀ tune start, Command.play tune start ∉ cs := fun tune start hm =>
      hp tune start (List.mem_cons_of_mem c hm)
    rw [Playback.run, Act.taken_append, List.mem_append] at ht
    cases c with
    | play tune start => exact absurd List.mem_cons_self (hp tune start)
    | stop =>
      rcases ht with ht | ht
      · rw [Playback.step, Act.taken_stop] at ht
        cases ht
      · exact ih hp' hs hb ht
    | update u =>
      have hb' : ∀ v ∈ Command.instants cs, v.ticks.toNat < 2 ^ 63 := fun v hv =>
        hb v (List.mem_cons_of_mem u hv)
      rcases ht with ht | ht
      · exact (covered_of_tone ht).run hp' hs hb'
      · exact ih hp' (List.pairwise_cons.mp hs).2 hb' ht

end Player

/-- Where the calls come in order, an update that finds a tune due from which a tone has been taken
has the speaker off before the next event acts, with no deadline pending. So the speaker is off
after an update that takes a rest or finds the tune finished. -/
theorem tone_is_over_when_due (cs earlier since : List Command) (tune : Tune) (start now : Instant)
    (hc : cs = earlier ++ .play tune start :: since)
    (hp : ∀ other t, Command.play other t ∉ since)
    (ho : (Command.instants (cs ++ [.update now])).Pairwise fun a b =>
      a.ticks.toNat ≤ b.ticks.toNat)
    (hb : ∀ t ∈ Command.instants (cs ++ [.update now]), t.ticks.toNat < 2 ^ 63)
    (ht : ∃ note ms, .tone note ms ∈ Act.taken (Playback.run since (Playback.play tune start).1).2)
    (hd : (Player.run Speaker.buzzer cs (.ofBuzzer .initial)).1.playback.isDue now = true) :
    let player := (Player.run Speaker.buzzer cs (.ofBuzzer .initial)).1
    let told := player.buzzer.update now
    let updated := (player.step Speaker.buzzer (.update now)).1
    told.pwm.enabled = false ∧ told.silenceAt = none ∧
    updated.buzzer = (Speaker.buzzer.performAll (player.playback.take now).2 told).1 ∧
    ((∀ note ms, .tone note ms ∉ Act.taken (player.playback.take now).2) →
      updated.buzzer.pwm.enabled = false) ∧
    ∀ ms, (Duration.ofMillis (ms * Event.articulation)).millis ≤ (Duration.ofMillis ms).millis := by
  intro player told updated
  obtain ⟨note,ms,ht⟩ := ht
  have hi : Command.instants (cs ++ [.update now]) =
      Command.instants earlier ++ start :: (Command.instants since ++ [now]) := by
    simp [hc, Command.instants, Command.instant?]
  rw [hi] at ho hb
  have hs := (List.pairwise_cons.mp (List.pairwise_append.mp ho).2.1).2
  have hb' : ∀ t ∈ Command.instants since ++ [now], t.ticks.toNat < 2 ^ 63 := fun t hm =>
    hb t (List.mem_append_right _ (List.mem_cons_of_mem _ hm))
  have hn : now.ticks.toNat < 2 ^ 63 := hb' now (by simp)
  have hcov : player.Covered now := by
    have hr : player = (Player.run Speaker.buzzer since
        ((Player.run Speaker.buzzer earlier (.ofBuzzer .initial)).1.step Speaker.buzzer
          (.play tune start)).1).1 := by
      simp only [player, hc, Player.run_append]
      rfl
    rw [hr]
    exact Player.covered_of_taken hp hs (fun u hu => hb' u (List.mem_append_left _ hu)) ht
  have hsil : told.silenceAt = none := hcov.silenceAt_update le_rfl hn hd
  have hoff : told.pwm.enabled = false := by
    have hcoh : told.pwm.enabled = told.silenceAt.isSome :=
      Speaker.coherent_update hcov.coherent now
    rw [hcoh, hsil]
    rfl
  have hu : player.playback.update now = _ := Playback.update_of_isDue hd
  refine ⟨hoff,hsil,?_,?_,?_⟩
  · simp only [updated, Player.step, Playback.step]
    rw [hu]
    rfl
  · intro hno
    have hno' : ∀ note ms, Event.tone note ms ∉ Act.taken (player.playback.update now).2 := by
      rw [hu]
      exact hno
    have hb : updated.buzzer = told := Player.buzzer_update_of_no_tone hno'
    rw [hb]
    exact hoff
  · exact fun ms => UInt64.le_iff_toNat_le.mpr (Event.sounding_le_slot ms)

/-- A quarter note of 500 ms sounds for 425 ms, so it is over when the pause behind it is taken. -/
theorem tone_is_over_when_due_before_rest :
    let cs : List Command :=
      [.play (.ofBytes [0x43, 0x34, 0x50, 0x34]) ⟨0⟩, .update ⟨0⟩, .update ⟨100⟩]
    let player := (Player.run Speaker.buzzer cs (.ofBuzzer .initial)).1
    player.buzzer.pwm.enabled = true ∧ player.playback.isDue ⟨500⟩ = true ∧
      Act.taken (player.playback.take ⟨500⟩).2 = [.rest 500] ∧
      (player.buzzer.update ⟨500⟩).silenceAt = none ∧
      (player.step Speaker.buzzer (.update ⟨500⟩)).1.buzzer.pwm.enabled = false := by
  intro cs player
  have hd : player.playback.isDue ⟨500⟩ = true := by decide +kernel
  have hr : Act.taken (player.playback.take ⟨500⟩).2 = [.rest 500] := by decide +kernel
  obtain ⟨_,hs,_,hoff,_⟩ := tone_is_over_when_due cs [] [.update ⟨0⟩, .update ⟨100⟩] _ ⟨0⟩ ⟨500⟩
    rfl (by simp) (by decide) (by decide) ⟨⟨⟨.c, .natural⟩, .middle⟩,500,by decide +kernel⟩ hd
  have hno : ∀ note ms, Event.tone note ms ∉ Act.taken (player.playback.take ⟨500⟩).2 := by
    rw [hr]
    simp
  refine ⟨by decide +kernel,hd,hr,hs,?_⟩
  simp only [player]
  exact hoff hno

end Chime
