import Chime.Proofs.Circle
import Chime.Proofs.Silence
import Chime.Proofs.Update

/-!
# Deadlines

A deadline is set so many milliseconds ahead of a reading. Playback asks whether the clock is before
it, the speaker whether the clock is at it or behind it, and the order of readings around the circle
has a seam. Both get the same answer at every reading: the deadline is reached where it lies, on
whichever side of the clock's turn that is, and it stays reached for half of the circle.
-/

set_option autoImplicit false

namespace Chime

namespace Duration

/-- A deadline so far ahead is reached so much later: it has come, and no more than half of the
circle has gone by since. -/
def Reached (ahead elapsed : Duration) : Prop :=
  ahead.millis.toNat ≤ elapsed.millis.toNat ∧
    elapsed.millis.toNat ≤ ahead.millis.toNat + (2 ^ 63 - 1)

instance (ahead elapsed : Duration) : Decidable (ahead.Reached elapsed) :=
  inferInstanceAs (Decidable (_ ∧ _))

theorem eq_iff_toNat (d e : Duration) : d = e ↔ d.millis.toNat = e.millis.toNat := by
  rw [UInt64.toNat_inj]
  exact ⟨congrArg millis,congrArg mk⟩

end Duration

namespace Instant

/-- Which of two readings comes first around the circle. Where the way back from the first to the
second is 2^63 - 1 they count as the same. -/
def order (a b : Instant) : Ordering :=
  if a = b then .eq
  else if 0x7fffffffffffffff < a.ticks - b.ticks then .lt
  else if a.ticks - b.ticks < 0x7fffffffffffffff then .gt
  else .eq

theorem eq_iff_toNat_sub (a b : Instant) : a = b ↔ (a.ticks - b.ticks).toNat = 0 := by
  have ha := a.ticks.toNat_lt
  have hb := b.ticks.toNat_lt
  have he : a = b ↔ a.ticks.toNat = b.ticks.toNat := by
    rw [UInt64.toNat_inj]
    exact ⟨congrArg ticks,congrArg mk⟩
  rw [he, UInt64.toNat_sub]
  omega

theorem isGE_order (a b : Instant) : (a.order b).isGE = !a.isBefore b := by
  unfold order isBefore
  split
  next h => simp [h]
  next =>
    split
    next hb => simp [hb]
    next hb => split <;> simp [hb]

/-- The order has a seam opposite to a reading, where another one counts as the same. -/
theorem order_eq_iff (a b : Instant) :
    a.order b = .eq ↔
      (a.ticks - b.ticks).toNat = 0 ∨ (a.ticks - b.ticks).toNat = 2 ^ 63 - 1 := by
  have hh : (0x7fffffffffffffff : UInt64).toNat = 2 ^ 63 - 1 := rfl
  simp only [order, eq_iff_toNat_sub, UInt64.lt_iff_toNat_lt, hh]
  generalize (a.ticks - b.ticks).toNat = back
  grind

variable (start : Instant) {ahead elapsed : Duration}

theorem not_isBefore_deadline_iff (h : ahead.millis.toNat ≤ 2 ^ 63) :
    (start + elapsed).isBefore (start + ahead) = false ↔ ahead.Reached elapsed := by
  rw [add_eq_later, add_eq_later]
  exact not_isBefore_later_iff start elapsed.millis.toNat_lt h

theorem isBefore_deadline_iff (h : ahead.millis.toNat ≤ 2 ^ 63) :
    (start + elapsed).isBefore (start + ahead) = true ↔ ¬ahead.Reached elapsed := by
  rw [← not_isBefore_deadline_iff start h, Bool.not_eq_false]

theorem order_deadline_eq_iff (h : ahead.millis.toNat ≤ 2 ^ 63) :
    (start + elapsed).order (start + ahead) = .eq ↔
      elapsed = ahead ∨ elapsed.millis.toNat = ahead.millis.toNat + (2 ^ 63 - 1) := by
  have he := elapsed.millis.toNat_lt
  rw [order_eq_iff, Duration.eq_iff_toNat, add_eq_later, add_eq_later,
    toNat_later_sub start he (by omega)]
  split <;> omega

theorem add_zero_millis : start + (⟨0⟩ : Duration) = start := by
  rw [add_eq_later]
  exact start.later_zero

theorem not_isBefore_own_deadline_iff (h : ahead.millis.toNat ≤ 2 ^ 63) :
    start.isBefore (start + ahead) = false ↔ ahead = ⟨0⟩ := by
  have hr : (start + (⟨0⟩ : Duration)).isBefore (start + ahead) = false ↔ ahead.Reached ⟨0⟩ :=
    start.not_isBefore_deadline_iff h
  rw [add_zero_millis] at hr
  rw [hr, Duration.eq_iff_toNat, Duration.Reached]
  simp

theorem deadline_not_isBefore (h : ahead.millis.toNat ≤ 2 ^ 63 - 1) :
    (start + ahead).isBefore start = false := by
  have hr : (start + ahead).isBefore (start + (⟨0⟩ : Duration)) = false ↔
      Duration.Reached ⟨0⟩ ahead := start.not_isBefore_deadline_iff (by simp)
  rw [add_zero_millis] at hr
  exact hr.mpr ⟨Nat.zero_le _,Nat.le_trans h (Nat.le_add_left _ _)⟩

theorem forall_isBefore_deadline_iff (h : ahead.millis.toNat ≤ 2 ^ 63) (delays : List Duration) :
    (∀ now ∈ delays.map (start + ·), now.isBefore (start + ahead) = true) ↔
      ∀ elapsed ∈ delays, ¬ahead.Reached elapsed := by
  rw [List.forall_mem_map]
  exact forall₂_congr fun _ _ => isBefore_deadline_iff start h

end Instant

namespace Act

theorem ticks_map_tick (nows : List Instant) : ticks (nows.map .tick) = nows := by
  rw [ticks, List.filterMap_map]
  exact List.filterMap_some

theorem sounds_map_tick (nows : List Instant) : sounds (nows.map .tick) = [] := by
  rw [sounds, List.filterMap_map]
  exact List.filterMap_eq_nil_iff.mpr fun _ _ => rfl

end Act

namespace Playback

variable {p : Playback} {start : Instant} {ahead : Duration}

theorem update_of_isPlaying (h : p.isPlaying = true) (now : Instant) :
    p.update now = if now.isBefore p.deadline then (p, [.tick now])
      else ((p.take now).1, .tick now :: (p.take now).2) := by
  have hd : p.isDue now = !now.isBefore p.deadline := by rw [isDue, h, Bool.and_true]
  cases hb : now.isBefore p.deadline with
  | true => exact update_of_not_isDue (by rw [hd, hb]; rfl)
  | false => exact update_of_isDue (by rw [hd, hb]; rfl)

theorem update_of_deadline (hp : p.isPlaying = true) (hd : p.deadline = start + ahead)
    (h : ahead.millis.toNat ≤ 2 ^ 63) (elapsed : Duration) :
    let now := start + elapsed
    p.update now = if ahead.Reached elapsed then
      ((p.take now).1, .tick now :: (p.take now).2) else (p, [.tick now]) := by
  intro now
  rw [update_of_isPlaying hp, hd]
  simp only [now, start.isBefore_deadline_iff h, ite_not]

theorem exists_say_take (p : Playback) (now : Instant) :
    ∃ message acts, (p.take now).2 = .say message :: acts := by
  unfold take
  split
  · exact ⟨_,_,rfl⟩
  · exact ⟨_,_,rfl⟩

/-- Updates do nothing but tell the time just as long as each is before the deadline. -/
theorem run_updates_iff (h : p.isPlaying = true) (nows : List Instant) :
    run (nows.map .update) p = (p, nows.map .tick) ↔
      ∀ now ∈ nows, now.isBefore p.deadline = true := by
  induction nows with
  | nil => simp [run]
  | cons now nows ih =>
    rw [List.forall_mem_cons, ← ih, List.map_cons, List.map_cons, run, step,
      update_of_isPlaying h]
    cases hb : now.isBefore p.deadline with
    | true => simp [Prod.ext_iff]
    | false =>
      obtain ⟨message,acts,ht⟩ := p.exists_say_take now
      rw [if_neg Bool.false_ne_true, ht]
      refine iff_of_false ?_ (by simp)
      intro he
      have ha : .say message :: (acts ++ _) = nows.map Act.tick :=
        List.tail_eq_of_cons_eq (congrArg Prod.snd he)
      cases nows with
      | nil => cases ha
      | cons next nows => cases ha

end Playback

namespace Speaker

variable {s : Speaker} {deadline start : Instant} {ahead : Duration}

theorem update_of_silenceAt (h : s.silenceAt = some deadline) (now : Instant) :
    s.update now = if now.isBefore deadline then ⟨s.pwm, now, some deadline⟩
      else ⟨{ s.pwm with enabled := false }, now, none⟩ := by
  rw [update, h]

theorem update_of_deadline (hs : s.silenceAt = some (start + ahead))
    (h : ahead.millis.toNat ≤ 2 ^ 63) (elapsed : Duration) :
    let now := start + elapsed
    s.update now = if ahead.Reached elapsed then ⟨{ s.pwm with enabled := false }, now, none⟩
      else ⟨s.pwm, now, some (start + ahead)⟩ := by
  intro now
  rw [update_of_silenceAt hs]
  simp only [now, start.isBefore_deadline_iff h, ite_not]

/-- Nothing but the time changes for a speaker that waits, just as long as each time that it is
told is before the deadline. -/
theorem performAll_ticks_iff (h : s.silenceAt = some deadline) (nows : List Instant) :
    (buzzer.performAll (nows.map .tick) s).1 = ⟨s.pwm, nows.getLast?.getD s.now, s.silenceAt⟩ ↔
      ∀ now ∈ nows, now.isBefore deadline = true := by
  obtain ⟨pwm,told,_⟩ := s
  cases h
  rw [performAll_sounding (Act.sounds_map_tick nows), latest_eq_getLast, Act.ticks_map_tick,
    ← List.all_eq_true]
  split
  next ha => exact iff_of_true rfl ha
  next ha => exact iff_of_false (by simp) ha

end Speaker

theorem Player.deadlines_of_taken {player : Player Speaker} {start : Instant} {event : Event}
    (h : event ∈ Act.taken (player.playback.update start).2) :
    let updated := (player.step Speaker.buzzer (.update start)).1
    updated.playback.deadline = start + Duration.ofMillis event.millis ∧
      ∀ note ms, event = .tone note ms →
        updated.buzzer.silenceAt = some (start + Duration.ofMillis (ms * Event.articulation)) := by
  rcases player.playback.update_cases start with ⟨_,hu⟩ | ⟨taken,behind,_,_,hu⟩ | ⟨behind,_,_,hu⟩
  · simp [hu] at h
  · rw [hu, Act.taken_tick, Act.taken_took, Act.taken_acts, List.mem_singleton] at h
    subst h
    intro updated
    refine ⟨?_,?_⟩
    · simp only [updated, step, Playback.step, hu]
      rfl
    · rintro note ms rfl
      have hn : (player.buzzer.update start).now = start :=
        Speaker.now_performAll [.tick start] player.buzzer
      simp only [updated, step, Playback.step, hu]
      change some ((player.buzzer.update start).now + _) = _
      rw [hn]
  · simp [hu] at h

/-- Whatever a slot comes to, its deadline lies less than 2^32 ms ahead of the reading at which it
is set. Any such deadline is reached after so many milliseconds, wherever the clock starts over, and
it stays reached for 2^63 - 1 more: so at once only if it lies no time ahead. Playback, which asks
whether the clock is before it, and the speaker, which asks whether the clock is at it or behind it,
act on it at the same readings, and along any updates both wait until the first of these. -/
theorem deadlines_are_reached_on_time :
    (∀ millis : Float32, (Duration.ofMillis millis).millis.toNat ≤ 2 ^ 32 - 1) ∧
    (∀ (player : Player Speaker) (start : Instant),
      ∀ event ∈ Act.taken (player.playback.update start).2,
        let updated := (player.step Speaker.buzzer (.update start)).1
        updated.playback.deadline = start + Duration.ofMillis event.millis ∧
          ∀ note ms, event = .tone note ms →
            updated.buzzer.silenceAt =
              some (start + Duration.ofMillis (ms * Event.articulation))) ∧
    ∀ (start : Instant) (ahead : Duration), ahead.millis.toNat ≤ 2 ^ 32 - 1 →
      let deadline := start + ahead
      deadline.isBefore start = false ∧ (start.isBefore deadline = false ↔ ahead = ⟨0⟩) ∧
      (∀ elapsed : Duration,
        let now := start + elapsed
        (now.isBefore deadline = false ↔ ahead.Reached elapsed) ∧
        ((now.order deadline).isGE = true ↔ ahead.Reached elapsed) ∧
        (now.order deadline = .eq ↔
          elapsed = ahead ∨ elapsed.millis.toNat = ahead.millis.toNat + (2 ^ 63 - 1)) ∧
        (∀ p : Playback, p.isPlaying = true → p.deadline = deadline →
          p.update now = if ahead.Reached elapsed then
            ((p.take now).1, .tick now :: (p.take now).2) else (p, [.tick now])) ∧
        ∀ s : Speaker, s.silenceAt = some deadline →
          s.update now = if ahead.Reached elapsed then
            ⟨{ s.pwm with enabled := false }, now, none⟩ else ⟨s.pwm, now, some deadline⟩) ∧
      ∀ delays : List Duration,
        let nows := delays.map (start + ·)
        (∀ p : Playback, p.isPlaying = true → p.deadline = deadline →
          (Playback.run (nows.map .update) p = (p, nows.map .tick) ↔
            ∀ elapsed ∈ delays, ¬ahead.Reached elapsed)) ∧
        ∀ s : Speaker, s.silenceAt = some deadline →
          ((Speaker.buzzer.performAll (nows.map .tick) s).1 =
              ⟨s.pwm, nows.getLast?.getD s.now, s.silenceAt⟩ ↔
            ∀ elapsed ∈ delays, ¬ahead.Reached elapsed) := by
  refine ⟨fun millis => Nat.le_pred_of_lt (Duration.ofMillis_lt millis),
    fun player start event h => Player.deadlines_of_taken h,?_⟩
  intro start ahead ha deadline
  have hh : ahead.millis.toNat ≤ 2 ^ 63 := by omega
  refine ⟨start.deadline_not_isBefore (by omega),start.not_isBefore_own_deadline_iff hh,?_,?_⟩
  · intro elapsed now
    have hr : now.isBefore deadline = false ↔ ahead.Reached elapsed :=
      start.not_isBefore_deadline_iff hh
    refine ⟨hr,?_,start.order_deadline_eq_iff hh,?_,?_⟩
    · rw [Instant.isGE_order, Bool.not_eq_true', hr]
    · exact fun p hp hd => Playback.update_of_deadline hp hd hh elapsed
    · exact fun s hs => Speaker.update_of_deadline hs hh elapsed
  · intro delays nows
    rw [← start.forall_isBefore_deadline_iff hh]
    refine ⟨?_,fun s hs => Speaker.performAll_ticks_iff hs nows⟩
    intro p hp hd
    rw [Playback.run_updates_iff hp nows, hd]

/-- A note of 500 ms that is taken 100 ms before the clock starts over is due to be followed from 400
on and sounds until 325. At 399 playback still waits, as it does where the clock has gone back to the
start or past the reading opposite to 400; at that reading it takes the next note. -/
theorem deadlines_are_reached_on_time_over_the_turn :
    let start : Instant := ⟨18446744073709551516⟩
    let player := (Player.run Speaker.buzzer [.play (.ofBytes [0x43, 0x34, 0x44]) start]
      (.ofBuzzer .initial)).1
    let updated := (player.step Speaker.buzzer (.update start)).1
    (Duration.ofMillis 500).millis.toNat ≤ 2 ^ 32 - 1 ∧
      updated.playback.deadline = ⟨400⟩ ∧ updated.buzzer.silenceAt = some ⟨325⟩ ∧
      Playback.run [.update ⟨399⟩, .update start, .update ⟨9223372036854776208⟩] updated.playback =
        (updated.playback, [.tick ⟨399⟩, .tick start, .tick ⟨9223372036854776208⟩]) ∧
      (⟨9223372036854776207⟩ : Instant).order ⟨400⟩ = .eq ∧
      Act.taken (updated.playback.update ⟨9223372036854776207⟩).2 =
        [.tone ⟨⟨.d, .natural⟩, .middle⟩ 500] ∧
      (updated.buzzer.update ⟨325⟩).silenceAt = none := by
  intro start player updated
  obtain ⟨hm,hs,hd⟩ := deadlines_are_reached_on_time
  have ht : Event.tone ⟨⟨.c, .natural⟩, .middle⟩ 500 ∈
      Act.taken (player.playback.update start).2 := by decide +kernel
  have h400 : start + (⟨500⟩ : Duration) = ⟨400⟩ := by decide
  have h325 : start + (⟨425⟩ : Duration) = ⟨325⟩ := by decide
  have hseam : start + (⟨9223372036854776307⟩ : Duration) = ⟨9223372036854776207⟩ := by decide
  have hearly : [⟨499⟩, ⟨0⟩, ⟨9223372036854776308⟩].map (start + · : Duration → Instant) =
      [⟨399⟩, start, ⟨9223372036854776208⟩] := by decide
  obtain ⟨hp,hb⟩ := hs player start _ ht
  have hpd : updated.playback.deadline = ⟨400⟩ := hp.trans (by decide +kernel)
  have hbd : updated.buzzer.silenceAt = some ⟨325⟩ := (hb _ _ rfl).trans (by decide +kernel)
  have hplay : updated.playback.isPlaying = true := by decide +kernel
  obtain ⟨_,_,hslot,hwait⟩ := hd start ⟨500⟩ (by decide)
  obtain ⟨_,_,htone,_⟩ := hd start ⟨425⟩ (by decide)
  obtain ⟨_,_,hsame,hlate,_⟩ := hslot ⟨9223372036854776307⟩
  obtain ⟨_,_,_,_,hoff⟩ := htone ⟨425⟩
  obtain ⟨hstay,_⟩ := hwait [⟨499⟩, ⟨0⟩, ⟨9223372036854776308⟩]
  rw [h400] at hsame hlate hstay
  rw [hseam] at hsame hlate
  rw [hearly] at hstay
  rw [h325] at hoff
  refine ⟨hm 500,hpd,hbd,?_,hsame.mpr (by decide),?_,?_⟩
  · exact (hstay _ hplay hpd).mpr (by decide)
  · rw [hlate _ hplay hpd, if_pos (by decide)]
    decide +kernel
  · rw [hoff _ hbd, if_pos (by decide)]

end Chime
