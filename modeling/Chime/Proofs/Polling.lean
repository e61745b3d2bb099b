import Mathlib.Algebra.Order.Floor.Div
import Chime.Proofs.Circle
import Chime.Proofs.Update

/-!
# Polling at a steady rate

Polls follow each other at one period from the moment a tune is loaded, around the circle of the
clock as often as it takes. An event keeps its slot for as many polls as the period fits into it,
rounded up, and for one poll at least. The polls that take the events and the poll after which
nothing plays are counted from the lengths of the slots alone.
-/

set_option autoImplicit false

namespace Chime

namespace Event

/-- How many polls after the one that takes an event its slot is over. -/
def polls (event : Event) (period : Duration) : Nat :=
  max 1 (event.millis.toUInt32.toNat ⌈/⌉ period.millis.toNat)

variable {period : Duration}

theorem polls_le_iff (event : Event) (hp : 0 < period.millis.toNat) (j : Nat) :
    event.polls period ≤ j ↔ 1 ≤ j ∧ event.slot.millis.toNat ≤ period.millis.toNat * j := by
  rw [polls, max_le_iff, ceilDiv_le_iff_le_smul hp, smul_eq_mul, toNat_slot]

theorem mul_le_of_le_polls (event : Event) (hp : 0 < period.millis.toNat) {j : Nat}
    (hj : j ≤ event.polls period) :
    j * period.millis.toNat ≤ event.slot.millis.toNat + period.millis.toNat := by
  cases j with
  | zero => simp
  | succ i =>
    rw [Nat.succ_mul]
    cases i with
    | zero => omega
    | succ i =>
      have hn := (event.polls_le_iff hp (i + 1)).not.mp (by omega)
      rw [Nat.mul_comm] at hn
      omega

/-- Between two events the polls come too early, and the one that takes the next does not. -/
theorem slot_over_iff (event : Event) (hp : 0 < period.millis.toNat)
    (hh : period.millis.toNat < 2 ^ 63) (t : Instant) {j : Nat} (h1 : 1 ≤ j)
    (hj : j ≤ event.polls period) :
    (t.later (j * period.millis.toNat)).isBefore (t + event.slot) = false ↔
      event.polls period ≤ j := by
  have hd : event.slot.millis.toNat < 2 ^ 32 := Duration.ofMillis_lt event.millis
  have hm := event.mul_le_of_le_polls hp hj
  rw [Instant.add_eq_later, Instant.not_isBefore_later_iff t (by omega) (by omega),
    event.polls_le_iff hp, Nat.mul_comm period.millis.toNat j]
  omega

theorem acts_eq (event : Event) : event.acts = match event with
    | .tone note ms => [.sound note.frequency (.ofMillis (ms * 0.85))]
    | .rest _ => [] := by
  cases event <;> rfl

end Event

namespace Cursor

def pollOf (c : Cursor) (period : Duration) (k : Nat) : Nat :=
  ((c.events.take k).map fun event => event.polls period).sum

def endsOnEvent (c : Cursor) : Bool :=
  c.drain.getLast?.any fun item => !item.2.isPlaying

def lastPoll (c : Cursor) (period : Duration) : Nat :=
  c.pollOf period (if c.endsOnEvent then c.events.length - 1 else c.events.length)

variable {c behind : Cursor} {event : Event} {period : Duration}

theorem pollOf_zero (c : Cursor) (period : Duration) : c.pollOf period 0 = 0 := by
  simp [pollOf]

theorem pollOf_succ (h : c.next = (some event, behind)) (k : Nat) :
    c.pollOf period (k + 1) = event.polls period + behind.pollOf period k := by
  simp [pollOf, events_of_some h]

theorem lastPoll_of_none (h : c.next = (none, behind)) : c.lastPoll period = 0 := by
  simp [lastPoll, events_of_none h, pollOf]

theorem endsOnEvent_of_some (h : c.next = (some event, behind)) :
    c.endsOnEvent = (!behind.isPlaying || behind.endsOnEvent) := by
  rw [endsOnEvent, endsOnEvent, drain_of_some h]
  cases hb : behind.isPlaying with
  | false =>
    have hd : behind.drain = [] := drain_of_none (next_of_not_isPlaying hb)
    simp [hd, hb]
  | true =>
    cases hd : behind.drain with
    | nil => simp [hb]
    | cons item items => simp [List.getLast?_cons_cons]

theorem lastPoll_of_ended (h : c.next = (some event, behind)) (hb : behind.isPlaying = false) :
    c.lastPoll period = 0 := by
  have he : c.events = [event] := by rw [events_of_some h, events_of_not_isPlaying hb]
  simp [lastPoll, endsOnEvent_of_some h, hb, he, pollOf]

theorem events_of_endsOnEvent (h : c.endsOnEvent = true) : c.events ≠ [] := by
  intro he
  have hd : c.drain = [] := List.map_eq_nil_iff.mp he
  simp [endsOnEvent, hd] at h

theorem lastPoll_of_some (h : c.next = (some event, behind)) (hb : behind.isPlaying = true) :
    c.lastPoll period = event.polls period + behind.lastPoll period := by
  have he : c.endsOnEvent = behind.endsOnEvent := by simp [endsOnEvent_of_some h, hb]
  have hl : c.events.length = behind.events.length + 1 := by simp [events_of_some h]
  rw [lastPoll, lastPoll, he, hl]
  cases hs : behind.endsOnEvent with
  | false => exact pollOf_succ h _
  | true =>
    have hn := List.length_pos_of_ne_nil (events_of_endsOnEvent hs)
    have hk : behind.events.length + 1 - 1 = behind.events.length - 1 + 1 := by omega
    simp only [if_true]
    rw [hk]
    exact pollOf_succ h _

end Cursor

namespace Playback

def polled (p : Playback) (tune : Tune) (start : Instant) (period : Duration) (m : Nat) :
    Playback :=
  (run (.play tune start :: (start.polls period m).map .update) p).1

variable {f : Nat → Playback} {start : Instant} {period : Duration}

def Polled (f : Nat → Playback) (start : Instant) (period : Duration) : Prop :=
  ∀ m, f (m + 1) = ((f m).update (start.poll period m)).1

def actsAt (f : Nat → Playback) (start : Instant) (period : Duration) (m : Nat) : List Act :=
  ((f m).update (start.poll period m)).2

/-- The poll with this number finds the deadline reached, and this cursor. -/
def Ready (f : Nat → Playback) (start : Instant) (period : Duration) (m : Nat) (c : Cursor) :
    Prop :=
  (f m).cursor = c ∧ (start.poll period m).isBefore (f m).deadline = false

theorem polled_polled (p : Playback) (tune : Tune) (start : Instant) (period : Duration) :
    Polled (p.polled tune start period) start period := by
  intro m
  rw [polled, polled, Instant.polls_succ, List.map_append, ← List.cons_append, run_append]
  rfl

theorem ready_zero (p : Playback) (tune : Tune) (start : Instant) (period : Duration) :
    Ready (p.polled tune start period) start period 0 (.start tune) := by
  refine ⟨rfl,?_⟩
  rw [Instant.poll_zero]
  exact start.isBefore_self

theorem polled_of_not_isPlaying (hf : Polled f start period) {m : Nat}
    (h : (f m).isPlaying = false) (j : Nat) :
    f (m + j) = f m ∧ actsAt f start period (m + j) = [.tick (start.poll period (m + j))] := by
  have hu : ∀ q now, q = f m → q.update now = (q, [.tick now]) := by
    intro q now hq
    exact update_of_not_isDue (by simp [isDue, hq, h])
  have hs : f (m + j) = f m := by
    induction j with
    | zero => rfl
    | succ j ih => rw [← Nat.add_assoc, hf, hu _ _ ih, ih]
  exact ⟨hs,congrArg Prod.snd (hu _ _ hs)⟩

theorem stays_ended (hf : Polled f start period) {m i : Nat} (h : (f m).isPlaying = false)
    (hi : m ≤ i) : (f i).isPlaying = false := by
  obtain ⟨j,rfl⟩ := Nat.exists_eq_add_of_le hi
  rw [(polled_of_not_isPlaying hf h j).1, h]

theorem ready_of_none (hf : Polled f start period) {m : Nat} {c behind : Cursor}
    (h : Ready f start period m c) (hn : c.next = (none, behind)) :
    (f (m + 1)).isPlaying = false ∧
      ∀ j, actsAt f start period (m + j) = [.tick (start.poll period (m + j))] ∨
        actsAt f start period (m + j) = [.tick (start.poll period (m + j)), .say .finished] := by
  obtain ⟨rfl,hb⟩ := h
  cases hc : (f m).isPlaying with
  | false =>
    have hs := polled_of_not_isPlaying hf hc
    exact ⟨by rw [(hs 1).1, hc],fun j => .inl (hs j).2⟩
  | true =>
    have hu := update_of_isDue ((isDue_iff _ _).mpr ⟨hb,hc⟩)
    rw [take_of_none hn] at hu
    have he : (f (m + 1)).isPlaying = false := by
      rw [hf, hu]
      exact Cursor.not_isPlaying_of_none hn
    refine ⟨he,?_⟩
    intro j
    cases j with
    | zero => exact .inr (by rw [Nat.add_zero, actsAt, hu])
    | succ j =>
      have hs := polled_of_not_isPlaying hf he j
      rw [Nat.add_assoc, Nat.add_comm 1] at hs
      exact .inl hs.2

section

variable (hf : Polled f start period) (hp : 0 < period.millis.toNat)
  (hh : period.millis.toNat < 2 ^ 63)

include hf hp hh

theorem polled_slot {m : Nat} {behind : Cursor} {event : Event}
    (h : f (m + 1) = ⟨behind, start.poll period m + event.slot⟩)
    {j : Nat} (h1 : 1 ≤ j) (hj : j ≤ event.polls period) :
    f (m + j) = f (m + 1) ∧
      ((start.poll period (m + j)).isBefore (f (m + j)).deadline = false ↔
        event.polls period ≤ j) := by
  have hs : f (m + j) = f (m + 1) := by
    induction j, h1 using Nat.le_induction with
    | base => rfl
    | succ i hi ih =>
      have he := ih (by omega)
      have hn := (event.slot_over_iff hp hh (start.poll period m) hi (by omega)).not.mpr (by omega)
      rw [← Nat.add_assoc, hf, update_of_not_isDue, he]
      rw [he, h, Instant.poll_add]
      simp [isDue, hn]
  refine ⟨hs,?_⟩
  rw [hs, h, Instant.poll_add]
  exact event.slot_over_iff hp hh _ h1 hj

/-- A poll that is ready for an event takes it, and those in its slot find it not over yet. -/
theorem ready_of_some {m : Nat} {c behind : Cursor} {event : Event}
    (h : Ready f start period m c) (hn : c.next = (some event, behind)) :
    actsAt f start period m =
      .tick (start.poll period m) :: .say (.took event (start.poll period m)) :: event.acts ∧
    Ready f start period (m + event.polls period) behind ∧
    ∀ j, 1 ≤ j → j ≤ event.polls period → (f (m + j)).cursor = behind ∧
      (j < event.polls period → actsAt f start period (m + j) =
        [.tick (start.poll period (m + j))]) := by
  obtain ⟨rfl,hb⟩ := h
  have hp1 : 1 ≤ event.polls period := Nat.le_max_left 1 _
  have hc : (f m).isPlaying = true :=
    Cursor.isPlaying_of_events (by simp [Cursor.events_of_some hn])
  have hu := update_of_isDue ((isDue_iff _ _).mpr ⟨hb,hc⟩)
  rw [take_of_some hn] at hu
  have hs : f (m + 1) = ⟨behind, start.poll period m + event.slot⟩ := by
    rw [hf, hu]
  have hw := fun j h1 hj => polled_slot hf hp hh hs (j := j) h1 hj
  refine ⟨by rw [actsAt, hu],⟨?_,?_⟩,?_⟩
  · rw [(hw _ hp1 (Nat.le_refl _)).1, hs]
  · exact (hw _ hp1 (Nat.le_refl _)).2.mpr (Nat.le_refl _)
  · intro j h1 hj
    obtain ⟨he,hr⟩ := hw j h1 hj
    refine ⟨by rw [he, hs],?_⟩
    intro hlt
    have hn : ¬ _ := hr.not.mpr (by omega)
    rw [actsAt, update_of_not_isDue]
    simp [isDue, hn]

theorem acts_pollOf {m k : Nat} {c : Cursor} (h : Ready f start period m c)
    (hk : k < c.events.length) :
    actsAt f start period (m + c.pollOf period k) =
      .tick (start.poll period (m + c.pollOf period k)) ::
        .say (.took c.events[k] (start.poll period (m + c.pollOf period k))) ::
          c.events[k].acts := by
  induction c using Cursor.drain.induct generalizing m k with
  | case1 c event behind hn ih =>
    obtain ⟨ha,hr,_⟩ := ready_of_some hf hp hh h hn
    cases k with
    | zero => simpa [Cursor.pollOf_zero, Cursor.events_of_some hn] using ha
    | succ k =>
      have hi := ih hr (k := k) (by simpa [Cursor.events_of_some hn] using hk)
      rw [Nat.add_assoc, ← Cursor.pollOf_succ hn] at hi
      simpa [Cursor.events_of_some hn] using hi
  | case2 c behind hn => simp [Cursor.events_of_none hn] at hk

theorem acts_other {m j : Nat} {c : Cursor} (h : Ready f start period m c)
    (hj : ∀ k < c.events.length, j ≠ c.pollOf period k) :
    actsAt f start period (m + j) = [.tick (start.poll period (m + j))] ∨
      actsAt f start period (m + j) = [.tick (start.poll period (m + j)), .say .finished] := by
  induction c using Cursor.drain.induct generalizing m j with
  | case1 c event behind hn ih =>
    obtain ⟨_,hr,hw⟩ := ready_of_some hf hp hh h hn
    have hl : c.events.length = behind.events.length + 1 := by simp [Cursor.events_of_some hn]
    have h0 : j ≠ 0 := by simpa [Cursor.pollOf_zero] using hj 0 (by omega)
    by_cases hlt : j < event.polls period
    · exact .inl ((hw j (by omega) (by omega)).2 hlt)
    · obtain ⟨i,rfl⟩ := Nat.exists_eq_add_of_le (Nat.le_of_not_lt hlt)
      rw [← Nat.add_assoc]
      apply ih hr
      intro k hk he
      have hne := hj (k + 1) (by omega)
      rw [Cursor.pollOf_succ hn, he] at hne
      exact hne rfl
  | case2 c behind hn => exact (ready_of_none hf h hn).2 j

theorem isPlaying_lastPoll {m : Nat} {c : Cursor} (h : Ready f start period m c)
    (hc : c.isPlaying = true) (j : Nat) :
    (f (m + j + 1)).isPlaying = false ↔ c.lastPoll period ≤ j := by
  induction c using Cursor.drain.induct generalizing m j with
  | case1 c event behind hn ih =>
    obtain ⟨_,hr,hw⟩ := ready_of_some hf hp hh h hn
    have hp1 : 1 ≤ event.polls period := Nat.le_max_left 1 _
    cases hb : behind.isPlaying with
    | false =>
      -- the last of the tune went with the event, so its slot is not waited for
      have he : (f (m + 1)).isPlaying = false := by
        rw [isPlaying, (hw 1 (Nat.le_refl 1) hp1).1, hb]
      rw [Cursor.lastPoll_of_ended hn hb]
      exact iff_of_true (stays_ended hf he (by omega)) (Nat.zero_le j)
    | true =>
      rw [Cursor.lastPoll_of_some hn hb]
      by_cases hlt : j < event.polls period
      · have he : (f (m + (j + 1))).isPlaying = true := by
          rw [isPlaying, (hw (j + 1) (by omega) (by omega)).1, hb]
        rw [Nat.add_assoc, he]
        exact iff_of_false (by simp) (by omega)
      · obtain ⟨i,rfl⟩ := Nat.exists_eq_add_of_le (Nat.le_of_not_lt hlt)
        have hi := ih hr hb i
        rw [Nat.add_assoc m] at hi
        rw [hi]
        omega
  | case2 c behind hn =>
    have he := (ready_of_none hf h hn).1
    rw [Cursor.lastPoll_of_none hn]
    exact iff_of_true (stays_ended hf he (by omega)) (Nat.zero_le j)

end

end Playback

/-- Which poll takes which event, at what reading, and when the tune is over, for every tune, every
start on the circle and every period of less than half of it. -/
theorem polls_take_events (p : Playback) (tune : Tune) (start : Instant) (period : Duration)
    (hp : 1 ≤ period.millis.toNat) (hh : period.millis.toNat ≤ 2 ^ 63 - 1) :
    let c := Cursor.start tune
    let before := p.polled tune start period
    let acts := fun m => ((before m).update (start.poll period m)).2
    (∀ k, (hk : k < c.events.length) →
      acts (c.pollOf period k) =
        .tick (start.poll period (c.pollOf period k)) ::
          .say (.took c.events[k] (start.poll period (c.pollOf period k))) ::
            match c.events[k] with
            | .tone note ms => [.sound note.frequency (.ofMillis (ms * 0.85))]
            | .rest _ => []) ∧
    (∀ m, (∀ k < c.events.length, m ≠ c.pollOf period k) →
      acts m = [.tick (start.poll period m)] ∨
        acts m = [.tick (start.poll period m), .say .finished]) ∧
    (tune ≠ .empty → ∀ m, (before (m + 1)).isPlaying = false ↔ c.lastPoll period ≤ m) ∧
    (∃ m, (before m).isPlaying = false) := by
  intro c before acts
  have hf : Playback.Polled before start period := p.polled_polled tune start period
  have hr : Playback.Ready before start period 0 c := p.ready_zero tune start period
  have hl : tune ≠ .empty → ∀ m, (before (m + 1)).isPlaying = false ↔ c.lastPoll period ≤ m := by
    intro ht m
    have hc := (Cursor.isPlaying_start tune).mpr ht
    have hm := Playback.isPlaying_lastPoll hf (by omega) (by omega) hr hc m
    rwa [Nat.zero_add] at hm
  refine ⟨?_,?_,hl,?_⟩
  · intro k hk
    have ha := Playback.acts_pollOf hf (by omega) (by omega) hr hk
    rw [Nat.zero_add, Event.acts_eq] at ha
    exact ha
  · intro m hm
    have ho := Playback.acts_other hf (by omega) (by omega) hr hm
    rwa [Nat.zero_add] at ho
  · cases hc : c.isPlaying with
    | false => exact ⟨0,hc⟩
    | true => exact ⟨_,(hl ((Cursor.isPlaying_start tune).mp hc) _).mpr (Nat.le_refl _)⟩

/-- An eighth note and a quarter rest that start 100 ms before the clock starts over: at a period
of 100 ms poll 0 asks for the note, which sounds for 212 of its 250 ms, the rest is taken by poll 3,
after the turn, and poll 8 is the first to end the tune. -/
theorem polls_take_events_over_the_turn :
    let start : Instant := ⟨18446744073709551516⟩
    let before := Playback.initial.polled (.ofBytes [0x43, 0x38, 0x50, 0x34]) start ⟨100⟩
    (1 ≤ (100 : UInt64).toNat ∧ (100 : UInt64).toNat ≤ 2 ^ 63 - 1) ∧
      ((before 0).update start).2 =
        [.tick start, .say (.took (.tone ⟨⟨.c, .natural⟩, .middle⟩ 250) start), .sound 262 ⟨212⟩] ∧
      ((before 3).update ⟨200⟩).2 = [.tick ⟨200⟩, .say (.took (.rest 500) ⟨200⟩)] ∧
      (before 8).isPlaying = true ∧ (before 9).isPlaying = false := by
  intro start before
  obtain ⟨hk,_,hl,_⟩ := polls_take_events .initial (.ofBytes [0x43, 0x38, 0x50, 0x34]) start ⟨100⟩
    (by decide) (by decide)
  have hi : (Cursor.start (.ofBytes [0x43, 0x38, 0x50, 0x34])).pollOf ⟨100⟩ 1 = 3 := by
    decide +kernel
  have ht : start.poll ⟨100⟩ 3 = ⟨200⟩ := by decide
  have hn : (Cursor.start (.ofBytes [0x43, 0x38, 0x50, 0x34])).lastPoll ⟨100⟩ = 8 := by
    decide +kernel
  have he := hl (by decide +kernel)
  rw [hn] at he
  refine ⟨by decide,?_,?_,?_,(he 8).mpr (Nat.le_refl 8)⟩
  · have h0 := hk 0 (by decide +kernel)
    simp only [Cursor.pollOf_zero, start.poll_zero] at h0
    exact h0.trans (by decide +kernel)
  · have h1 := hk 1 (by decide +kernel)
    simp only [hi, ht] at h1
    exact h1.trans (by decide +kernel)
  · have h7 := (he 7).not.mpr (by decide)
    simpa using h7

end Chime
