import Chime.Proofs.Update

/-!
# Playback as an agenda

Playback reads a tune lazily and asks its cursor whether the tune is over. Seen through the events
that are still ahead it is an agenda: the same calls reach the buzzer, in the same order. A cursor
may rest before bytes that make no event; the update that finds this out calls nothing but the
clock, just as the empty agenda does.
-/

set_option autoImplicit false

namespace Chime

namespace Agenda

theorem waits_eq (a : Agenda) (now : Instant) : a.waits now = now.isBefore a.deadline := by
  have ha := a.deadline.ticks.toNat_lt
  have hw : a.waits now = true ↔ now.isBefore a.deadline = true := by
    rw [Instant.isBefore_iff, UInt64.toNat_sub, waits, decide_eq_true_iff, UInt64.size]
    omega
  exact Bool.eq_iff_iff.mpr hw

theorem update_nil (deadline now : Instant) :
    update ⟨[], deadline⟩ now = (⟨[], deadline⟩, [.tick now]) := rfl

theorem update_before {deadline now : Instant} (h : now.isBefore deadline = true)
    (events : List Event) :
    update ⟨events, deadline⟩ now = (⟨events, deadline⟩, [.tick now]) := by
  cases events with
  | nil => rfl
  | cons event others => simp only [update, waits_eq, h, if_true]

theorem ofNat_deadline (now : Instant) (ms : Float32) :
    (⟨.ofNat ((now.ticks.toNat + ms.toUInt32.toNat) % UInt64.size)⟩ : Instant) =
      now + Duration.ofMillis ms := by
  apply congrArg Instant.mk
  rw [← UInt64.toNat_inj, UInt64.toNat_ofNat', UInt64.toNat_add, Nat.mod_mod]
  rfl

/-- What the agenda does with an event is what the event says of itself. -/
theorem update_cons {deadline now : Instant} (h : now.isBefore deadline = false)
    (event : Event) (others : List Event) :
    update ⟨event :: others, deadline⟩ now =
      (⟨others, now + event.slot⟩, .tick now :: event.acts) := by
  cases event with
  | tone note ms =>
    simp only [update, waits_eq, h, Bool.false_eq_true, if_false, ofNat_deadline]
    rfl
  | rest ms =>
    simp only [update, waits_eq, h, Bool.false_eq_true, if_false, ofNat_deadline]
    rfl

end Agenda

namespace Playback

def agenda (p : Playback) : Agenda := ⟨p.cursor.events, p.deadline⟩

theorem events_start_empty : (Cursor.start .empty).events = [] :=
  Cursor.events_of_not_isPlaying rfl

theorem agenda_initial : initial.agenda = Agenda.empty := by
  simp [agenda, initial, Agenda.empty, events_start_empty]

theorem agenda_update (p : Playback) (now : Instant) :
    (p.update now).1.agenda = (p.agenda.update now).1 ∧
      Act.calls (p.update now).2 = (p.agenda.update now).2 := by
  rcases p.update_cases now with ⟨hd,hu⟩ | ⟨event,behind,hd,hn,hu⟩ | ⟨behind,hd,hn,hu⟩
  · have ha : p.agenda.update now = (p.agenda, [.tick now]) := by
      cases he : p.cursor.events with
      | nil => simp only [agenda, he, Agenda.update_nil]
      | cons event others =>
        have hp : p.isPlaying = true := Cursor.isPlaying_of_events (by simp [he])
        have hb : now.isBefore p.deadline = true := by simpa [isDue, hp] using hd
        exact Agenda.update_before hb _
    rw [hu, ha]
    exact ⟨rfl,rfl⟩
  · have hb := ((p.isDue_iff now).mp hd).1
    have ha : p.agenda.update now =
        (⟨behind.events, now + event.slot⟩, .tick now :: event.acts) := by
      rw [agenda, Cursor.events_of_some hn, Agenda.update_cons hb]
    rw [hu, ha]
    exact ⟨rfl,by simp⟩
  -- bytes that make no event were still ahead; the agenda had nothing left before
  · have ha : p.agenda.update now = (p.agenda, [.tick now]) := by
      rw [agenda, Cursor.events_of_none hn, Agenda.update_nil]
    have hb := Cursor.events_of_not_isPlaying (Cursor.not_isPlaying_of_none hn)
    rw [hu, ha]
    exact ⟨by simp [agenda, hb, Cursor.events_of_none hn],rfl⟩

theorem agenda_step (c : Command) (p : Playback) :
    (p.step c).1.agenda = (p.agenda.step c).1 ∧
      Act.calls (p.step c).2 = (p.agenda.step c).2 := by
  cases c with
  | play tune now => exact ⟨rfl,rfl⟩
  | stop =>
    constructor
    · simp [step, stop, agenda, Agenda.step, events_start_empty]
    · simp only [step, stop, Agenda.step]
      split <;> rfl
  | update now => exact p.agenda_update now

theorem agenda_run (cs : List Command) (p : Playback) :
    (run cs p).1.agenda = (Agenda.run cs p.agenda).1 ∧
      Act.calls (run cs p).2 = (Agenda.run cs p.agenda).2 := by
  induction cs generalizing p with
  | nil => exact ⟨rfl,rfl⟩
  | cons c cs ih =>
    have hs := p.agenda_step c
    have hr := ih (p.step c).1
    rw [hs.1] at hr
    simp only [run, Agenda.run, Act.calls_append]
    exact ⟨hr.1,by rw [hs.2, hr.2]⟩

end Playback

namespace Buzzer

variable {σ : Type} (buzzer : Buzzer σ)

def called (s : σ) : Act → σ
  | .tick now => buzzer.update now s
  | .sound hz duration => (buzzer.tone hz duration s).1
  | .say _ => s

theorem performAll_fst (acts : List Act) (s : σ) :
    (buzzer.performAll acts s).1 = acts.foldl buzzer.called s := by
  induction acts generalizing s with
  | nil => rfl
  | cons act acts ih =>
    rw [performAll, List.foldl_cons, ih]
    cases act <;> rfl

end Buzzer

/-- Whatever is played, stopped and polled, and whenever, the buzzer is called as the agenda
calls it. After a tune is loaded the events taken and the events ahead are that tune's, and after
a stop there are none. -/
theorem playback_refines_agenda (cs : List Command) :
    Act.calls (Playback.run cs .initial).2 = (Agenda.run cs .empty).2 ∧
    (Playback.run cs .initial).1.agenda = (Agenda.run cs .empty).1 ∧
    (∀ (σ : Type) (buzzer : Buzzer σ) (s : σ),
      (Player.run buzzer cs (.ofBuzzer s)).1.buzzer =
        (Agenda.run cs .empty).2.foldl buzzer.called s) ∧
    (∀ (tune : Tune) (now : Instant) (nows : List Instant),
      let polled := Playback.run (.play tune now :: nows.map .update) (Playback.run cs .initial).1
      Act.taken polled.2 ++ polled.1.cursor.events = (Cursor.start tune).events) ∧
    (∀ nows : List Instant,
      let polled := Playback.run (.stop :: nows.map .update) (Playback.run cs .initial).1
      Act.taken polled.2 ++ polled.1.cursor.events = []) := by
  have h := Playback.agenda_run cs .initial
  rw [Playback.agenda_initial] at h
  refine ⟨h.2,h.1,?_,?_,?_⟩
  · intro σ buzzer s
    rw [Player.run_eq, ← h.2, ← buzzer.performAll_fst, buzzer.performAll_calls]
    rfl
  · intro tune now nows
    exact Playback.taken_updates nows ⟨.start tune, now⟩
  · intro nows
    have ht := Playback.taken_updates nows (Playback.run cs .initial).1.stop.1
    simp only [Playback.run, Playback.step, Act.taken_append, Act.taken_stop, List.nil_append]
    rw [ht]
    exact Playback.events_start_empty

end Chime
