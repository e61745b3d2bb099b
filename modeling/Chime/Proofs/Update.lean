import Chime.Proofs.Acts

/-!
# What an update can do

A cursor has events ahead or it has none; playing is the weaker notion, since bytes that make no
event may still be ahead. An update that is due reads on to the next event or to the end of the
tune, and any other leaves playback as it is. `update_cases` says so once for all that follows.
-/

set_option autoImplicit false

namespace Chime

namespace Cursor

variable {c behind : Cursor} {event : Event}

theorem next_fst (c : Cursor) : c.next.1 = (advance c.settings c.rest).event? := rfl

theorem rest_next (c : Cursor) : c.next.2.rest = (advance c.settings c.rest).rest := rfl

theorem settings_next (c : Cursor) : c.next.2.settings = (advance c.settings c.rest).settings := rfl

theorem advance_of_next {event? : Option Event} (h : c.next = (event?, behind)) :
    advance c.settings c.rest = ⟨event?, behind.settings, behind.rest⟩ := by
  obtain ⟨rfl,rfl⟩ := Prod.mk.inj h
  rfl

theorem events_of_some (h : c.next = (some event, behind)) :
    c.events = event :: behind.events := by
  simp [events, drain_of_some h]

theorem events_of_none (h : c.next = (none, behind)) : c.events = [] := by
  simp [events, drain_of_none h]

theorem rest_of_not_isPlaying (h : c.isPlaying = false) : c.rest = [] := by
  simpa [isPlaying] using h

theorem next_of_not_isPlaying (h : c.isPlaying = false) : c.next = (none, c) := by
  have hr := rest_of_not_isPlaying h
  have ha : advance c.settings c.rest = ⟨none, c.settings, []⟩ := by rw [hr, advance_nil]
  apply Prod.ext
  · rw [next_fst, ha]
  · apply Cursor.ext
    · rfl
    · rw [settings_next, ha]
    · rw [rest_next, ha, hr]

theorem events_of_not_isPlaying (h : c.isPlaying = false) : c.events = [] :=
  events_of_none (next_of_not_isPlaying h)

theorem isPlaying_of_events (h : c.events ≠ []) : c.isPlaying = true := by
  cases hp : c.isPlaying with
  | true => rfl
  | false => exact absurd (events_of_not_isPlaying hp) h

theorem isPlaying_start (tune : Tune) : (start tune).isPlaying = true ↔ tune ≠ .empty := by
  constructor
  · rintro h rfl
    cases h
  · intro h
    cases hp : (start tune).isPlaying with
    | true => rfl
    | false => exact absurd (Tune.ext (rest_of_not_isPlaying hp)) h

/-- Where no event is left a reading goes to the end of the tune. -/
theorem not_isPlaying_of_none (h : c.next = (none, behind)) : behind.isPlaying = false := by
  have ha := advance_of_next h
  have hr : behind.rest = [] := by
    have he := rest_advance_of_none (congrArg Passage.event? ha)
    rwa [ha] at he
  rw [isPlaying, hr]
  rfl

end Cursor

namespace Playback

theorem take_of_some {p : Playback} {behind : Cursor} {event : Event}
    (h : p.cursor.next = (some event, behind)) (now : Instant) :
    p.take now = (⟨behind, now + event.slot⟩, .say (.took event now) :: event.acts) := by
  simp [take, h]

theorem take_of_none {p : Playback} {behind : Cursor} (h : p.cursor.next = (none, behind))
    (now : Instant) : p.take now = (⟨behind, p.deadline⟩, [.say .finished]) := by
  simp [take, h]

theorem isDue_iff (p : Playback) (now : Instant) :
    p.isDue now = true ↔ now.isBefore p.deadline = false ∧ p.isPlaying = true := by
  simp [isDue]

theorem update_cases (p : Playback) (now : Instant) :
    (p.isDue now = false ∧ p.update now = (p, [.tick now])) ∨
    (∃ event behind, p.isDue now = true ∧ p.cursor.next = (some event, behind) ∧
      p.update now = (⟨behind, now + event.slot⟩,
        .tick now :: .say (.took event now) :: event.acts)) ∨
    (∃ behind, p.isDue now = true ∧ p.cursor.next = (none, behind) ∧
      p.update now = (⟨behind, p.deadline⟩, [.tick now, .say .finished])) := by
  cases hd : p.isDue now with
  | false => exact Or.inl ⟨rfl,update_of_not_isDue hd⟩
  | true =>
    cases hn : p.cursor.next with
    | mk event? behind =>
      cases event? with
      | some event =>
        have hu : p.update now = _ := update_of_isDue hd
        rw [take_of_some hn] at hu
        exact Or.inr (Or.inl ⟨event,behind,rfl,rfl,hu⟩)
      | none =>
        have hu : p.update now = _ := update_of_isDue hd
        rw [take_of_none hn] at hu
        exact Or.inr (Or.inr ⟨behind,rfl,rfl,hu⟩)

theorem cursor_update (p : Playback) (now : Instant) :
    (p.update now).1.cursor = p.cursor ∨ (p.update now).1.cursor = p.cursor.next.2 := by
  rcases p.update_cases now with ⟨_,hu⟩ | ⟨event,behind,_,hn,hu⟩ | ⟨behind,_,hn,hu⟩
  · exact .inl (by rw [hu])
  · exact .inr (by rw [hu, hn])
  · exact .inr (by rw [hu, hn])

theorem ticks_update (p : Playback) (now : Instant) : Act.ticks (p.update now).2 = [now] := by
  rcases p.update_cases now with ⟨_,hu⟩ | ⟨event,behind,_,_,hu⟩ | ⟨behind,_,_,hu⟩ <;> simp [hu]

/-- What an update takes and what it leaves make up what was ahead. -/
theorem taken_update (p : Playback) (now : Instant) :
    Act.taken (p.update now).2 ++ (p.update now).1.cursor.events = p.cursor.events := by
  rcases p.update_cases now with ⟨_,hu⟩ | ⟨event,behind,_,hn,hu⟩ | ⟨behind,_,hn,hu⟩
  · simp [hu]
  · simp [hu, Cursor.events_of_some hn]
  · simp [hu, Cursor.events_of_none hn,
      Cursor.events_of_not_isPlaying (Cursor.not_isPlaying_of_none hn)]

theorem taken_updates (nows : List Instant) (p : Playback) :
    Act.taken (run (nows.map .update) p).2 ++ (run (nows.map .update) p).1.cursor.events =
      p.cursor.events := by
  induction nows generalizing p with
  | nil => rfl
  | cons now nows ih =>
    simp only [List.map_cons, run, step, Act.taken_append, List.append_assoc]
    rw [ih, taken_update]

end Playback

end Chime
