import Chime.Proofs.Ending
import Chime.Proofs.Forgetting
import Chime.Proofs.Scheduling

/-!
# What the messages tell

The events that updates take follow from the agenda, which knows no messages. The messages of the
updates are those events, each with its time, and at the end that the tune is over if an update had
to find it out. If the last event takes the last of the tune with it, no update does.
-/

set_option autoImplicit false

namespace Chime

namespace Agenda

def due? (a : Agenda) (now : Instant) : Option Event :=
  if now.isBefore a.deadline then none else a.events.head?

def takes : List Instant → Agenda → List (Event × Instant)
  | [], _ => []
  | now :: nows, a => ((a.due? now).map (·, now)).toList ++ takes nows (a.update now).1

theorem takes_append (earlier later : List Instant) (a : Agenda) :
    takes (earlier ++ later) a =
      takes earlier a ++ takes later (run (earlier.map .update) a).1 := by
  induction earlier generalizing a with
  | nil => rfl
  | cons now earlier ih => simp [takes, ih, run, step, List.append_assoc]

theorem takes_concat_eq_iff (earlier : List Instant) (now : Instant) (a : Agenda) :
    takes (earlier ++ [now]) a = takes earlier a ↔
      (run (earlier.map .update) a).1.due? now = none := by
  rw [takes_append, List.append_right_eq_self, takes]
  cases (run (earlier.map .update) a).1.due? now <;> simp [takes]

theorem events_eq_due?_append (a : Agenda) (now : Instant) :
    (a.due? now).toList ++ (a.update now).1.events = a.events := by
  obtain ⟨events,deadline⟩ := a
  cases hb : now.isBefore deadline with
  | true => simp [due?, hb, update_before hb]
  | false =>
    cases events with
    | nil => simp [due?, update_nil]
    | cons event others => simp [due?, hb, update_cons hb]

theorem takes_append_events (nows : List Instant) (a : Agenda) :
    (takes nows a).map Prod.fst ++ (run (nows.map .update) a).1.events = a.events := by
  induction nows generalizing a with
  | nil => rfl
  | cons now nows ih =>
    have hfst : ((a.due? now).map (·, now)).toList.map Prod.fst = (a.due? now).toList := by
      cases a.due? now <;> rfl
    rw [takes, List.map_append, hfst, List.append_assoc]
    exact (congrArg _ (ih _)).trans (a.events_eq_due?_append now)

theorem sublist_takes (nows : List Instant) (a : Agenda) :
    ((takes nows a).map Prod.snd).Sublist nows := by
  induction nows generalizing a with
  | nil => exact List.Sublist.refl _
  | cons now nows ih =>
    rw [takes, List.map_append]
    cases a.due? now with
    | none => exact (ih _).cons now
    | some event => exact (ih _).cons_cons now

end Agenda

theorem Cursor.head?_events (c : Cursor) : c.events.head? = c.next.1 := by
  cases hn : c.next with
  | mk event? behind =>
    cases event? with
    | none => rw [events_of_none hn]; rfl
    | some event => rw [events_of_some hn]; rfl

theorem Act.messages_took (event : Event) (now : Instant) :
    (.tick now :: .say (.took event now) :: event.acts).filterMap message? =
      [.took event now] := by
  cases event <;> rfl

namespace Playback

variable {p : Playback} {now : Instant}

theorem due?_agenda (p : Playback) (now : Instant) :
    p.agenda.due? now = if p.isDue now then p.cursor.next.1 else none := by
  rw [← Cursor.head?_events]
  cases hp : p.isPlaying with
  | true => cases hb : now.isBefore p.deadline <;> simp [Agenda.due?, agenda, isDue, hb, hp]
  | false => simp [Agenda.due?, agenda, Cursor.events_of_not_isPlaying hp]

theorem takes_agenda_cons (now : Instant) (nows : List Instant) (p : Playback) :
    Agenda.takes (now :: nows) p.agenda =
      ((if p.isDue now then p.cursor.next.1 else none).map (·, now)).toList ++
        Agenda.takes nows (p.update now).1.agenda := by
  rw [Agenda.takes, due?_agenda, (p.agenda_update now).1]

theorem isPlaying_updates_of_not_isPlaying (h : p.isPlaying = false) (nows : List Instant) :
    (run (nows.map .update) p).1.isPlaying = false :=
  (not_isPlaying_updates_iff nows p).mpr (.inl h)

theorem takes_of_not_isPlaying (h : p.isPlaying = false) (nows : List Instant) :
    Agenda.takes nows p.agenda = [] := by
  have htaken := Agenda.takes_append_events nows p.agenda
  rw [show p.agenda.events = [] from Cursor.events_of_not_isPlaying h] at htaken
  exact List.map_eq_nil_iff.mp (List.append_eq_nil_iff.mp htaken).1

/-- Updates report each event they take, and then that the tune is over, if they bring it to its end
and the last event does not. -/
theorem messages_updates (nows : List Instant) (p : Playback) :
    (run (nows.map .update) p).2.filterMap Act.message? =
      (Agenda.takes nows p.agenda).map (fun taken => .took taken.1 taken.2) ++
        if p.isPlaying && !(run (nows.map .update) p).1.isPlaying && !p.cursor.endsOnEvent then
          [.finished]
        else [] := by
  induction nows generalizing p with
  | nil => simp [run, Agenda.takes]
  | cons now nows ih =>
    have hrun : run ((now :: nows).map .update) p =
        ((run (nows.map .update) (p.update now).1).1,
          (p.update now).2 ++ (run (nows.map .update) (p.update now).1).2) := rfl
    rw [hrun, takes_agenda_cons, List.filterMap_append, ih]
    rcases p.update_cases now with ⟨hd,hu⟩ | ⟨event,behind,hd,hn,hu⟩ | ⟨behind,hd,hn,hu⟩
    · rw [hu, hd]
      rfl
    · have hp : p.isPlaying = true := ((p.isDue_iff now).mp hd).2
      have hend (b : Bool) : (behind.isPlaying && b && !behind.endsOnEvent) =
          (p.isPlaying && b && !p.cursor.endsOnEvent) := by
        rw [hp, Cursor.endsOnEvent_of_some hn]
        cases behind.isPlaying <;> simp
      rw [hu, hd, hn, ← hend, Act.messages_took]
      rfl
    · have hp : p.isPlaying = true := ((p.isDue_iff now).mp hd).2
      have hb : isPlaying ⟨behind, p.deadline⟩ = false := Cursor.not_isPlaying_of_none hn
      have hover := isPlaying_updates_of_not_isPlaying hb nows
      have hnone := takes_of_not_isPlaying hb nows
      have hends : p.cursor.endsOnEvent = false := by
        simp [Cursor.endsOnEvent, Cursor.drain_of_none hn]
      rw [hu, hd, hn, hb, hover, hnone, hp, hends]
      rfl

def lastTaken? (nows : List Instant) (p : Playback) : Option (Event × Cursor) :=
  (p.cursor.drain.take (Agenda.takes nows p.agenda).length).getLast?

theorem lastTaken?_of_not_isPlaying {nows : List Instant}
    (h : (run (nows.map .update) p).1.isPlaying = false) :
    lastTaken? nows p = p.cursor.drain.getLast? := by
  have hnone : (Agenda.run (nows.map .update) p.agenda).1.events = [] := by
    rw [← (agenda_run _ p).1]
    exact Cursor.events_of_not_isPlaying h
  have htaken := Agenda.takes_append_events nows p.agenda
  rw [hnone, List.append_nil] at htaken
  have hlength : (Agenda.takes nows p.agenda).length = p.cursor.drain.length := by
    rw [← List.length_map (f := Prod.fst), htaken]
    exact List.length_map _
  rw [lastTaken?, hlength, List.take_length]

theorem messages_updates_of_lastTaken (nows : List Instant) (p : Playback) :
    (run (nows.map .update) p).2.filterMap Act.message? =
      (Agenda.takes nows p.agenda).map (fun taken => .took taken.1 taken.2) ++
        if p.isPlaying = true ∧ (run (nows.map .update) p).1.isPlaying = false ∧
            ∀ item ∈ lastTaken? nows p, item.2.isPlaying = true then
          [.finished]
        else [] := by
  rw [messages_updates]
  congr 1
  cases hover : (run (nows.map .update) p).1.isPlaying with
  | true => simp
  | false =>
    rw [lastTaken?_of_not_isPlaying hover]
    cases hl : p.cursor.drain.getLast? <;> simp [Cursor.endsOnEvent, hl]

/-- The update that ends the playing takes an event if and only if the last event takes the last of
the tune with it. -/
theorem due?_of_turn {earlier : List Instant}
    (hplaying : (run (earlier.map .update) p).1.isPlaying = true)
    (hover : ((run (earlier.map .update) p).1.update now).1.isPlaying = false) :
    (run (earlier.map .update) p).1.agenda.due? now = none ↔ p.cursor.endsOnEvent = false := by
  let before := (run (earlier.map .update) p).1
  have hsame : before.cursor.events ≠ [] → before.cursor.endsOnEvent = p.cursor.endsOnEvent :=
    endsOnEvent_updates
  rw [due?_agenda]
  rcases before.update_cases now with ⟨_,hu⟩ | ⟨event,behind,hd,hn,hu⟩ | ⟨behind,hd,hn,_⟩
  · rw [hu, hplaying] at hover
    cases hover
  · have hbehind : behind.isPlaying = false := by rwa [hu] at hover
    have hends : p.cursor.endsOnEvent = true := by
      rw [← hsame (by simp [Cursor.events_of_some hn]), Cursor.endsOnEvent_of_some hn, hbehind]
      rfl
    simp [before, hd, hn, hends]
  · have hends : ¬p.cursor.endsOnEvent = true := fun hs => by
      have hend := (not_isPlaying_updates_iff earlier p).mpr
        (.inr (.inl ⟨Cursor.events_of_none hn,hs⟩))
      rw [hplaying] at hend
      cases hend
    simp [before, hd, hn, hends]

theorem finished_mem_messages_iff {earlier later : List Instant}
    (hplaying : (run (earlier.map .update) p).1.isPlaying = true)
    (hover : (run ((earlier ++ [now]).map .update) p).1.isPlaying = false) :
    .finished ∈ (run ((earlier ++ now :: later).map .update) p).2.filterMap Act.message? ↔
      Agenda.takes (earlier ++ [now]) p.agenda = Agenda.takes earlier p.agenda := by
  have hp : p.isPlaying = true := by
    cases hp : p.isPlaying with
    | true => rfl
    | false => exact (isPlaying_updates_of_not_isPlaying hp earlier).symm.trans hplaying
  have hend : (run ((earlier ++ now :: later).map .update) p).1.isPlaying = false := by
    rw [← List.singleton_append, ← List.append_assoc, List.map_append, run_append]
    exact isPlaying_updates_of_not_isPlaying hover later
  have hturn : ((run (earlier.map .update) p).1.update now).1.isPlaying = false := by
    rwa [List.map_append, run_append] at hover
  rw [messages_updates, hp, hend, Agenda.takes_concat_eq_iff, ← (agenda_run _ p).1,
    due?_of_turn hplaying hturn]
  simp

theorem exists_turn {nows : List Instant} (hp : p.isPlaying = true)
    (hover : (run (nows.map .update) p).1.isPlaying = false) :
    ∃ earlier now later, nows = earlier ++ now :: later ∧
      (run (earlier.map .update) p).1.isPlaying = true ∧
      (run ((earlier ++ [now]).map .update) p).1.isPlaying = false := by
  induction nows generalizing p with
  | nil => cases hp.symm.trans hover
  | cons now nows ih =>
    cases hnow : (p.update now).1.isPlaying with
    | false => exact ⟨[],now,nows,rfl,hp,hnow⟩
    | true =>
      obtain ⟨earlier,turn,later,rfl,hbefore,hafter⟩ := ih hnow hover
      exact ⟨now :: earlier,turn,later,rfl,hbefore,hafter⟩

end Playback

variable {σ : Type}

def Player.sent (buzzer : Buzzer σ) (cs : List Command) (player : Player σ) : List Message :=
  (player.run buzzer cs).2.filterMap Entry.message?

theorem Player.sent_eq (buzzer : Buzzer σ) (cs : List Command) (player : Player σ) :
    player.sent buzzer cs = (player.playback.run cs).2.filterMap Act.message? := by
  rw [sent, run_eq, Buzzer.messages_performAll]

/-- Whatever was called before, a new tune is reported with its length and a stop with the position
if something plays. The updates after a new tune report its events one by one, each with the time of
the update that takes it, and then at most once that the tune is over: if they end it and the last
event they take leaves something of the tune ahead, so that the update that ends it takes none. -/
theorem messages_account_for_playback (buzzer : Buzzer σ) (s : σ) (cs : List Command) :
    let player := (Player.run buzzer cs (.ofBuzzer s)).1
    (∀ bytes now, player.sent buzzer [.play (.ofBytes bytes) now] =
      [.started (bytes.takeWhile (· != 0)).length]) ∧
    player.sent buzzer [.stop] =
      (if player.playback.isPlaying then [.stopped player.playback.cursor.position] else []) ∧
    (player.playback.isPlaying = false → ∀ nows : List Instant,
      player.sent buzzer (nows.map .update) = []) ∧
    (∀ tune start nows,
      let c := Cursor.start tune
      let played := (player.step buzzer (.play tune start)).1
      let polled := fun nows : List Instant => (played.run buzzer (nows.map .update)).1.playback
      let takes := fun nows => Agenda.takes nows ⟨c.events, start⟩
      let lastTaken? := (c.drain.take (takes nows).length).getLast?
      let turns := fun earlier now =>
        (polled earlier).isPlaying = true ∧ (polled (earlier ++ [now])).isPlaying = false
      let sent := played.sent buzzer (nows.map .update)
      ((takes nows).map Prod.fst ++ (polled nows).cursor.events = c.events ∧
        ((takes nows).map Prod.snd).Sublist nows) ∧
      sent = (takes nows).map (fun taken => .took taken.1 taken.2) ++
        (if (polled []).isPlaying = true ∧ (polled nows).isPlaying = false ∧
            ∀ item ∈ lastTaken?, item.2.isPlaying = true then
          [.finished]
        else []) ∧
      ((polled []).isPlaying = true → (polled nows).isPlaying = false →
        ∃ earlier now later, nows = earlier ++ now :: later ∧ turns earlier now) ∧
      ∀ earlier now later, nows = earlier ++ now :: later → turns earlier now →
        (.finished ∈ sent ↔ takes (earlier ++ [now]) = takes earlier)) ∧
    ∀ n event now,
      [Message.started n, .stopped n, .took event now, .finished].map (fun m => (m.level, m.text)) =
        [(.debug, "play: " ++ toString n ++ " bytes"), (.debug, "stop at " ++ toString n),
          (.trace, event.text ++ " at " ++ toString now.ticks.toNat), (.debug, "tune finished")] := by
  intro player
  refine ⟨?_,?_,?_,?_,fun _ _ _ => rfl⟩
  · intro bytes now
    rw [Player.sent_eq]
    rfl
  · rw [Player.sent_eq]
    cases hp : player.playback.isPlaying <;>
      simp [Playback.run, Playback.step, Playback.stop, hp, Act.message?]
  · intro hp nows
    rw [Player.sent_eq, Playback.messages_updates, Playback.takes_of_not_isPlaying hp, hp]
    rfl
  · intro tune start nows c played polled takes lastTaken? turns sent
    let p : Playback := ⟨c, start⟩
    have hpolled (nows : List Instant) : polled nows = (p.run (nows.map .update)).1 := by
      simp only [polled, Player.run_eq]
      rfl
    have hsent : sent = (p.run (nows.map .update)).2.filterMap Act.message? :=
      Player.sent_eq buzzer (nows.map .update) played
    refine ⟨⟨?_,Agenda.sublist_takes nows p.agenda⟩,?_,?_,?_⟩
    · have hevents : (polled nows).cursor.events =
          (Agenda.run (nows.map .update) p.agenda).1.events := by
        rw [hpolled, ← (Playback.agenda_run _ p).1]
        rfl
      rw [hevents]
      exact Agenda.takes_append_events nows p.agenda
    · rw [hsent, Playback.messages_updates_of_lastTaken, hpolled nows]
      rfl
    · rw [hpolled nows]
      intro hstart hover
      simp only [turns, hpolled]
      exact Playback.exists_turn hstart hover
    · rintro earlier now later rfl ⟨hplaying,hover⟩
      rw [hpolled] at hplaying hover
      rw [hsent]
      exact Playback.finished_mem_messages_iff hplaying hover

/-- The `4` of `C4` is left standing, so the update at 507 ends the tune and reports it. Of `C`
nothing is left, so the update at 7 ends the tune without a report. -/
theorem messages_account_for_playback_of_two_tunes :
    let player := (Player.run Speaker.buzzer [] (.ofBuzzer .initial)).1
    let played := fun bytes => (player.step Speaker.buzzer (.play (.ofBytes bytes) ⟨7⟩)).1
    let sent := fun bytes =>
      (played bytes).sent Speaker.buzzer ([⟨7⟩, ⟨100⟩, ⟨507⟩, ⟨600⟩].map .update)
    player.sent Speaker.buzzer ([⟨0⟩, ⟨5⟩].map .update) = [] ∧
      .finished ∈ sent [0x43, 0x34] ∧ .finished ∉ sent [0x43] := by
  intro player played sent
  obtain ⟨-,-,hidle,htunes,-⟩ := messages_account_for_playback Speaker.buzzer .initial []
  have hdigits := htunes (.ofBytes [0x43, 0x34]) ⟨7⟩ [⟨7⟩, ⟨100⟩, ⟨507⟩, ⟨600⟩]
  have hbare := htunes (.ofBytes [0x43]) ⟨7⟩ [⟨7⟩, ⟨100⟩, ⟨507⟩, ⟨600⟩]
  refine ⟨hidle (by decide +kernel) _,?_,?_⟩
  · exact (hdigits.2.2.2 [⟨7⟩, ⟨100⟩] ⟨507⟩ [⟨600⟩] rfl (by decide +kernel)).mpr (by decide +kernel)
  · exact mt (hbare.2.2.2 [] ⟨7⟩ [⟨100⟩, ⟨507⟩, ⟨600⟩] rfl (by decide +kernel)).mp
      (by decide +kernel)

end Chime
