import Chime.Proofs.Lasting
import Chime.Proofs.Polling

/-!
# When a tune is over

A tune is over with its last event if nothing of it is left then: the last token is a note or a
pause, and one without digits, since of a length with digits a byte is left standing. Otherwise it
is over with the first update that is due and finds no event left.
-/

set_option autoImplicit false

namespace Chime

namespace Token

def EndsBare (tokens : List Token) : Prop :=
  ∃ token dotted, tokens.getLast? = some token ∧ token.operand? = some ([], dotted)

theorem endsBare_nil : ¬EndsBare [] := by
  rintro ⟨token,dotted,h,_⟩
  cases h

theorem endsBare_cons (token : Token) (tokens : List Token) :
    EndsBare (token :: tokens) ↔
      (tokens = [] ∧ ∃ dotted, token.operand? = some ([], dotted)) ∨ EndsBare tokens := by
  cases tokens with
  | nil => simp [EndsBare]
  | cons t ts => simp [EndsBare, List.getLast?_cons_cons]

theorem not_endsBare_of_digits {tokens : List Token} {digits : Bytes} {dotted : Bool}
    (h : (tokens.filterMap operand?).getLast? = some (digits, dotted)) (hd : digits ≠ []) :
    ¬EndsBare tokens := by
  rintro ⟨token,dot,hl,ho⟩
  obtain ⟨front,rfl⟩ := List.getLast?_eq_some_iff.mp hl
  rw [List.filterMap_append, List.filterMap_cons_some ho, List.filterMap_nil,
    List.getLast?_concat] at h
  cases h
  exact hd rfl

theorem cut_eq_nil_iff {bytes : Bytes} : cut bytes = [] ↔ bytes = [] := by
  cases bytes with
  | nil => simp [cut_nil]
  | cons byte rest => simp [cut_cons]

theorem endsBare_cut_of_stops {left after : Bytes} (h : Stops left after) :
    EndsBare (cut left) ↔ EndsBare (cut after) := by
  rcases h with rfl | ⟨byte,hb,rfl⟩
  · rfl
  · rw [cut_of_nothing hb, endsBare_cons]
    simp [operand?]

/-- How many bytes of a token a reading leaves standing. -/
def standing (token : Token) : Nat :=
  match token.operand? with
  | some (_ :: _, _) => 1
  | _ => 0

theorem standing_of_operand {token : Token} {digits : Bytes} {dotted : Bool}
    (h : token.operand? = some (digits, dotted)) :
    token.standing = if digits.length = 0 then 0 else 1 := by
  rw [standing, h]
  cases digits <;> rfl

theorem operand_snd_eq (bytes : Bytes) :
    (Directive.operand bytes).2 =
      bytes.drop ((digitsOf bytes ++ dotBytes (dottedOf bytes)).length -
        if (digitsOf bytes).length = 0 then 0 else 1) := by
  by_cases hd : digitsOf bytes = []
  · rw [operand_snd_of_no_digits hd, if_pos (by rw [hd]; rfl), Nat.sub_zero]
  · rw [operand_snd_of_digits hd, if_neg (mt List.length_eq_zero_iff.mp hd)]

theorem read_snd_eq (byte : UInt8) (rest : Bytes) :
    (Directive.read byte rest).2 =
      rest.drop ((first byte rest).bytes.length - 1 - (first byte rest).standing) := by
  cases ho : Opening.ofByte byte with
  | octave =>
    obtain rfl := Opening.eq_of_ofByte ho rfl
    cases h : octaveOf? rest with
    | some o =>
      have hf : first 0x4f rest = octave o := by simp [first, h]
      rw [hf, Directive.read, ho, octave_of_some h]
      rfl
    | none =>
      obtain ⟨failure,he⟩ := octave_of_none h
      have hf : first 0x4f rest = other 0x4f := by simp [first, h]
      rw [hf, Directive.read, ho, he]
      rfl
  | length =>
    obtain rfl := Opening.eq_of_ofByte ho rfl
    exact congrArg Prod.snd (control_eq rest)
  | tempo =>
    obtain rfl := Opening.eq_of_ofByte ho rfl
    exact congrArg Prod.snd (control_eq rest)
  | pause =>
    obtain rfl := Opening.eq_of_ofByte ho rfl
    have hs : (first 0x50 rest).standing = if (digitsOf rest).length = 0 then 0 else 1 :=
      standing_of_operand rfl
    rw [hs]
    exact operand_snd_eq rest
  | letter l =>
    obtain rfl := Opening.eq_of_ofByte ho rfl
    rw [first_letter, standing_of_operand rfl, Directive.read, ho, accidental_eq]
    dsimp only
    rw [operand_snd_eq, List.drop_drop]
    congr 1
    simp only [bytes, List.length_cons, List.length_append]
    split <;> omega
  | nothing =>
    rw [first_of_nothing ho, Directive.read, ho]
    rfl
  | _ =>
    obtain rfl := Opening.eq_of_ofByte ho rfl
    rfl

theorem length_digits_lt {token : Token} {digits : Bytes} {dotted : Bool}
    (h : token.operand? = some (digits, dotted)) : digits.length < token.bytes.length := by
  cases token with
  | pause _ _ =>
    cases h
    simp only [bytes, List.length_cons, List.length_append]
    omega
  | note l sign _ _ =>
    cases h
    simp only [bytes, List.length_cons, List.length_append]
    omega
  | _ => cases h

/-- After a note or a pause nothing is left if it ends the text and has no digits. -/
theorem read_snd_eq_nil_iff {byte : UInt8} {rest digits : Bytes} {dotted : Bool}
    (h : (first byte rest).operand? = some (digits, dotted)) :
    (Directive.read byte rest).2 = [] ↔
      digits = [] ∧ rest.drop ((first byte rest).bytes.length - 1) = [] := by
  rw [read_snd_eq, standing_of_operand h]
  by_cases hd : digits = []
  · simp [hd]
  · have hfits := ( bytes_first_prefix byte rest).length_le
    have hdigits := length_digits_lt h
    have hpos := List.length_pos_of_ne_nil hd
    rw [if_neg (Nat.ne_of_gt hpos), List.drop_eq_nil_iff]
    simp only [hd, false_and, iff_false, List.length_cons] at hfits ⊢
    omega

theorem map_millis_read (s : Settings) (byte : UInt8) (rest : Bytes) :
    (s.event? (Directive.read byte rest).1).map Event.millis =
      (first byte rest).operand?.map fun operand => duration s operand.1 operand.2 := by
  rw [(read_first byte rest).1, event?_directive, map_millis_event?]

theorem isSome_event?_read (s : Settings) (byte : UInt8) (rest : Bytes) :
    (s.event? (Directive.read byte rest).1).isSome = (first byte rest).operand?.isSome := by
  have hm := congrArg Option.isSome (map_millis_read s byte rest)
  rwa [Option.isSome_map, Option.isSome_map] at hm

theorem endsBare_cut_read (s : Settings) (byte : UInt8) (rest : Bytes) :
    EndsBare (cut (byte :: rest)) ↔
      ((s.event? (Directive.read byte rest).1).isSome = true ∧
          (Directive.read byte rest).2 = []) ∨
        EndsBare (cut (Directive.read byte rest).2) := by
  rw [isSome_event?_read, endsBare_cut_of_stops (read_first byte rest).2, cut_cons, endsBare_cons,
    cut_eq_nil_iff]
  apply or_congr_left
  cases ho : (first byte rest).operand? with
  | none => simp
  | some operand =>
    obtain ⟨digits,dotted⟩ := operand
    simp [read_snd_eq_nil_iff ho, and_comm]

theorem endsBare_cut_advance (s : Settings) (bytes : Bytes) :
    EndsBare (cut bytes) ↔
      ((advance s bytes).event?.isSome = true ∧ (advance s bytes).rest = []) ∨
        EndsBare (cut (advance s bytes).rest) := by
  fun_induction advance s bytes with
  | case1 s => simp
  | case2 s byte bytes read event h =>
    rw [endsBare_cut_read s]
    simp only [read] at h ⊢
    rw [h]
  | case3 s byte bytes read h ih =>
    rw [endsBare_cut_read s]
    simp only [read] at h ih ⊢
    rw [h, ih]
    simp

end Token

namespace Cursor

/-- The last event takes the last of the tune if and only if it is written last and without
digits. -/
theorem endsOnEvent_iff (c : Cursor) :
    c.endsOnEvent = true ↔ Token.EndsBare (Token.cut c.rest) := by
  have ha := Token.endsBare_cut_advance c.settings c.rest
  fun_induction drain c with
  | case1 c event behind h ih =>
    have hi : behind.endsOnEvent = true ↔ Token.EndsBare (Token.cut behind.rest) :=
      ih (Token.endsBare_cut_advance behind.settings behind.rest)
    rw [advance_of_next h] at ha
    rw [ha, ← hi, endsOnEvent_of_some h]
    simp [isPlaying]
  | case2 c behind h =>
    rw [advance_of_next h, rest_of_not_isPlaying (not_isPlaying_of_none h), Token.cut_nil] at ha
    have hd : c.endsOnEvent = false := by simp [endsOnEvent, drain_of_none h]
    simp [ha, hd, Token.endsBare_nil]

end Cursor

namespace Playback

variable {p : Playback} {now : Instant}

theorem endsOnEvent_update (h : (p.update now).1.cursor.events ≠ []) :
    (p.update now).1.cursor.endsOnEvent = p.cursor.endsOnEvent := by
  rcases p.update_cases now with ⟨_,hu⟩ | ⟨event,behind,_,hn,hu⟩ | ⟨behind,_,hn,hu⟩
  · rw [hu]
  · rw [hu] at h ⊢
    have hb : behind.isPlaying = true := Cursor.isPlaying_of_events h
    rw [Cursor.endsOnEvent_of_some hn, hb]
    rfl
  · rw [hu] at h
    exact absurd (Cursor.events_of_not_isPlaying (Cursor.not_isPlaying_of_none hn)) h

theorem update_of_events_nil (h : p.cursor.events = []) (now : Instant) :
    (p.update now).1.cursor.events = [] ∧ (p.update now).1.deadline = p.deadline := by
  rcases p.update_cases now with ⟨_,hu⟩ | ⟨event,behind,_,hn,hu⟩ | ⟨behind,_,hn,hu⟩
  · rw [hu]
    exact ⟨h,rfl⟩
  · rw [Cursor.events_of_some hn] at h
    cases h
  · rw [hu]
    exact ⟨Cursor.events_of_not_isPlaying (Cursor.not_isPlaying_of_none hn),rfl⟩

theorem events_updates_of_nil (h : p.cursor.events = []) (nows : List Instant) :
    (run (nows.map .update) p).1.cursor.events = [] := by
  have ht := taken_updates nows p
  rw [h] at ht
  exact (List.append_eq_nil_iff.mp ht).2

/-- An update ends the playing by taking an event with the last of the tune, or by finding out that
no event is left. -/
theorem not_isPlaying_update_iff (p : Playback) (now : Instant) :
    (p.update now).1.isPlaying = false ↔
      p.isPlaying = false ∨
      ((p.update now).1.cursor.events = [] ∧ p.cursor.endsOnEvent = true) ∨
      (p.cursor.events = [] ∧ now.isBefore p.deadline = false) := by
  rcases p.update_cases now with ⟨hd,hu⟩ | ⟨event,behind,hd,hn,hu⟩ | ⟨behind,hd,hn,hu⟩
  · rw [hu]
    constructor
    · exact .inl
    · rintro (hp | ⟨he,hs⟩ | ⟨_,hb⟩)
      · exact hp
      · exact absurd he (Cursor.events_of_endsOnEvent hs)
      · simpa [isDue, hb] using hd
  · have hp : p.isPlaying = true := ((p.isDue_iff now).mp hd).2
    have he : behind.endsOnEvent = true → behind.events ≠ [] := Cursor.events_of_endsOnEvent
    have hb : behind.isPlaying = false → behind.events = [] := Cursor.events_of_not_isPlaying
    rw [hu]
    simp only [isPlaying, Cursor.endsOnEvent_of_some hn, Cursor.events_of_some hn] at hp ⊢
    cases hc : behind.isPlaying with
    | false => simp [hb hc]
    | true => simpa [hp] using fun hn hs => he hs hn
  · have hb : now.isBefore p.deadline = false := ((p.isDue_iff now).mp hd).1
    have hl : (p.update now).1.isPlaying = false := by
      rw [hu]
      exact Cursor.not_isPlaying_of_none hn
    exact iff_of_true hl (.inr (.inr ⟨Cursor.events_of_none hn,hb⟩))

/-- An update that takes the last event but leaves bytes behind it leaves the tune playing, for the
slot of that event. -/
theorem update_takes_last {event : Event} (h : p.cursor.events = [event])
    (hnone : (p.update now).1.cursor.events = []) (hs : p.cursor.endsOnEvent = false) :
    (p.update now).1.isPlaying = true ∧ (p.update now).1.deadline = now + event.slot := by
  rcases p.update_cases now with ⟨_,hu⟩ | ⟨taken,behind,_,hn,hu⟩ | ⟨behind,_,hn,_⟩
  · rw [hu] at hnone
    simp [hnone] at h
  · rw [Cursor.events_of_some hn] at h
    obtain ⟨rfl,_⟩ := List.cons.inj h
    rw [Cursor.endsOnEvent_of_some hn, Bool.or_eq_false_iff, Bool.not_eq_false'] at hs
    rw [hu]
    exact ⟨hs.1,rfl⟩
  · rw [Cursor.events_of_none hn] at h
    cases h

def FoundOver (nows : List Instant) (p : Playback) : Prop :=
  ∃ earlier now later, nows = earlier ++ now :: later ∧
    (run (earlier.map .update) p).1.cursor.events = [] ∧
    now.isBefore (run (earlier.map .update) p).1.deadline = false

theorem foundOver_nil (p : Playback) : ¬FoundOver [] p := by
  rintro ⟨earlier,now,later,hs,_⟩
  simp at hs

theorem foundOver_cons (now : Instant) (nows : List Instant) (p : Playback) :
    FoundOver (now :: nows) p ↔
      (p.cursor.events = [] ∧ now.isBefore p.deadline = false) ∨
        FoundOver nows (p.update now).1 := by
  constructor
  · rintro ⟨earlier,told,later,hs,he,hb⟩
    cases earlier with
    | nil =>
      obtain ⟨rfl,_⟩ := List.cons.inj hs
      exact .inl ⟨he,hb⟩
    | cons first earlier =>
      obtain ⟨rfl,ht⟩ := List.cons.inj hs
      exact .inr ⟨earlier,told,later,ht,he,hb⟩
  · rintro (⟨he,hb⟩ | ⟨earlier,told,later,rfl,he,hb⟩)
    · exact ⟨[],now,nows,rfl,he,hb⟩
    · exact ⟨now :: earlier,told,later,rfl,he,hb⟩

theorem foundOver_iff_of_events_nil (h : p.cursor.events = []) (nows : List Instant) :
    FoundOver nows p ↔ ∃ now ∈ nows, now.isBefore p.deadline = false := by
  induction nows generalizing p with
  | nil => simp [foundOver_nil]
  | cons now nows ih =>
    obtain ⟨he,hd⟩ := update_of_events_nil h now
    rw [foundOver_cons, ih he, hd]
    simp [h]

/-- Updates end the playing with the last event if that takes the last of the tune, and otherwise by
finding out that no event is left. -/
theorem not_isPlaying_updates_iff (nows : List Instant) (p : Playback) :
    (run (nows.map .update) p).1.isPlaying = false ↔
      p.isPlaying = false ∨
      ((run (nows.map .update) p).1.cursor.events = [] ∧ p.cursor.endsOnEvent = true) ∨
      FoundOver nows p := by
  induction nows generalizing p with
  | nil =>
    have he : p.cursor.endsOnEvent = true → p.cursor.events ≠ [] := Cursor.events_of_endsOnEvent
    simpa [foundOver_nil, run] using fun hn hs => absurd hn (he hs)
  | cons now nows ih =>
    have hr : (run ((now :: nows).map .update) p).1 =
        (run (nows.map .update) (p.update now).1).1 := rfl
    rw [hr, foundOver_cons, ih, not_isPlaying_update_iff]
    -- no event comes back, and as long as one is ahead the end of the tune stays what it is
    have hback := fun h : (p.update now).1.cursor.events = [] => events_updates_of_nil h nows
    constructor
    · rintro ((hp | ⟨he,hs⟩ | hf) | ⟨he,hs⟩ | hf)
      · exact .inl hp
      · exact .inr (.inl ⟨hback he,hs⟩)
      · exact .inr (.inr (.inl hf))
      · have hq := endsOnEvent_update (Cursor.events_of_endsOnEvent hs)
        exact .inr (.inl ⟨he,hq ▸ hs⟩)
      · exact .inr (.inr (.inr hf))
    · rintro (hp | ⟨he,hs⟩ | hf | hf)
      · exact .inl (.inl hp)
      · by_cases hq : (p.update now).1.cursor.events = []
        · exact .inl (.inr (.inl ⟨hq,hs⟩))
        · exact .inr (.inl ⟨he,(endsOnEvent_update hq).trans hs⟩)
      · exact .inl (.inr (.inr hf))
      · exact .inr (.inr hf)

theorem endsOnEvent_updates {nows : List Instant}
    (h : (run (nows.map .update) p).1.cursor.events ≠ []) :
    (run (nows.map .update) p).1.cursor.endsOnEvent = p.cursor.endsOnEvent := by
  induction nows generalizing p with
  | nil => rfl
  | cons now nows ih =>
    have hq : (p.update now).1.cursor.events ≠ [] := fun hn => h (events_updates_of_nil hn nows)
    exact (ih h).trans (endsOnEvent_update hq)

theorem isPlaying_updates_iff_of_events_nil (h : p.cursor.events = []) (hp : p.isPlaying = true)
    (nows : List Instant) :
    (run (nows.map .update) p).1.isPlaying = true ↔
      ∀ now ∈ nows, now.isBefore p.deadline = true := by
  have he : ¬((run (nows.map .update) p).1.cursor.events = [] ∧ p.cursor.endsOnEvent = true) :=
    fun hs => Cursor.events_of_endsOnEvent hs.2 h
  rw [← Bool.not_eq_false, not_isPlaying_updates_iff, foundOver_iff_of_events_nil h, hp]
  simp [he]

end Playback

/-- Once a tune is loaded and from then on only updates are made, at whatever times, it plays until
it is over, and it is over if it is empty, or if all its events are taken and the last token of the
text is the note or the pause of the last one, without digits, or if some update has been due when
all events were taken. So if the last event has digits, the updates in its slot leave the tune
playing and the first one that is due after it does not. -/
theorem tune_is_over_with_its_last_event (p : Playback) (tune : Tune) (start : Instant)
    (nows : List Instant) :
    let c := Cursor.start tune
    let tokens := Token.cut tune.bytes
    let polled := fun nows => Playback.run (.play tune start :: nows.map .update) p
    (tokens.flatMap Token.bytes = tune.bytes ∧
      c.events = (Token.evaluate tokens .initial).1.map Prod.fst) ∧
    ((polled nows).1.isPlaying = false ↔
      tune = .empty ∨
      (Act.taken (polled nows).2 = c.events ∧
        ∃ token dotted, tokens.getLast? = some token ∧ token.operand? = some ([], dotted)) ∨
      ∃ earlier now later, nows = earlier ++ now :: later ∧
        Act.taken (polled earlier).2 = c.events ∧
        now.isBefore (polled earlier).1.deadline = false) ∧
    ∀ earlier now later event digits dotted, nows = earlier ++ now :: later →
      (tokens.filterMap Token.operand?).getLast? = some (digits, dotted) → digits ≠ [] →
      Act.taken (polled earlier).2 ++ [event] = c.events →
      Act.taken (polled (earlier ++ [now])).2 = c.events →
      ((polled nows).1.isPlaying = true ↔
        ∀ told ∈ later, told.isBefore (now + event.slot) = true) := by
  intro c tokens polled
  have hends : c.endsOnEvent = true ↔ Token.EndsBare tokens := c.endsOnEvent_iff
  have hleft (nows : List Instant) :
      Act.taken (polled nows).2 ++ (polled nows).1.cursor.events = c.events :=
    Playback.taken_updates nows ⟨c, start⟩
  have hall (nows : List Instant) :
      Act.taken (polled nows).2 = c.events ↔ (polled nows).1.cursor.events = [] := by
    rw [← hleft nows, List.self_eq_append_right]
  refine ⟨⟨Token.flatMap_bytes_cut tune.bytes,?_⟩,?_,?_⟩
  · rw [c.events_eq_map]
    exact congrArg (fun evaluated => evaluated.1.map Prod.fst) c.evaluate_cut.symm
  · have hempty : c.isPlaying = false ↔ tune = .empty := by
      rw [← Bool.not_eq_true, Cursor.isPlaying_start, not_not]
    have h : (polled nows).1.isPlaying = false ↔ _ :=
      Playback.not_isPlaying_updates_iff nows ⟨c, start⟩
    rw [h, hends]
    refine or_congr hempty (or_congr (and_congr_left' (hall nows).symm) ?_)
    simp only [hall]
    rfl
  · rintro earlier now later event digits dotted rfl hw hd hbefore htaken
    let before := (polled earlier).1
    have hsplit (nows : List Instant) :
        (polled (earlier ++ nows)).1 = (Playback.run (nows.map .update) before).1 := by
      simp only [polled, before, List.map_append, ← List.cons_append, Playback.run_append]
    have hs : (polled (earlier ++ [now])).1 = (before.update now).1 := hsplit [now]
    have hahead : before.cursor.events = [event] :=
      List.append_cancel_left ((hleft earlier).trans hbefore.symm)
    have hnone : (before.update now).1.cursor.events = [] := by rw [← hs, ← hall, htaken]
    have hdigits : before.cursor.endsOnEvent = false := by
      have hne : before.cursor.events ≠ [] := hahead ▸ List.cons_ne_nil event []
      have hsame : before.cursor.endsOnEvent = c.endsOnEvent :=
        Playback.endsOnEvent_updates (p := ⟨c, start⟩) hne
      rw [hsame, ← Bool.not_eq_true, hends]
      exact Token.not_endsBare_of_digits hw hd
    obtain ⟨hplaying,hdeadline⟩ := Playback.update_takes_last hahead hnone hdigits
    have hlater : (polled (earlier ++ now :: later)).1 =
        (Playback.run (later.map .update) (before.update now).1).1 := hsplit (now :: later)
    rw [hlater, Playback.isPlaying_updates_iff_of_events_nil hnone hplaying, hdeadline]

/-- In `C4P8` the pause is taken at 500 with the `8` left standing, so the tune plays up to 749 and
is over with the update at 750. -/
theorem tune_is_over_with_its_last_event_after_its_slot :
    let tune : Tune := .ofBytes [0x43, 0x34, 0x50, 0x38]
    let polled := fun nows : List Instant =>
      Playback.run (.play tune .zero :: nows.map .update) Playback.initial
    (((Token.cut tune.bytes).filterMap Token.operand?).getLast? = some ([0x38], false) ∧
      Act.taken (polled [⟨0⟩]).2 ++ [.rest 250] = (Cursor.start tune).events ∧
      Act.taken (polled [⟨0⟩, ⟨500⟩]).2 = (Cursor.start tune).events) ∧
    (polled [⟨0⟩, ⟨500⟩, ⟨600⟩, ⟨749⟩]).1.isPlaying = true ∧
    (polled [⟨0⟩, ⟨500⟩, ⟨600⟩, ⟨749⟩, ⟨750⟩]).1.isPlaying = false := by
  intro tune polled
  have hw : ((Token.cut tune.bytes).filterMap Token.operand?).getLast? = some ([0x38], false) := by
    decide +kernel
  have hbefore : Act.taken (polled [⟨0⟩]).2 ++ [.rest 250] = (Cursor.start tune).events := by
    decide +kernel
  have htaken : Act.taken (polled [⟨0⟩, ⟨500⟩]).2 = (Cursor.start tune).events := by
    decide +kernel
  obtain ⟨_,_,hslot⟩ :=
    tune_is_over_with_its_last_event Playback.initial tune .zero [⟨0⟩, ⟨500⟩, ⟨600⟩, ⟨749⟩]
  obtain ⟨_,hover,_⟩ :=
    tune_is_over_with_its_last_event Playback.initial tune .zero [⟨0⟩, ⟨500⟩, ⟨600⟩, ⟨749⟩, ⟨750⟩]
  refine ⟨⟨hw,hbefore,htaken⟩,?_,hover.mpr (.inr (.inr ?_))⟩
  · have h := hslot [⟨0⟩] ⟨500⟩ [⟨600⟩, ⟨749⟩] _ [0x38] false rfl hw (by decide) hbefore htaken
    exact h.mpr (by decide +kernel)
  · exact ⟨[⟨0⟩, ⟨500⟩, ⟨600⟩, ⟨749⟩],⟨750⟩,[],rfl,by decide +kernel,by decide +kernel⟩

end Chime
