import Chime.Proofs.Domains

/-!
# Readings move on and come to an end

Every directive takes a byte at least, and the byte that is left standing after a length opens
nothing. So each event is paid for with a byte of its own that opens one, and once these are spent
the readings are at the end of the tune and stay there.
-/

set_option autoImplicit false

namespace Chime

def Byte.opensEvent (byte : UInt8) : Bool := byte == 0x50 || (0x41 ≤ byte && byte ≤ 0x47)

theorem Letter.opensEvent_byte (l : Letter) : Byte.opensEvent l.byte = true := by
  cases l <;> rfl

theorem Letter.ofByte_of_le {byte : UInt8} (hlow : 0x41 ≤ byte) (hhigh : byte ≤ 0x47) :
    ∃ l, ofByte byte = .ok l := by
  unfold ofByte
  split
  any_goals exact ⟨_,rfl⟩
  next ha hb hc hd he hf hg =>
    simp only [UInt8.le_iff_toNat_le, UInt8.reduceToNat] at hlow hhigh
    simp only [imp_false, ← UInt8.toNat_inj, UInt8.reduceToNat] at ha hb hc hd he hf hg
    omega

theorem Directive.read_pitch {byte : UInt8} (hlow : 0x41 ≤ byte) (hhigh : byte ≤ 0x47)
    (rest : Bytes) :
    ∃ pitch left, Lexeme.pitch (byte :: rest) = .ok (pitch, left) ∧
      read byte rest = (note pitch (operand left).1, (operand left).2) := by
  obtain ⟨l,hl⟩ := Letter.ofByte_of_le hlow hhigh
  obtain rfl := Letter.eq_byte_of_ofByte hl
  refine ⟨_,_,Lexeme.pitch_byte l rest,?_⟩
  have ho : Opening.ofByte l.byte = .letter l := Opening.ofByte_of_byte? rfl
  rw [read, ho]

theorem Directive.opensEvent_of_event? {s : Settings} {byte : UInt8} {rest : Bytes} {event : Event}
    (h : s.event? (read byte rest).1 = some event) : Byte.opensEvent byte = true := by
  unfold read at h
  cases ho : Opening.ofByte byte with
  | pause => exact Opening.eq_of_ofByte ho rfl ▸ rfl
  | letter l => exact Opening.eq_of_ofByte ho rfl ▸ l.opensEvent_byte
  | octave =>
    rw [ho] at h
    dsimp only at h
    split at h <;> cases h
  | _ =>
    rw [ho] at h
    cases h

/-- An event is paid for with one of the bytes read. -/
theorem countP_advance (s : Settings) (bytes : Bytes) :
    (advance s bytes).event?.toList.length + (advance s bytes).rest.countP Byte.opensEvent ≤
      bytes.countP Byte.opensEvent := by
  have hr (byte : UInt8) (bytes : Bytes) :
      (Directive.read byte bytes).2.countP Byte.opensEvent ≤ bytes.countP Byte.opensEvent :=
    (Directive.read_suffix byte bytes).sublist.countP_le
  fun_induction advance s bytes with
  | case1 s => exact Nat.le_refl _
  | case2 s byte bytes read event h =>
    have hb := hr byte bytes
    rw [List.countP_cons_of_pos (Directive.opensEvent_of_event? h)]
    simp only [Option.toList_some, List.length_singleton, read]
    omega
  | case3 s byte bytes read h ih =>
    have hb := hr byte bytes
    have hc : bytes.countP Byte.opensEvent ≤ (byte :: bytes).countP Byte.opensEvent :=
      (List.sublist_cons_self byte bytes).countP_le
    exact Nat.le_trans ih (Nat.le_trans hb hc)

namespace Cursor

theorem length_events_le (c : Cursor) : c.events.length ≤ c.rest.countP Byte.opensEvent := by
  have ha := countP_advance c.settings c.rest
  fun_induction drain c with
  | case1 c event behind h ih =>
    have hi := ih (countP_advance behind.settings behind.rest)
    rw [advance_of_next h] at ha
    rw [events_of_some h, List.length_cons]
    simp only [Option.toList_some, List.length_singleton] at ha
    omega
  | case2 c behind h =>
    rw [events_of_none h]
    exact Nat.zero_le _

theorem tune_readings (n : Nat) (c : Cursor) : (c.readings n).1.tune = c.tune := by
  induction n generalizing c with
  | zero => rfl
  | succ n ih => exact ih c.next.2

theorem readings_of_not_isPlaying {c : Cursor} (h : c.isPlaying = false) (m : Nat) :
    c.readings m = (c, List.replicate m none) := by
  induction m with
  | zero => rfl
  | succ m ih => rw [readings, next_of_not_isPlaying h, ih, List.replicate_succ]

theorem readings_events (c : Cursor) (m : Nat) :
    (c.readings (c.events.length + m)).2 = c.events.map some ++ List.replicate m none := by
  induction c using drain.induct with
  | case1 c event behind h ih =>
    rw [events_of_some h, List.length_cons, Nat.add_right_comm, readings, h, ih]
    rfl
  | case2 c behind h =>
    rw [events_of_none h, List.length_nil, Nat.zero_add]
    cases m with
    | zero => rfl
    | succ m =>
      rw [readings, h, readings_of_not_isPlaying (not_isPlaying_of_none h), List.map_nil,
        List.nil_append, List.replicate_succ]

end Cursor

/-- Wherever the readings of a tune have come to, the next one ends: it obeys no more directives
than bytes are left. It moves on to an event or to the end of the tune, a letter always opening a
note, and at the end it stays. So no more events are left than bytes that open one, and once these
events are read there are none for good. -/
theorem readings_move_on_and_end (bytes : Bytes) (n : Nat) :
    let tune := Tune.ofBytes bytes
    let c := ((Cursor.start tune).readings n).1
    (∃ events, Guarded.Reader.readings n (.start tune) = .ok (.ofCursor c, events)) ∧
    (∀ directives, tune.length - c.position < directives →
      Guarded.Reader.next directives (.ofCursor c) = .ok (.ofCursor c.next.2, c.next.1)) ∧
    (∀ event behind, c.next = (some event, behind) →
      c.position < behind.position ∧ behind.position ≤ tune.length) ∧
    (∀ behind, c.next = (none, behind) → behind.position = tune.length ∧
      ∀ m, behind.readings m = (behind, List.replicate m none)) ∧
    (∀ byte rest, 0x41 ≤ byte → byte ≤ 0x47 →
      ∃ pitch left, Lexeme.pitch (byte :: rest) = .ok (pitch, left) ∧
        Directive.read byte rest =
          (.note pitch (Directive.operand left).1, (Directive.operand left).2)) ∧
    c.events.length ≤ (tune.bytes.drop c.position).countP Byte.opensEvent ∧
    ∀ m, (c.readings (c.events.length + m)).2 = c.events.map some ++ List.replicate m none := by
  intro tune c
  have ht : c.tune = tune := Cursor.tune_readings n (.start tune)
  have hrest : c.rest = tune.bytes.drop c.position := ht ▸ c.rest_eq_drop
  refine ⟨?_,?_,?_,?_,fun byte rest hlow hhigh => Directive.read_pitch hlow hhigh rest,?_,
    c.readings_events⟩
  · have hr := Guarded.Reader.readings_ofCursor n (.start tune)
    rw [Guarded.Reader.ofCursor_start] at hr
    exact ⟨_,hr⟩
  · intro directives hd
    have hl : c.rest.length = tune.length - c.position := by
      rw [hrest, List.length_drop]
      rfl
    exact Guarded.Reader.next_before c.settings c.suffix (hl ▸ hd)
  · intro event behind h
    have hb : behind = c.next.2 := (congrArg Prod.snd h).symm
    subst hb
    have hle : c.next.2.position ≤ c.tune.length := c.next.2.position_le
    rw [ht] at hle
    exact ⟨Cursor.position_next_lt (congrArg Prod.fst h),hle⟩
  · intro behind h
    have hb : behind = c.next.2 := (congrArg Prod.snd h).symm
    have hp := Cursor.position_next_of_none (congrArg Prod.fst h)
    rw [ht, ← hb] at hp
    exact ⟨hp,Cursor.readings_of_not_isPlaying (Cursor.not_isPlaying_of_none h)⟩
  · exact hrest ▸ c.length_events_le

/-- In `C4.P8L` the second reading starts at the dot and stops before the `8`, the third passes the
`L` and comes to the end, and so does every reading after it. -/
theorem readings_move_on_and_end_with_a_bare_length :
    let bytes : Bytes := [0x43, 0x34, 0x2e, 0x50, 0x38, 0x4c]
    let c := ((Cursor.start (.ofBytes bytes)).readings 1).1
    (c.position = 2 ∧ c.next.1 = some (.rest 250) ∧ c.next.2.position = 4 ∧
      c.position < c.next.2.position) ∧
    (c.next.2.next.1 = none ∧ c.next.2.next.2.position = 6 ∧
      ∀ m, (c.next.2.next.2.readings m).2 = List.replicate m none) ∧
    c.events.length ≤ 1 ∧ ∃ left, Lexeme.pitch bytes = .ok (⟨.c, .natural⟩, left) := by
  intro bytes c
  have he : c.next.1 = some (.rest 250) := by decide +kernel
  have hn : c.next.2.next.1 = none := by decide +kernel
  obtain ⟨_,_,hmove,_,hpitch,hcount,_⟩ := readings_move_on_and_end bytes 1
  obtain ⟨_,_,_,hend,_,_,_⟩ := readings_move_on_and_end bytes 2
  have hlt := (hmove (.rest 250) c.next.2 (Prod.ext he rfl)).1
  have hlast := hend c.next.2.next.2 (Prod.ext hn rfl)
  obtain ⟨pitch,left,hp,_⟩ := hpitch 0x43 [0x34, 0x2e, 0x50, 0x38, 0x4c] (by decide) (by decide)
  refine ⟨⟨by decide +kernel,he,by decide +kernel,hlt⟩,⟨hn,?_,?_⟩,?_,left,?_⟩
  · exact hlast.1.trans (by decide +kernel)
  · exact fun m => congrArg Prod.snd (hlast.2 m)
  · exact Nat.le_trans hcount (by decide +kernel)
  · exact hp.trans (by cases hp; rfl)

end Chime
