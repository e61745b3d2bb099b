import Chime.Guarded
import Chime.Proofs.Tokens
import Chime.Proofs.Tuning
import Mathlib.Algebra.Group.Nat.Defs

/-!
# Staying inside every domain

Guarded playback never faults. A position always stands for the bytes that are left, which are a
suffix of the tune, and every reader gives back a suffix of what it took; a step back is made only
after a digit; octaves stay among the seven. So each guarded operation comes to what the plain one
does, whatever bytes the tune is made of and whatever is called when.
-/

set_option autoImplicit false

namespace Chime

namespace Guarded

@[simp] theorem ok_bind {α β : Type} (a : α) (f : α → Checked β) :
    ((.ok a : Checked α) >>= f) = f a := rfl

@[simp] theorem pure_eq {α : Type} (a : α) : (pure a : Checked α) = .ok a := rfl

theorem byteDifference_of_le {a b : UInt8} (h : b ≤ a) : byteDifference a b = .ok (a - b) :=
  if_pos h

theorem difference_of_le {a b : Nat} (h : b ≤ a) : difference a b = .ok (a - b) := if_pos h

theorem byteDifference_of_isDigit {byte : UInt8} (h : Byte.isDigit byte = true) :
    byteDifference byte 0x30 = .ok (Byte.digitValue byte) := by
  simp only [Byte.isDigit, Bool.and_eq_true, decide_eq_true_eq] at h
  exact byteDifference_of_le h.1

theorem foldlM_digits {digits : Bytes} (h : ∀ byte ∈ digits, Byte.isDigit byte = true)
    (n : Float32) :
    digits.foldlM (fun n byte => do return n * 10 + (← byteDifference byte 0x30).toFloat32) n =
      (.ok (digits.foldl (fun n byte => n * 10 + (Byte.digitValue byte).toFloat32) n) :
        Checked Float32) := by
  induction digits generalizing n with
  | nil => rfl
  | cons byte digits ih =>
    rw [List.foldlM_cons, byteDifference_of_isDigit (h byte List.mem_cons_self)]
    exact ih (fun b hm => h b (List.mem_cons_of_mem byte hm)) _

theorem number_eq (bytes : Bytes) : number bytes = .ok (Lexeme.number bytes) := by
  rw [number, foldlM_digits fun byte hm => List.all_eq_true.mp List.all_takeWhile byte hm]
  rfl

theorem octaveDigit_eq (bytes : Bytes) :
    octaveDigit bytes = .ok (match Lexeme.octave bytes with
      | .ok (o, rest) => some (o.number, rest)
      | .error _ => none) := by
  cases bytes with
  | nil => rfl
  | cons byte rest =>
    cases hd : Byte.isDigit byte with
    | false => simp [octaveDigit, Lexeme.octave, hd]
    | true =>
      simp only [octaveDigit, Lexeme.octave, hd, if_true, byteDifference_of_isDigit hd, ok_bind,
        pure_eq, Octave.ofNumber]
      by_cases hr : 1 ≤ Byte.digitValue byte ∧ Byte.digitValue byte ≤ 7 <;> simp [hr]

theorem lookUp_eq (pitch : Pitch) :
    lookUp (row pitch.letter) (column pitch.accidental) = .ok pitch.base := by
  obtain ⟨letter,accidental⟩ := pitch
  cases letter <;> cases accidental <;> rfl

/-- Three places to the left lose no bit of a number with no more than 29. -/
theorem shiftLeft_of_lt {hz : Hertz} {places : UInt8} (hz29 : hz.toNat < 2 ^ 29)
    (hp : places.toNat ≤ 3) : shiftLeft hz places = .ok (hz <<< places.toUInt32) := by
  have h32 : places.toNat < 32 := Nat.lt_of_le_of_lt hp (by decide)
  have hpow : 2 ^ places.toNat ≤ 2 ^ 3 := Nat.pow_le_pow_right (by decide) hp
  have hmul : hz.toNat * 2 ^ places.toNat < 2 ^ 32 := by
    have := Nat.mul_le_mul_left hz.toNat hpow
    omega
  have hback : (hz <<< places.toUInt32) >>> places.toUInt32 = hz := by
    apply UInt32.toNat_inj.mp
    rw [Hertz.toNat_shiftRight h32, Hertz.toNat_shiftLeft h32 hmul,
      Nat.mul_div_cancel _ (Nat.two_pow_pos _)]
  exact if_pos ⟨UInt8.lt_iff_toNat_lt.mpr h32,hback⟩

theorem frequency_eq (pitch : Pitch) (octave : Octave) :
    frequency pitch octave.number = .ok (pitch.frequency octave) := by
  obtain ⟨hlow,hhigh⟩ := octave.bounds
  have hin : ¬(octave.number < 1 ∨ 7 < octave.number) := by
    simp only [UInt8.lt_iff_toNat_lt, UInt8.reduceToNat]
    omega
  have hf : pitch.frequency octave =
      if octave.number < 4 then pitch.base >>> (4 - octave.number).toUInt32
      else if 4 < octave.number then pitch.base <<< (octave.number - 4).toUInt32
      else pitch.base := rfl
  simp only [frequency, if_neg hin, lookUp_eq, ok_bind, pure_eq, hf]
  by_cases hl : octave.number < 4
  · have hle : octave.number ≤ 4 := UInt8.le_of_lt hl
    have hlt : 4 - octave.number < 32 := by
      rw [UInt8.lt_iff_toNat_lt, UInt8.toNat_sub_of_le _ _ hle]
      simp only [UInt8.reduceToNat]
      omega
    simp only [if_pos hl, byteDifference_of_le hle, ok_bind]
    exact if_pos hlt
  · by_cases hh : 4 < octave.number
    · have hle : 4 ≤ octave.number := UInt8.le_of_lt hh
      have hlt : (octave.number - 4).toNat ≤ 3 := by
        rw [UInt8.toNat_sub_of_le _ _ hle]
        simp only [UInt8.reduceToNat]
        omega
      simp only [if_neg hl, if_pos hh, byteDifference_of_le hle, ok_bind]
      exact shiftLeft_of_lt (Nat.lt_of_le_of_lt pitch.base_bounds.2 (by decide)) hlt
    · simp only [if_neg hl, if_neg hh]

example : frequency ⟨.b, .sharp⟩ 7 = .ok 4184 := rfl

namespace Reader

/-- The reader of `bytes` that has `rest` still ahead. -/
def before (bytes : Bytes) (s : Settings) (rest : Bytes) : Reader :=
  ⟨bytes, bytes.length - rest.length, s.tempo, s.octave.number, s.defaultLength⟩

def ofCursor (c : Cursor) : Reader := before c.tune.bytes c.settings c.rest

variable {bytes rest : Bytes}

theorem suffix_before (s : Settings) (h : rest <:+ bytes) :
    suffix (before bytes s rest).bytes (before bytes s rest).pos = .ok rest := by
  obtain ⟨front,rfl⟩ := h
  have hl : (front ++ rest).length - rest.length = front.length := by
    rw [List.length_append]
    omega
  simp only [before, hl]
  rw [suffix, if_pos (by rw [List.length_append]; omega), List.drop_left]

theorem moveTo_before (s : Settings) (h : rest <:+ bytes) {left : Bytes} (hl : left <:+ rest) :
    (before bytes s rest).moveTo left = .ok (before bytes s left) := by
  have h1 := h.length_le
  have h2 := hl.length_le
  have hp : bytes.length - rest.length + (rest.length - left.length) =
      bytes.length - left.length := by omega
  simp only [moveTo, suffix_before s h, ok_bind, pure_eq, difference_of_le h2]
  simp only [before, hp]

theorem pos_before_succ (s : Settings) {byte : UInt8} (h : byte :: rest <:+ bytes) :
    { before bytes s (byte :: rest) with pos := (before bytes s (byte :: rest)).pos + 1 } =
      before bytes s rest := by
  have hl := h.length_le
  rw [List.length_cons] at hl
  have hp : bytes.length - (byte :: rest).length + 1 = bytes.length - rest.length := by
    rw [List.length_cons]
    omega
  simp only [before, hp]

theorem control_before (s : Settings) (h : rest <:+ bytes) :
    (before bytes s rest).control =
      .ok ((Directive.control rest).1, before bytes s (Directive.control rest).2) := by
  simp only [control, suffix_before s h, number_eq, ok_bind, pure_eq,
    moveTo_before s h (Lexeme.number_suffix rest)]
  have hl := h.length_le
  cases rest with
  | nil =>
    have hn : ¬((before bytes s []).pos = (before bytes s []).pos ∧
        (before bytes s []).pos < (before bytes s []).bytes.length) := by
      simp [before]
    exact congrArg Except.ok (Prod.ext rfl (if_neg hn))
  | cons byte rest =>
    rw [List.length_cons] at hl
    cases hd : Byte.isDigit byte with
    | true =>
      have hc : Directive.control (byte :: rest) = Lexeme.number (byte :: rest) := if_pos hd
      have hlt : (Lexeme.number (byte :: rest)).2.length ≤ rest.length := by
        simpa [Lexeme.number, hd] using (List.dropWhile_suffix Byte.isDigit).length_le
      rw [hc, if_neg]
      simp only [before, List.length_cons]
      omega
    | false =>
      have hc : Directive.control (byte :: rest) = (0, rest) := by simp [Directive.control, hd]
      rw [hc, Lexeme.number_of_not_isDigit rest hd, if_pos, pos_before_succ s h]
      simp only [before, List.length_cons, true_and]
      omega

theorem any_head_take {width : Nat} (hw : Token.digitsOf rest ≠ [] → 0 < width) :
    (rest.take width).head?.any Byte.isDigit = !(Token.digitsOf rest).isEmpty := by
  cases rest with
  | nil => simp [Token.digitsOf_eq]
  | cons byte rest =>
    cases width with
    | zero =>
      cases hd : Byte.isDigit byte with
      | true => simp [Token.digitsOf_eq, hd] at hw
      | false => simp [Token.digitsOf_eq, hd]
    | succ width => cases hd : Byte.isDigit byte <;> simp [Token.digitsOf_eq, hd]

theorem pos_before_drop (s : Settings) (h : rest <:+ bytes) {width : Nat}
    (hw : width ≤ rest.length) :
    (before bytes s (rest.drop width)).pos = (before bytes s rest).pos + width := by
  have hl := h.length_le
  simp only [before, List.length_drop]
  omega

theorem span_of_suffix {start width : Nat} (hs : suffix bytes start = .ok rest)
    (hw : width ≤ rest.length) : span bytes start (start + width) = .ok (rest.take width) := by
  unfold suffix at hs
  split at hs
  next hle =>
    obtain rfl := Except.ok.inj hs
    rw [List.length_drop] at hw
    rw [span, if_pos ⟨Nat.le_add_right start width,by omega⟩, Nat.add_sub_cancel_left]
  next => cases hs

theorem duration_before (s : Settings) (h : rest <:+ bytes) :
    (before bytes s rest).duration =
      .ok (s.millis (Directive.operand rest).1, before bytes s (Directive.operand rest).2) := by
  let word := Token.digitsOf rest ++ Token.dotBytes (Token.dottedOf rest)
  have hw : word.length ≤ rest.length := (Token.digitsOf_append_dotBytes rest).length_le
  have hs := suffix_before s h
  have hn : (Lexeme.dotted (Lexeme.number rest).2).2 = (Lexeme.length rest).2 := rfl
  have hr : (Lexeme.length rest).2 = rest.drop word.length :=
    congrArg Prod.snd (Token.length_eq rest)
  have hm := moveTo_before s h (Lexeme.length_suffix rest)
  rw [hr] at hn hm
  have hp := pos_before_drop s h hw
  have hdigits (hd : Token.digitsOf rest ≠ []) : 1 ≤ word.length := by
    rw [List.length_append]
    exact Nat.add_pos_left (List.length_pos_iff.mpr hd) _
  simp only [duration, hs, number_eq, ok_bind, pure_eq, hn, hm, hp, span_of_suffix hs hw,
    any_head_take hdigits]
  cases hd : (Token.digitsOf rest).isEmpty with
  | true =>
    have ho := Token.operand_snd_of_no_digits (List.isEmpty_iff.mp hd)
    simp only [Bool.not_true, Bool.false_eq_true, if_false, difference_of_le (Nat.le_add_right _ _),
      ok_bind]
    rw [ho, ← hp]
    rfl
  | false =>
    -- at least the digit was taken, so a step back does not pass the start
    have hne : Token.digitsOf rest ≠ [] := by
      intro he
      rw [he] at hd
      cases hd
    have h1 := hdigits hne
    have ho := Token.operand_snd_of_digits hne
    have hback := pos_before_drop s h (Nat.le_trans (Nat.sub_le word.length 1) hw)
    rw [← Nat.add_sub_assoc h1] at hback
    have hstart : (before bytes s rest).pos ≤ (before bytes s rest).pos + word.length - 1 := by
      omega
    simp only [Bool.not_false, if_true, difference_of_le (Nat.le_add_left_of_le h1),
      difference_of_le hstart, ok_bind]
    rw [ho, ← hback]
    rfl

theorem directive_before (s : Settings) {byte : UInt8} (h : byte :: rest <:+ bytes) :
    (before bytes s (byte :: rest)).directive byte =
      .ok (before bytes (s.apply (Directive.read byte rest).1) (Directive.read byte rest).2,
        s.event? (Directive.read byte rest).1) := by
  have hr : rest <:+ bytes := (List.suffix_cons byte rest).trans h
  have hpos : (before bytes s (byte :: rest)).pos + 1 = (before bytes s rest).pos :=
    congrArg pos (pos_before_succ s h)
  have hs : suffix (before bytes s (byte :: rest)).bytes
      ((before bytes s (byte :: rest)).pos + 1) = .ok rest := by
    rw [hpos]
    exact suffix_before s hr
  have ho : (before bytes s (byte :: rest)).octave = s.octave.number := rfl
  simp only [directive, pos_before_succ s h]
  simp only [ho, Directive.read]
  cases Opening.ofByte byte with
  | lower =>
    by_cases hl : 1 < s.octave.number
    · have hd := byteDifference_of_le (UInt8.le_of_lt hl)
      have hn : s.octave.lower.number = s.octave.number - 1 := by rw [Octave.lower, dif_pos hl]
      simp only [if_pos hl, hd, ok_bind, pure_eq, ← hn, hpos]
      rfl
    · have hn : s.octave.lower = s.octave := dif_neg hl
      have ha : s.apply .lower = s := by simp only [Settings.apply, hn]
      simp only [if_neg hl, pure_eq, ha]
      rfl
  | raise =>
    by_cases hl : s.octave.number < 7
    · have hn : s.octave.raise.number = s.octave.number + 1 := by rw [Octave.raise, dif_pos hl]
      simp only [if_pos hl, pure_eq, ← hn, hpos]
      rfl
    · have hn : s.octave.raise = s.octave := dif_neg hl
      have ha : s.apply .raise = s := by simp only [Settings.apply, hn]
      simp only [if_neg hl, pure_eq, ha]
      rfl
  | octave =>
    simp only [hs, octaveDigit_eq, ok_bind]
    cases hx : Lexeme.octave rest with
    | ok read =>
      simp only [moveTo_before s hr (Lexeme.octave_suffix hx), ok_bind, pure_eq]
      rfl
    | error failure => rfl
  | length =>
    simp only [control_before s hr, ok_bind, pure_eq, Settings.apply]
    split <;> rfl
  | tempo =>
    simp only [control_before s hr, ok_bind, pure_eq]
    rfl
  | pause =>
    simp only [duration_before s hr, ok_bind, pure_eq]
    rfl
  | letter l =>
    have ha := Lexeme.accidental_suffix rest
    simp only [hs, ok_bind, moveTo_before s hr ha, duration_before s (ha.trans hr), frequency_eq,
      Octave.ofNumber_number, pure_eq]
    rfl
  | nothing => rfl

/-- A reader gets to the next event without a fault, if it may read a directive for each byte. -/
theorem next_before (s : Settings) (h : rest <:+ bytes) {n : Nat} (hn : rest.length < n) :
    next n (before bytes s rest) =
      .ok (before bytes (advance s rest).settings (advance s rest).rest,
        (advance s rest).event?) := by
  induction n generalizing s rest with
  | zero => exact absurd hn (Nat.not_lt_zero _)
  | succ n ih =>
    have hs := suffix_before s h
    cases rest with
    | nil =>
      simp only [next, hs, ok_bind, List.head?_nil, pure_eq, advance_nil]
    | cons byte rest =>
      have hr := (Directive.read_suffix byte rest).trans ((List.suffix_cons byte rest).trans h)
      have hlt := Directive.length_read_lt byte rest
      simp only [next, hs, ok_bind, List.head?_cons, directive_before s h]
      cases he : s.event? (Directive.read byte rest).1 with
      | some event => simp only [pure_eq, advance_of_event? he, Settings.apply_of_event? he]
      | none =>
        -- a directive takes a byte at least, so there is one call less to make
        simp only [advance_of_control he]
        exact ih _ hr (by omega)

/-- Where every operation of the reader is defined. -/
def Inside (r : Reader) : Prop := r.pos ≤ r.bytes.length ∧ 1 ≤ r.octave ∧ r.octave ≤ 7

theorem inside_ofCursor (c : Cursor) : (ofCursor c).Inside :=
  ⟨Nat.sub_le _ _,c.settings.octave.low,c.settings.octave.high⟩

theorem ofCursor_start (tune : Tune) : ofCursor (.start tune) = start tune := by
  have hp : tune.bytes.length - tune.bytes.length = 0 := Nat.sub_self _
  simp only [ofCursor, before, Cursor.start, hp]
  rfl

theorem next_ofCursor (c : Cursor) :
    next ((ofCursor c).bytes.length + 1) (ofCursor c) = .ok (ofCursor c.next.2, c.next.1) :=
  next_before c.settings c.suffix (Nat.lt_succ_of_le c.suffix.length_le)

def readings : Nat → Reader → Checked (Reader × List (Option Event))
  | 0, r => .ok (r, [])
  | n + 1, r => do
    let (moved, event?) ← r.next (r.bytes.length + 1)
    let (last, others) ← readings n moved
    return (last, event? :: others)

end Reader

end Guarded

def Cursor.readings : Nat → Cursor → Cursor × List (Option Event)
  | 0, c => (c, [])
  | n + 1, c => ((c.next.2.readings n).1, c.next.1 :: (c.next.2.readings n).2)

namespace Guarded

theorem Reader.readings_ofCursor (n : Nat) (c : Cursor) :
    readings n (ofCursor c) = .ok (ofCursor (c.readings n).1, (c.readings n).2) := by
  induction n generalizing c with
  | zero => rfl
  | succ n ih => simp only [readings, next_ofCursor, ok_bind, ih, pure_eq, Cursor.readings]

namespace Player

def ofPlayback (p : Playback) : Player := ⟨.ofCursor p.cursor, p.deadline⟩

theorem initial_eq : ofPlayback .initial = initial := by
  rw [ofPlayback, Playback.initial, Reader.ofCursor_start]
  rfl

theorem waits_iff (p : Playback) (now : Instant) :
    (now.isBefore (ofPlayback p).deadline ∨
      (ofPlayback p).reader.bytes.length ≤ (ofPlayback p).reader.pos) ↔ p.isDue now = false := by
  rw [← Bool.not_eq_true (p.isDue now), p.isDue_iff, Classical.not_and_iff_not_or_not,
    Bool.not_eq_false, Playback.isPlaying, p.cursor.isPlaying_iff, Nat.not_lt]
  rfl

theorem step_ofPlayback (c : Command) (p : Playback) :
    step c (ofPlayback p) = .ok (ofPlayback (p.step c).1) := by
  cases c with
  | play tune now =>
    rw [step, Playback.step, Playback.play, ofPlayback, Reader.ofCursor_start]
    rfl
  | stop =>
    rw [step, Playback.step, Playback.stop, ofPlayback, ofPlayback, Reader.ofCursor_start]
    rfl
  | update now =>
    have hw := waits_iff p now
    cases hd : p.isDue now with
    | false =>
      rw [step, if_pos (hw.mpr hd), Playback.step, Playback.update_of_not_isDue hd, pure_eq]
    | true =>
      have hn : ¬(now.isBefore (ofPlayback p).deadline ∨
          (ofPlayback p).reader.bytes.length ≤ (ofPlayback p).reader.pos) := by
        rw [hw, hd]
        exact Bool.noConfusion
      rw [step, if_neg hn, Playback.step, Playback.update_of_isDue hd]
      have hr : (ofPlayback p).reader.next ((ofPlayback p).reader.bytes.length + 1) = _ :=
        Reader.next_ofCursor p.cursor
      rw [hr, ok_bind]
      cases hc : p.cursor.next with
      | mk event? behind =>
        cases event? with
        | some event => rw [Playback.take_of_some hc]; rfl
        | none => rw [Playback.take_of_none hc]; rfl

theorem run_ofPlayback (cs : List Command) (p : Playback) :
    run cs (ofPlayback p) = .ok (ofPlayback (p.run cs).1) := by
  induction cs generalizing p with
  | nil => rfl
  | cons c cs ih => rw [run, step_ofPlayback, ok_bind, ih, Playback.run]

end Player

end Guarded

/-- No call for an event and no command ever takes an operation out of its domain, whatever the
bytes and the instants are: the guarded reader and the guarded player come to the end without a
fault, with a position inside the tune and an octave among the seven, and they have read and
scheduled what the plain ones do. -/
theorem guarded_play_never_faults (bytes : Bytes) (n : Nat) (cs : List Command) :
    let tune := Tune.ofBytes bytes
    let read := (Cursor.start tune).readings n
    let p := (Playback.run cs .initial).1
    Guarded.Reader.readings n (.start tune) = .ok (.ofCursor read.1, read.2) ∧
      (Guarded.Reader.ofCursor read.1).Inside ∧
      Guarded.Player.run cs .initial = .ok (.ofPlayback p) ∧
      (Guarded.Player.ofPlayback p).reader.Inside := by
  intro tune read p
  have hr := Guarded.Reader.readings_ofCursor n (.start tune)
  have hp := Guarded.Player.run_ofPlayback cs .initial
  rw [Guarded.Reader.ofCursor_start] at hr
  rw [Guarded.Player.initial_eq] at hp
  exact ⟨hr,Guarded.Reader.inside_ofCursor read.1,hp,Guarded.Reader.inside_ofCursor p.cursor⟩

end Chime
