import Chime.Proofs.Ending
import Chime.Proofs.Progress

/-!
# Where a reading stops

A reading that makes an event stops behind the note or the pause, or on the last byte of it where
digits are written. No byte behind the letter opens anything, so the next reading finds from there
what it would find from behind all of them.
-/

set_option autoImplicit false

namespace Chime

namespace Token

def signWidth (letter : UInt8) (tail : Bytes) : Nat :=
  if letter ≠ 0x50 ∧ (tail.head? = some 0x2d ∨ tail.head? = some 0x2b) then 1 else 0

def digitsWidth (bytes : Bytes) : Nat := (bytes.takeWhile Byte.isDigit).length

def dotWidth (bytes : Bytes) : Nat := if bytes.head? = some 0x2e then 1 else 0

def lead (bytes : Bytes) : Bytes :=
  ((cut bytes).takeWhile fun token => token.operand?.isNone).flatMap Token.bytes

theorem lead_of_operand {byte : UInt8} {rest : Bytes}
    (h : (first byte rest).operand?.isSome = true) : lead (byte :: rest) = [] := by
  rw [lead, cut_cons, List.takeWhile_cons_of_neg]
  · rfl
  · simpa using Option.ne_none_iff_isSome.mpr h

theorem lead_of_control {byte : UInt8} {rest : Bytes} (h : (first byte rest).operand? = none) :
    lead (byte :: rest) =
      (first byte rest).bytes ++ lead (rest.drop ((first byte rest).bytes.length - 1)) := by
  rw [lead, cut_cons, List.takeWhile_cons_of_pos (by rw [h]; rfl), List.flatMap_cons]
  rfl

/-- An event is made where the bytes before the first note or pause end. -/
theorem advance_lead {s : Settings} {bytes : Bytes} {event : Event}
    (h : (advance s bytes).event? = some event) :
    ∃ letter tail, bytes = lead bytes ++ letter :: tail ∧
      (advance s bytes).rest = (Directive.read letter tail).2 ∧
      (first letter tail).event? (advance s bytes).settings = some event := by
  fun_induction advance s bytes with
  | case1 => cases h
  | case2 s byte bytes read made he =>
    cases h
    have hs : (first byte bytes).operand?.isSome = true := by
      rw [← isSome_event?_read s, he]
      rfl
    refine ⟨byte,bytes,by rw [lead_of_operand hs]; rfl,rfl,?_⟩
    rw [← event?_directive, ← (read_first byte bytes).1]
    exact he
  | case3 s byte bytes read he ih =>
    have hn : (first byte bytes).operand? = none := by
      rw [← Option.not_isSome_iff_eq_none, ← isSome_event?_read s, he]
      exact Bool.noConfusion
    have hr : read.2 = bytes.drop ((first byte bytes).bytes.length - 1) := by
      have hs : (first byte bytes).standing = 0 := by rw [standing, hn]
      simpa [hs] using read_snd_eq byte bytes
    obtain ⟨letter,tail,hb,ht⟩ := ih h
    refine ⟨letter,tail,?_,ht⟩
    rw [lead_of_control hn, List.append_assoc, ← hr, ← hb, hr, append_drop_first]

theorem length_operand (bytes : Bytes) :
    (digitsOf bytes ++ dotBytes (dottedOf bytes)).length =
      digitsWidth bytes + dotWidth (bytes.drop (digitsWidth bytes)) := by
  have hd : bytes.drop (digitsWidth bytes) = bytes.dropWhile Byte.isDigit :=
    drop_length_takeWhile Byte.isDigit bytes
  rw [List.length_append, hd, dotWidth, dottedOf_eq, dotBytes]
  congr 1
  by_cases h : (bytes.dropWhile Byte.isDigit).head? = some 0x2e <;> simp [h]

theorem length_signBytes (l : Letter) (tail : Bytes) :
    (signBytes (signOf tail)).length = signWidth l.byte tail := by
  have hl : l.byte ≠ 0x50 := by cases l <;> decide
  unfold signOf signWidth
  by_cases hm : tail.head? = some 0x2d
  · simp [hm, hl, signBytes]
  · by_cases hp : tail.head? = some 0x2b <;> simp [hp, hm, hl, signBytes]

theorem ofByte_of_mem_signBytes {sign : Accidental} {byte : UInt8} (h : byte ∈ signBytes sign) :
    Opening.ofByte byte = .nothing := by
  cases sign with
  | natural => cases h
  | flat => rw [List.mem_singleton.mp h]; rfl
  | sharp => rw [List.mem_singleton.mp h]; rfl

theorem first_of_opensEvent {letter : UInt8} (h : Byte.opensEvent letter = true) (tail : Bytes) :
    let after := tail.drop (signWidth letter tail)
    (first letter tail).operand? = some (digitsOf after, dottedOf after) ∧
      ∃ sign, (signBytes sign).length = signWidth letter tail ∧
        (first letter tail).bytes =
          letter :: (signBytes sign ++ (digitsOf after ++ dotBytes (dottedOf after))) := by
  simp only [Byte.opensEvent, Bool.or_eq_true, Bool.and_eq_true, beq_iff_eq,
    decide_eq_true_eq] at h
  rcases h with rfl | ⟨hlow,hhigh⟩
  · have ha : signWidth 0x50 tail = 0 := by simp [signWidth]
    rw [ha]
    exact ⟨rfl,.natural,rfl,rfl⟩
  · obtain ⟨l,hl⟩ := Letter.ofByte_of_le hlow hhigh
    obtain rfl := Letter.eq_byte_of_ofByte hl
    have ha := length_signBytes l tail
    rw [← ha, first_letter]
    exact ⟨rfl,signOf tail,rfl,rfl⟩

/-- The last byte of a length with digits is the dot, or a digit where there is none. -/
theorem exists_last_of_digits {bytes : Bytes} {k r : Nat} (hk : digitsWidth bytes = k)
    (hr : dotWidth (bytes.drop k) = r) (h : 0 < k) :
    ∃ last, bytes[k + r - 1]? = some last ∧
      if r = 0 then Byte.isDigit last = true else last = 0x2e := by
  by_cases hd : (bytes.drop k).head? = some 0x2e
  · have h1 : r = 1 := hr.symm.trans (if_pos hd)
    subst h1
    rw [List.head?_drop] at hd
    exact ⟨0x2e,hd,rfl⟩
  · have h0 : r = 0 := hr.symm.trans (if_neg hd)
    subst h0
    obtain ⟨after,ha⟩ := List.takeWhile_prefix Byte.isDigit (l := bytes)
    have hl : k - 1 < (bytes.takeWhile Byte.isDigit).length := by
      rw [show (bytes.takeWhile Byte.isDigit).length = k from hk]
      exact Nat.sub_lt h Nat.one_pos
    refine ⟨(bytes.takeWhile Byte.isDigit)[k - 1],?_,?_⟩
    · calc bytes[k + 0 - 1]?
          = (bytes.takeWhile Byte.isDigit ++ after)[k - 1]? := by rw [ha]; rfl
        _ = _ := by rw [List.getElem?_append_left hl, List.getElem?_eq_getElem hl]
    · exact List.all_eq_true.mp List.all_takeWhile _ (List.getElem_mem hl)

/-- How a note or a pause is written behind its letter: in so many bytes of a sign, digits, and
bytes of a dot. -/
structure Spelled (letter : UInt8) (tail : Bytes) (a k r : Nat) : Prop where
  le_length : a + k + r ≤ tail.length
  length_bytes : (first letter tail).bytes.length = a + k + r + 1
  standing : (first letter tail).standing = if k = 0 then 0 else 1
  blank : ∀ byte ∈ tail.take (a + k + r), Opening.ofByte byte = .nothing
  last : 0 < k → ∃ last, tail[a + (k + r - 1)]? = some last ∧
    if r = 0 then Byte.isDigit last = true else last = 0x2e

theorem spelled_of_opensEvent {letter : UInt8} {tail : Bytes} {a k r : Nat}
    (h : Byte.opensEvent letter = true) (ha : signWidth letter tail = a)
    (hk : digitsWidth (tail.drop a) = k) (hr : dotWidth (tail.drop (a + k)) = r) :
    Spelled letter tail a k r := by
  obtain ⟨ho,sign,hs,hb⟩ := first_of_opensEvent h tail
  rw [ha] at ho hs hb
  rw [← List.drop_drop] at hr
  let word := signBytes sign ++ (digitsOf (tail.drop a) ++ dotBytes (dottedOf (tail.drop a)))
  have hw : word.length = a + k + r := by
    rw [List.length_append, length_operand, hs, hk, hr, Nat.add_assoc]
  have hp : word <+: tail := by
    have hf := bytes_first_prefix letter tail
    rw [hb] at hf
    exact (List.cons_prefix_cons.mp hf).2
  have ht : tail.take (a + k + r) = word := by
    rw [← hw]
    exact (List.prefix_iff_eq_take.mp hp).symm
  refine ⟨hw ▸ hp.length_le,?_,?_,?_,?_⟩
  · rw [hb, List.length_cons, hw]
  · rw [standing_of_operand ho, ← hk]
    rfl
  · rw [ht]
    intro byte hm
    rcases List.mem_append.mp hm with hm | hm
    · exact ofByte_of_mem_signBytes hm
    · exact ofByte_of_mem_operand hm
  · intro h0
    have hl := exists_last_of_digits hk hr h0
    rwa [List.getElem?_drop] at hl

end Token

theorem advance_of_nothing {byte : UInt8} (h : Opening.ofByte byte = .nothing) (s : Settings)
    (bytes : Bytes) : advance s (byte :: bytes) = advance s bytes := by
  have hr : Directive.read byte bytes = (.nothing, bytes) := by rw [Directive.read, h]
  rw [advance_of_control (by rw [hr]; rfl), hr]
  rfl

theorem advance_of_stops {left after : Bytes} (h : Token.Stops left after) (s : Settings) :
    advance s left = advance s after := by
  rcases h with rfl | ⟨byte,hb,rfl⟩
  · rfl
  · exact advance_of_nothing hb s after

namespace Cursor

def opening (c : Cursor) : Nat := c.position + (Token.lead c.rest).length

theorem drop_opening (c : Cursor) :
    c.tune.bytes.drop c.opening = c.rest.drop (Token.lead c.rest).length := by
  rw [opening, ← List.drop_drop, ← c.rest_eq_drop]

theorem next_congr {c d : Cursor} (ht : c.tune = d.tune)
    (ha : advance c.settings c.rest = advance d.settings d.rest) : c.next = d.next :=
  Prod.ext (congrArg Passage.event? ha)
    (Cursor.ext ht (congrArg Passage.settings ha) (congrArg Passage.rest ha))

theorem drain_congr {c d : Cursor} (h : c.next = d.next) :
    c.drain = d.drain ∧ c.finish = d.finish := by
  cases hn : d.next with
  | mk event? behind =>
    rw [hn] at h
    cases event? with
    | some event =>
      exact ⟨(drain_of_some h).trans (drain_of_some hn).symm,
        (finish_of_some h).trans (finish_of_some hn).symm⟩
    | none =>
      exact ⟨(drain_of_none h).trans (drain_of_none hn).symm,
        (finish_of_none h).trans (finish_of_none hn).symm⟩

end Cursor

theorem Cursor.exists_opening {c behind : Cursor} {event : Event}
    (h : c.next = (some event, behind)) :
    ∃ letter tail, c.tune.bytes.drop c.opening = letter :: tail ∧ Byte.opensEvent letter = true ∧
      (Token.first letter tail).event? behind.settings = some event ∧
      behind.rest = (Directive.read letter tail).2 := by
  have ha := advance_of_next h
  obtain ⟨letter,tail,hc,hr,he⟩ := Token.advance_lead (congrArg Passage.event? ha)
  rw [ha] at hr he
  refine ⟨letter,tail,?_,?_,he,hr⟩
  · rw [c.drop_opening]
    exact (congrArg (List.drop (Token.lead c.rest).length) hc).trans List.drop_left
  · have hread : behind.settings.event? (Directive.read letter tail).1 = some event := by
      rw [(Token.read_first letter tail).1, Token.event?_directive]
      exact he
    exact Directive.opensEvent_of_event? hread

namespace Cursor

variable {c behind : Cursor} {letter : UInt8} {tail : Bytes} {q a k r : Nat}

theorem drop_tail (hq : c.tune.bytes.drop q = letter :: tail) (n : Nat) :
    c.tune.bytes.drop (q + 1 + n) = tail.drop n := by
  rw [Nat.add_assoc, ← List.drop_drop, hq, Nat.add_comm, List.drop_succ_cons]

theorem length_tune (hq : c.tune.bytes.drop q = letter :: tail) :
    c.tune.length = q + 1 + tail.length := by
  have hl := congrArg List.length hq
  rw [List.length_drop, List.length_cons] at hl
  rw [Tune.length]
  omega

theorem rest_of_spelled (hs : Token.Spelled letter tail a k r)
    (hb : behind.rest = (Directive.read letter tail).2) :
    behind.rest = tail.drop (a + k + r - if k = 0 then 0 else 1) := by
  rw [hb, Token.read_snd_eq, hs.length_bytes, hs.standing, Nat.add_sub_cancel]

theorem position_of_spelled (ht : behind.tune = c.tune)
    (hq : c.tune.bytes.drop q = letter :: tail) (hs : Token.Spelled letter tail a k r)
    (hb : behind.rest = (Directive.read letter tail).2) :
    behind.position = if k = 0 then q + 1 + a + r else q + a + k + r := by
  have hw := hs.le_length
  rw [position, ht, length_tune hq, rest_of_spelled hs hb, List.length_drop]
  split <;> omega

theorem position_le_of_spelled (hq : c.tune.bytes.drop q = letter :: tail)
    (hs : Token.Spelled letter tail a k r) : q + 1 + a + k + r ≤ c.tune.length := by
  have hw := hs.le_length
  rw [length_tune hq]
  omega

/-- A last byte that opens nothing is passed over. -/
theorem next_of_spelled (ht : behind.tune = c.tune)
    (hq : c.tune.bytes.drop q = letter :: tail) (hs : Token.Spelled letter tail a k r)
    (hb : behind.rest = (Directive.read letter tail).2) :
    behind.next = (ofPosition c.tune (q + 1 + a + k + r) behind.settings).next := by
  have hstops := (Token.read_first letter tail).2
  have hi : q + 1 + a + k + r = q + 1 + (a + k + r) := by omega
  have hrest : (ofPosition c.tune (q + 1 + a + k + r) behind.settings).rest =
      tail.drop (a + k + r) := by
    rw [hi]
    exact drop_tail hq (a + k + r)
  rw [hs.length_bytes, Nat.add_sub_cancel, ← hb, ← hrest] at hstops
  exact next_congr ht (advance_of_stops hstops behind.settings)

theorem last_of_spelled (ht : behind.tune = c.tune)
    (hq : c.tune.bytes.drop q = letter :: tail) (hs : Token.Spelled letter tail a k r)
    (hb : behind.rest = (Directive.read letter tail).2) (hk : 0 < k) :
    behind.isPlaying = true ∧ ∃ last, c.tune.bytes[behind.position]? = some last ∧
      if r = 0 then Byte.isDigit last = true else last = 0x2e := by
  have hp := position_of_spelled ht hq hs hb
  rw [if_neg (Nat.ne_of_gt hk)] at hp
  constructor
  · have hle := position_le_of_spelled hq hs
    rw [behind.isPlaying_iff, ht, hp]
    omega
  · obtain ⟨last,hl,hkind⟩ := hs.last hk
    refine ⟨last,?_,hkind⟩
    have hi : q + a + k + r = q + 1 + (a + (k + r - 1)) := by omega
    rw [← List.head?_drop, hp, hi, drop_tail hq, List.head?_drop, hl]

end Cursor

/-- Wherever a reading starts that makes an event, it stops behind the letter of the event, its sign
and its dot, or on the last byte of its length where that has digits, and then the tune still plays.
None of the bytes behind the letter opens anything, and what is left to read is what is left behind
all of them. -/
theorem cursor_rests_on_its_operand {c behind : Cursor} {event : Event}
    (h : c.next = (some event, behind)) :
    let q := c.opening
    ∃ letter tail, c.tune.bytes.drop q = letter :: tail ∧ Byte.opensEvent letter = true ∧
      (Token.first letter tail).event? behind.settings = some event ∧
      let a := Token.signWidth letter tail
      let k := Token.digitsWidth (tail.drop a)
      let r := Token.dotWidth (tail.drop (a + k))
      let onward := Cursor.ofPosition c.tune (q + 1 + a + k + r) behind.settings
      behind.position = (if k = 0 then q + 1 + a + r else q + a + k + r) ∧
      (0 < k → behind.isPlaying = true ∧ ∃ last, c.tune.bytes[behind.position]? = some last ∧
        if r = 0 then Byte.isDigit last = true else last = 0x2e) ∧
      (∀ byte ∈ tail.take (a + k + r), Opening.ofByte byte = .nothing) ∧
      onward.position = q + 1 + a + k + r ∧ behind.next = onward.next ∧
      behind.drain = onward.drain ∧ behind.finish = onward.finish := by
  intro q
  obtain ⟨letter,tail,hq,ho,he,hb⟩ := Cursor.exists_opening h
  have ht : behind.tune = c.tune := congrArg (fun next => next.2.tune) h.symm
  refine ⟨letter,tail,hq,ho,he,?_⟩
  intro a k r onward
  have hs : Token.Spelled letter tail a k r := Token.spelled_of_opensEvent ho rfl rfl rfl
  have hn : behind.next = onward.next := Cursor.next_of_spelled ht hq hs hb
  refine ⟨Cursor.position_of_spelled ht hq hs hb,Cursor.last_of_spelled ht hq hs hb,hs.blank,?_,hn,
    Cursor.drain_congr hn⟩
  exact Cursor.position_ofPosition _ (Cursor.position_le_of_spelled hq hs)

/-- In `C4 OC+16.P` the second reading starts at the `4`, passes the bare `O`, and stops at the dot of
the second note, which the third passes over on its way to the pause. -/
theorem cursor_rests_on_its_operand_behind_a_bare_octave :
    let bytes : Bytes := [0x43, 0x34, 0x20, 0x4f, 0x43, 0x2b, 0x31, 0x36, 0x2e, 0x50]
    let c := ((Cursor.start (.ofBytes bytes)).readings 1).1
    let event := Event.tone ⟨⟨.c, .sharp⟩, .middle⟩ 187.5
    c.next = (some event, c.next.2) ∧ c.opening = 4 ∧ c.next.2.position = 8 ∧
      c.next.2.isPlaying = true ∧
      c.next.2.next = (Cursor.ofPosition (.ofBytes bytes) 9 .initial).next := by
  intro bytes c event
  have hn : c.next = (some event, c.next.2) := Prod.ext (by decide +kernel) rfl
  have hq : c.opening = 4 := by decide +kernel
  have hs : c.next.2.settings = .initial := by decide +kernel
  obtain ⟨letter,tail,hb,_,_,hpos,hplays,_,_,hnext,_,_⟩ := cursor_rests_on_its_operand hn
  have hd : c.tune.bytes.drop c.opening = [0x43, 0x2b, 0x31, 0x36, 0x2e, 0x50] := by
    rw [hq]
    rfl
  cases hd.symm.trans hb
  rw [hq, hs] at hnext
  rw [hq] at hpos
  exact ⟨hn,hq,hpos.trans (by decide),(hplays (by decide)).1,hnext⟩

end Chime
