import Chime.Proofs.Tokens

/-!
# Tunes joined at a separator

A directive goes on as long as digits, a sign or a dot follow. Where none of them does, what comes
next is not looked at, so a tune may be cut there and its parts read one after the other. Only an
`L` or a `T` at the very end is different: it takes the separator for its missing number, and
nothing else depends on which byte that was.
-/

set_option autoImplicit false

namespace Chime

theorem Opening.ofByte_of_not_isSignificant {byte : UInt8}
    (h : Byte.isSignificant byte = false) : ofByte byte = nothing := by
  simp only [Byte.isSignificant, Bool.or_eq_false_iff] at h
  simpa using h.1.1.1.1

namespace Token

/-- Bytes that carry no directive on: the first of them is no digit, sign or dot. -/
def Fresh (bytes : Bytes) : Prop :=
  ∀ byte ∈ bytes.head?,
    Byte.isDigit byte = false ∧ byte ≠ Byte.minus ∧ byte ≠ Byte.plus ∧ byte ≠ Byte.dot

theorem fresh_nil : Fresh [] := by simp [Fresh]

theorem fresh_cons {byte : UInt8} (h : Byte.isSignificant byte = false) (bytes : Bytes) :
    Fresh (byte :: bytes) := by
  simp only [Byte.isSignificant, Bool.or_eq_false_iff, beq_eq_false_iff_ne] at h
  obtain ⟨⟨⟨⟨_,hd⟩,hm⟩,hp⟩,ht⟩ := h
  rintro _ ⟨⟩
  exact ⟨hd,hm,hp,ht⟩

variable {after : Bytes}

theorem digitsOf_append (hf : Fresh after) (bytes : Bytes) :
    digitsOf (bytes ++ after) = digitsOf bytes := by
  induction bytes with
  | nil =>
    cases after with
    | nil => rfl
    | cons byte after => exact digitsOf_cons_of_not_isDigit (hf byte rfl).1 after
  | cons byte bytes ih =>
    simp only [digitsOf_eq, List.cons_append, List.takeWhile_cons] at ih ⊢
    rw [ih]

theorem dottedOf_append (hf : Fresh after) (bytes : Bytes) :
    dottedOf (bytes ++ after) = dottedOf bytes := by
  induction bytes with
  | nil =>
    cases after with
    | nil => rfl
    | cons byte after =>
      obtain ⟨hd,_,_,ht⟩ := hf byte rfl
      simpa [dottedOf_eq, hd, Byte.dot] using ht
  | cons byte bytes ih =>
    simp only [dottedOf_eq, List.cons_append, List.dropWhile_cons] at ih ⊢
    split
    · exact ih
    · rfl

theorem signOf_append (hf : Fresh after) (bytes : Bytes) :
    signOf (bytes ++ after) = signOf bytes := by
  cases bytes with
  | cons byte bytes => rfl
  | nil =>
    cases after with
    | nil => rfl
    | cons byte after =>
      obtain ⟨_,hm,hp,_⟩ := hf byte rfl
      simp only [Byte.minus, Byte.plus] at hm hp
      simp [signOf, hm, hp]

theorem octaveOf?_append (hf : Fresh after) (bytes : Bytes) :
    octaveOf? (bytes ++ after) = octaveOf? bytes := by
  cases bytes with
  | cons byte bytes => rfl
  | nil =>
    cases after with
    | nil => rfl
    | cons byte after =>
      have hn : ¬(1 ≤ byte - 0x30 ∧ byte - 0x30 ≤ 7) := by
        intro hr
        have hd := (hf byte rfl).1
        rw [isDigit_of_octave hr] at hd
        cases hd
      rw [List.nil_append, octaveOf?_cons, Octave.ofNumber, dif_neg hn]
      rfl

theorem lostOf_append (hf : Fresh after) {bytes : Bytes} (hn : bytes ≠ []) :
    lostOf (bytes ++ after) = lostOf bytes := by
  cases bytes with
  | nil => exact absurd rfl hn
  | cons byte bytes => rw [lostOf, lostOf, digitsOf_append hf]; rfl

/-- The first token of a text ends where the text ends, unless it is still without its number. -/
theorem first_append (hf : Fresh after) {byte : UInt8} {rest : Bytes}
    (hn : rest = [] → byte ≠ 0x4c ∧ byte ≠ 0x54) :
    first byte (rest ++ after) = first byte rest := by
  cases ho : Opening.ofByte byte with
  | lower =>
    obtain rfl := Opening.eq_of_ofByte ho rfl
    rfl
  | raise =>
    obtain rfl := Opening.eq_of_ofByte ho rfl
    rfl
  | octave =>
    obtain rfl := Opening.eq_of_ofByte ho rfl
    simp only [first, octaveOf?_append hf]
  | length =>
    obtain rfl := Opening.eq_of_ofByte ho rfl
    have hr : rest ≠ [] := fun h => (hn h).1 rfl
    simp only [first, digitsOf_append hf, lostOf_append hf hr]
  | tempo =>
    obtain rfl := Opening.eq_of_ofByte ho rfl
    have hr : rest ≠ [] := fun h => (hn h).2 rfl
    simp only [first, digitsOf_append hf, lostOf_append hf hr]
  | pause =>
    obtain rfl := Opening.eq_of_ofByte ho rfl
    simp only [first, digitsOf_append hf, dottedOf_append hf]
  | letter l =>
    obtain rfl := Opening.eq_of_ofByte ho rfl
    have hd : (rest ++ after).drop (signBytes (signOf rest)).length =
        rest.drop (signBytes (signOf rest)).length ++ after :=
      List.drop_append_of_le_length (signBytes_signOf rest).length_le
    simp only [first_letter, signOf_append hf, hd, digitsOf_append hf, dottedOf_append hf]
  | nothing => rw [first_of_nothing ho, first_of_nothing ho]

theorem cut_append (hf : Fresh after) {byte : UInt8} {rest : Bytes}
    (hn : rest = [] → byte ≠ 0x4c ∧ byte ≠ 0x54) :
    cut (byte :: (rest ++ after)) =
      first byte rest :: cut (rest.drop ((first byte rest).bytes.length - 1) ++ after) := by
  have hl := ( bytes_first_prefix byte rest).length_le
  rw [List.length_cons] at hl
  rw [cut_cons, first_append hf hn, List.drop_append_of_le_length (by omega)]

theorem cut_nil : cut [] = [] := by rw [cut]

theorem evaluate_cut_hungry {byte : UInt8} (hb : byte = 0x4c ∨ byte = 0x54) (s : Settings) :
    evaluate (cut [byte]) s = ([], (first byte []).settings s) := by
  rw [cut_cons, List.drop_nil, cut_nil]
  rcases hb with rfl | rfl <;> rfl

theorem evaluate_cut_lost {byte separator : UInt8} (hb : byte = 0x4c ∨ byte = 0x54)
    (hd : Byte.isDigit separator = false) (bytes : Bytes) (s : Settings) :
    evaluate (cut (byte :: separator :: bytes)) s =
      evaluate (cut bytes) ((first byte []).settings s) := by
  have hn := digitsOf_cons_of_not_isDigit hd bytes
  have hl : lostOf (separator :: bytes) = some separator := by simp [lostOf, hn]
  rw [cut_cons, evaluate_cons]
  rcases hb with rfl | rfl
  · rw [show first 0x4c (separator :: bytes) = length [] (some separator) by
      simp only [first, hn, hl]]
    rfl
  · rw [show first 0x54 (separator :: bytes) = tempo [] (some separator) by
      simp only [first, hn, hl]]
    rfl

/-- At a separator the reading starts afresh, with the settings so far. -/
theorem evaluate_cut_append {separator : UInt8} (hs : Byte.isSignificant separator = false)
    (a b : Bytes) (s : Settings) :
    evaluate (cut (a ++ separator :: b)) s =
      ((evaluate (cut a) s).1 ++ (evaluate (cut b) (evaluate (cut a) s).2).1,
        (evaluate (cut b) (evaluate (cut a) s).2).2) := by
  have hf : Fresh (separator :: b) := fresh_cons hs b
  have hd : Byte.isDigit separator = false := (hf separator rfl).1
  have ho := Opening.ofByte_of_not_isSignificant hs
  induction a using cut.induct generalizing s with
  | case1 =>
    rw [List.nil_append, evaluate_cut_of_nothing ho, cut_nil]
    rfl
  | case2 byte rest token ih =>
    -- only an `L` or a `T` with nothing behind it looks past the end of `a`
    by_cases hn : rest = [] ∧ (byte = 0x4c ∨ byte = 0x54)
    · obtain ⟨rfl,hb⟩ := hn
      rw [List.cons_append, List.nil_append, evaluate_cut_lost hb hd, evaluate_cut_hungry hb]
      rfl
    · have hr : rest = [] → byte ≠ 0x4c ∧ byte ≠ 0x54 := by
        intro h
        simpa [h] using hn
      rw [List.cons_append, cut_append hf hr, cut_cons, evaluate_cons, evaluate_cons, ih]
      simp [token]

end Token

theorem Cursor.evaluate_ofPosition_zero (tune : Tune) (s : Settings) :
    Token.evaluate (Token.cut tune.bytes) s =
      ((ofPosition tune 0 s).drain.map (fun item => (item.1, item.2.settings)),
        (ofPosition tune 0 s).finish.settings) :=
  (ofPosition tune 0 s).evaluate_cut

theorem Cursor.events_eq_map (c : Cursor) :
    c.events = (c.drain.map fun item => (item.1, item.2.settings)).map Prod.fst := by
  rw [events, List.map_map]
  rfl

/-- A tune made of two tunes with a byte between them that means nothing is drained like the one
and then the other, whatever the first of them ends in. -/
theorem joined_tunes_drain_in_turn (a b : Tune) (separator : UInt8) (h0 : separator ≠ 0)
    (hs : Byte.isSignificant separator = false) (s : Settings) :
    let whole := Tune.ofBytes (a.bytes ++ separator :: b.bytes)
    let joined := Cursor.ofPosition whole 0 s
    let first := Cursor.ofPosition a 0 s
    let second := Cursor.ofPosition b 0 first.finish.settings
    whole.bytes = a.bytes ++ separator :: b.bytes ∧
      joined.events = first.events ++ second.events ∧
      joined.finish.settings = second.finish.settings := by
  intro whole joined first second
  have hw : whole.bytes = a.bytes ++ separator :: b.bytes := by
    have hb : b.bytes.takeWhile (· != 0) = b.bytes := congrArg Tune.bytes b.ofBytes_bytes
    have ha := a.takeWhile_bytes_append (separator :: b.bytes)
    rwa [List.takeWhile_cons_of_pos (by simpa using h0), hb] at ha
  have hj := Token.evaluate_cut_append hs a.bytes b.bytes s
  rw [← hw, Cursor.evaluate_ofPosition_zero, Cursor.evaluate_ofPosition_zero a,
    Cursor.evaluate_ofPosition_zero b, Prod.mk.injEq] at hj
  refine ⟨hw,?_,hj.2⟩
  rw [joined.events_eq_map, first.events_eq_map, second.events_eq_map, ← List.map_append]
  exact congrArg (List.map Prod.fst) hj.1

/-- A tune that ends in an `L` without a number loses the space and not the note behind it, which
has the length that was set before. -/
theorem joined_tunes_drain_in_turn_after_bare_length :
    let a := Tune.ofBytes [0x4c, 0x38, 0x43, 0x4c]
    let b := Tune.ofBytes [0x44]
    (0x20 : UInt8) ≠ 0 ∧ Byte.isSignificant 0x20 = false ∧
      (Cursor.ofPosition (.ofBytes (a.bytes ++ 0x20 :: b.bytes)) 0 .initial).events =
        [.tone ⟨⟨.c, .natural⟩, .middle⟩ 250, .tone ⟨⟨.d, .natural⟩, .middle⟩ 250] := by
  intro a b
  obtain ⟨_,he,_⟩ := joined_tunes_drain_in_turn a b 0x20 (by decide) (by decide) .initial
  exact ⟨by decide,by decide,he.trans (by decide +kernel)⟩

end Chime
