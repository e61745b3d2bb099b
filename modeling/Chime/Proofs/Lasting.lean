import Chime.Proofs.Limits
import Chime.Proofs.Pauses

/-!
# How long events last

An event lasts a number of milliseconds between zero and six minutes, unless the tempo is zero:
then it lasts forever, or no time can be given where its denominator is infinite too. Every step of
the calculation is rounded, and all the bounds on the way can be written, so they hold of what is
rounded.
-/

set_option autoImplicit false

namespace Chime

open Single (AtLeast Holds Within infinity)

namespace NoteValue

variable {value : NoteValue} {tempo : Float32}

open Float.Model.UnpackedFloat in
theorem unpack_dot :
    (1.5 : Float32).toModel.unpack = .finite .positive 12582912 (-23) (by decide) := by
  rfl

theorem holds_dot : Holds 1.5 (3 / 2) := by
  rw [Holds, unpack_dot]
  exact .finite _ ⟨by decide,by decide,.inl (by decide)⟩ (by norm_num)

theorem holds_four : Holds 4 4 := by exact_mod_cast Single.holds_ofNat (n := 4) (by decide)

theorem beats_within (h : AtLeast 1 value.denominator) : Within 6 value.beats := by
  have hq : Within 4 (4 / value.denominator) := holds_four.div h
  unfold beats
  split
  · exact hq.mul ⟨_,le_rfl,holds_dot⟩ (n := 6) (by decide) (by norm_num)
  · exact hq.mono (by norm_num)

theorem beats_atLeast {q : ℚ} (h : Holds value.denominator q) (hq : 0 < q) :
    AtLeast (2 ^ (-126 : Int)) value.beats := by
  have hd := holds_four.div_atLeast le_rfl h hq
  unfold beats
  split
  · exact hd.mul Single.onGrid_least holds_dot (by norm_num)
  · exact hd

theorem millis_within (hv : AtLeast 1 value.denominator) (ht : AtLeast 1 tempo) :
    Within 360000 (value.millis tempo) := by
  have h60 : Holds 60 60 := by exact_mod_cast Single.holds_ofNat (n := 60) (by decide)
  have h1000 : Holds 1000 1000 := by exact_mod_cast Single.holds_ofNat (n := 1000) (by decide)
  have hb := (h60.div ht).mul (beats_within hv) (n := 360) (by decide) (by norm_num)
  exact hb.mul ⟨_,le_rfl,h1000⟩ (n := 360000) (by decide) (by norm_num)

/-- A tempo of zero makes any length infinite that is not lost. -/
theorem millis_zero {q : ℚ} (hv : Holds value.denominator q) (hq : 0 < q) :
    value.millis 0 = infinity := by
  have h60 : (60 : Float32) / 0 = infinity := by decide +kernel
  have hb : infinity * value.beats = infinity :=
    Single.infinity_mul (beats_atLeast hv hq) (by positivity)
  rw [millis, h60, hb]
  decide +kernel

theorem isNaN_millis_zero (h : value.denominator = infinity) :
    (value.millis 0).isNaN = true := by
  obtain ⟨denominator,dotted⟩ := value
  subst h
  cases dotted <;> decide +kernel

theorem millis_cases (hv : AtLeast 1 value.denominator) (ht : Single.ZeroOrMore tempo) :
    (tempo = 0 ∧ value.denominator.isFinite = true ∧ value.millis tempo = infinity) ∨
    (tempo = 0 ∧ value.denominator = infinity ∧ (value.millis tempo).isNaN = true) ∨
    (tempo ≠ 0 ∧ Within 360000 (value.millis tempo)) := by
  by_cases h0 : tempo = 0
  · subst h0
    rcases hv with hv | ⟨q,hq,hv⟩
    · exact .inr (.inl ⟨rfl,hv,isNaN_millis_zero hv⟩)
    · exact .inl ⟨rfl,hv.isFinite,millis_zero hv (one_pos.trans_le hq)⟩
  · exact .inr (.inr ⟨h0,millis_within hv (ht.resolve_left h0)⟩)

end NoteValue

namespace Token

def operand? : Token → Option (Bytes × Bool)
  | pause digits dotted => some (digits, dotted)
  | note _ _ digits dotted => some (digits, dotted)
  | _ => none

theorem map_millis_event? (s : Settings) (token : Token) :
    (token.event? s).map Event.millis =
      token.operand?.map fun operand => duration s operand.1 operand.2 := by
  cases token <;> rfl

theorem operand_of_evaluate {tokens : List Token} {s after : Settings} {event : Event}
    (h : (evaluate tokens s).1.head? = some (event, after)) :
    ∃ digits dotted, tokens.findSome? operand? = some (digits, dotted) ∧
      event.millis = duration after digits dotted := by
  induction tokens generalizing s with
  | nil => cases h
  | cons token tokens ih =>
    have hm := map_millis_event? s token
    rw [evaluate_cons] at h
    cases he : token.event? s with
    | some e =>
      simp only [he, Option.toList_some, List.map_cons, List.cons_append, List.head?_cons,
        Option.some.injEq, Prod.mk.injEq] at h
      obtain ⟨rfl,rfl⟩ := h
      rw [he] at hm
      obtain ⟨⟨digits,dotted⟩,ho,hd⟩ := Option.map_eq_some_iff.mp hm.symm
      exact ⟨digits,dotted,by rw [List.findSome?_cons, ho],hd.symm⟩
    | none =>
      simp only [he, Option.toList_none, List.map_nil, List.nil_append] at h
      rw [he] at hm
      rw [List.findSome?_cons, Option.map_eq_none_iff.mp hm.symm]
      exact ih h

end Token

theorem Cursor.operand_of_next {c behind : Cursor} {event : Event}
    (h : c.next = (some event, behind)) :
    ∃ digits dotted, (Token.cut c.rest).findSome? Token.operand? = some (digits, dotted) ∧
      event.millis = Token.duration behind.settings digits dotted := by
  apply Token.operand_of_evaluate (s := c.settings)
  rw [Token.evaluate_cut_advance, advance_of_next h]
  rfl

theorem Settings.Bounded.atLeast_denominator {s : Settings} (h : s.Bounded) (digits : Bytes) :
    AtLeast 1 (if Lexeme.numeral digits == 0 then s.defaultLength
      else Lexeme.numeral digits) := by
  split
  · exact h.defaultLength
  next hn =>
    refine (Lexeme.zeroOrMore_numeral digits).resolve_left ?_
    intro hz
    rw [hz] at hn
    exact hn rfl

namespace Event

theorem slot_of_infinity {event : Event} (h : event.millis = infinity) :
    event.slot.millis = 4294967295 := by
  rw [slot, h]
  decide +kernel

theorem slot_of_isNaN {event : Event} (h : event.millis.isNaN = true) :
    event.slot.millis = 0 := by
  rw [slot, Duration.ofMillis, Single.toUInt32_of_isNaN h]
  rfl

theorem slot_of_within {event : Event} (h : Within 360000 event.millis) :
    event.slot.millis ≤ 360000 := by
  rw [UInt64.le_iff_toNat_le, toNat_slot]
  exact Within.toUInt32_le (n := 360000) h

theorem duration_le_slot {event : Event} {hz : Hertz} {duration : Duration}
    (h : event.sound? = some (hz, duration)) : duration.millis ≤ event.slot.millis := by
  cases event with
  | rest ms => cases h
  | tone note ms =>
    obtain ⟨_,rfl⟩ := Prod.mk.inj (Option.some.inj h)
    exact UInt64.le_iff_toNat_le.mpr (sounding_le_slot ms)

theorem sound?_of_mem_acts {event : Event} {hz : Hertz} {duration : Duration}
    (h : .sound hz duration ∈ event.acts) : event.sound? = some (hz, duration) := by
  cases event with
  | rest ms => cases h
  | tone note ms =>
    obtain ⟨rfl,rfl⟩ := Act.sound.inj (List.mem_singleton.mp h)
    rfl

structure Lasts (event : Event) (tempo den : Float32) : Prop where
  finite_or : den.isFinite = true ∨ den = infinity
  endless : tempo = 0 → den.isFinite = true → event.millis = infinity
  undefined : tempo = 0 → den = infinity → event.millis.isNaN = true
  bounded : tempo ≠ 0 → event.millis.isNaN = false ∧ 0 ≤ event.millis ∧ event.millis ≤ 360000
  saturated : event.slot.millis = 4294967295 ↔ tempo = 0 ∧ den.isFinite = true
  skipped : event.millis.isNaN = true → event.slot.millis = 0
  short : ¬(tempo = 0 ∧ den.isFinite = true) → event.slot.millis ≤ 360000

variable {event : Event} {tempo den : Float32}

theorem lasts_of_infinity (hd : den.isFinite = true) (h : event.millis = infinity) :
    event.Lasts 0 den where
  finite_or := .inl hd
  endless _ _ := h
  undefined _ hi := by
    rw [hi] at hd
    cases hd
  bounded h0 := absurd rfl h0
  saturated := ⟨fun _ => ⟨rfl,hd⟩,fun _ => slot_of_infinity h⟩
  skipped := slot_of_isNaN
  short h0 := absurd ⟨rfl,hd⟩ h0

theorem lasts_of_isNaN (h : event.millis.isNaN = true) : event.Lasts 0 infinity where
  finite_or := .inr rfl
  endless _ hd := by cases hd
  undefined _ _ := h
  bounded h0 := absurd rfl h0
  saturated := by
    rw [slot_of_isNaN h]
    decide +kernel
  skipped := slot_of_isNaN
  short _ := by
    rw [slot_of_isNaN h]
    decide

theorem lasts_of_within (hd : AtLeast 1 den) (ht : tempo ≠ 0) (h : Within 360000 event.millis) :
    event.Lasts tempo den where
  finite_or := hd.isFinite_or
  endless h0 := absurd h0 ht
  undefined h0 := absurd h0 ht
  bounded _ :=
    ⟨h.isNaN,h.zero_le,h.le (by exact_mod_cast Single.holds_ofNat (n := 360000) (by decide))⟩
  saturated := by
    refine ⟨fun hs => ?_,fun h0 => absurd h0.1 ht⟩
    have hle := slot_of_within h
    rw [hs] at hle
    exact absurd hle (by decide)
  skipped := slot_of_isNaN
  short _ := slot_of_within h

/-- At any settings that can be reached six minutes are passed at a tempo of zero only. -/
theorem lasts_of_duration {s : Settings} {digits : Bytes} {dotted : Bool} (hs : s.Bounded)
    (h : event.millis = Token.duration s digits dotted) :
    event.Lasts s.tempo (if Lexeme.numeral digits == 0 then s.defaultLength
      else Lexeme.numeral digits) := by
  let value : NoteValue := ⟨if Lexeme.numeral digits == 0 then s.defaultLength
    else Lexeme.numeral digits,dotted⟩
  have hm : event.millis = value.millis s.tempo := h
  have hd : AtLeast 1 value.denominator := hs.atLeast_denominator digits
  change event.Lasts s.tempo value.denominator
  rcases NoteValue.millis_cases hd hs.tempo with ⟨h0,hf,hi⟩ | ⟨h0,hi,hn⟩ | ⟨h0,hw⟩
  · rw [h0]
    exact lasts_of_infinity hf (hm.trans hi)
  · rw [h0, hi]
    exact lasts_of_isNaN (hm ▸ hn)
  · exact lasts_of_within hd h0 (hm ▸ hw)

end Event

theorem Playback.schedule_of_next {p : Playback} {event : Event} {behind : Cursor} {now : Instant}
    (hn : p.cursor.next = (some event, behind)) (hd : p.isDue now = true) :
    (p.update now).1.deadline = now + event.slot ∧
      ∀ hz duration, .sound hz duration ∈ (p.update now).2 →
        duration.millis ≤ event.slot.millis := by
  have hu : p.update now = _ := update_of_isDue hd
  rw [take_of_some hn] at hu
  rw [hu]
  refine ⟨rfl,fun hz duration hm => ?_⟩
  simp only [List.mem_cons, reduceCtorEq, false_or] at hm
  exact Event.duration_le_slot (Event.sound?_of_mem_acts hm)

/-- An event lasts forever, or for no time that can be given, at a tempo of zero only, and otherwise
between zero and six minutes. So its slot is the longest there is where the tempo is zero and the
denominator finite, zero where no time can be given, and no more than six minutes elsewhere; and no
tone is asked for that is longer than its slot. -/
theorem only_zero_tempo_saturates (bytes : Bytes) (n : Nat) (event : Event) (behind : Cursor)
    (h : ((Cursor.start (.ofBytes bytes)).readings n).1.next = (some event, behind)) :
    let c := ((Cursor.start (.ofBytes bytes)).readings n).1
    ∃ digits dotted, (Token.cut c.rest).findSome? Token.operand? = some (digits, dotted) ∧
      let written := Lexeme.numeral digits
      let den := if written == 0 then behind.settings.defaultLength else written
      event.Lasts behind.settings.tempo den ∧
      ∀ (p : Playback) (now : Instant), p.cursor = c → p.isDue now = true →
        (p.update now).1.deadline = now + event.slot ∧
          ∀ hz duration, .sound hz duration ∈ (p.update now).2 →
            duration.millis ≤ event.slot.millis := by
  intro c
  have hb : behind.settings.Bounded := by
    have hc : c.next.2.settings.Bounded :=
      (Cursor.bounded_readings n Settings.bounded_initial).advance _
    rwa [h] at hc
  obtain ⟨digits,dotted,ho,hm⟩ := Cursor.operand_of_next h
  refine ⟨digits,dotted,ho,Event.lasts_of_duration hb hm,?_⟩
  intro p now hc hd
  exact Playback.schedule_of_next (hc ▸ h : p.cursor.next = (some event, behind)) hd

/-- In `C4T0D8` the second note lasts forever, and its slot is the longest there is. -/
theorem only_zero_tempo_saturates_after_a_note :
    let c := ((Cursor.start (.ofBytes [0x43, 0x34, 0x54, 0x30, 0x44, 0x38])).readings 1).1
    let event := Event.tone ⟨⟨.d, .natural⟩, .middle⟩ infinity
    c.next = (some event, c.next.2) ∧ event.slot.millis = 4294967295 := by
  intro c event
  have hn : c.next = (some event, c.next.2) := Prod.ext (by decide +kernel) rfl
  have ht : c.next.2.settings.tempo = 0 := by decide +kernel
  have hw : (Token.cut c.rest).findSome? Token.operand? = some ([0x38], false) := by
    decide +kernel
  obtain ⟨digits,dotted,ho,hl,_⟩ := only_zero_tempo_saturates _ 1 event c.next.2 hn
  cases hw.symm.trans ho
  exact ⟨hn,hl.saturated.mpr ⟨ht,by decide +kernel⟩⟩

end Chime
