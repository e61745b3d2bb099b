import Chime.Buzzer.Basic
import Chime.Proofs.Domains
import Chime.Proofs.Single.Bounds
import Chime.Proofs.Writing

/-!
# Limits of the settings

A number that is read is positive zero or at least one, however long it is: the first digit that is
no zero brings it to one, and from then on it only grows, at last to infinity. So no directive takes
the settings out of their range, and no tune and no call does.
-/

set_option autoImplicit false

namespace Chime

open Single (AtLeast)

def Single.ZeroOrMore (x : Float32) : Prop := x = 0 ∨ AtLeast 1 x

namespace Lexeme

theorem numeral_of_zeros {digits : Bytes} (h : ∀ byte ∈ digits, byte = 0x30) :
    numeral digits = 0 := by
  induction digits using List.reverseRecOn with
  | nil => rfl
  | append_singleton digits byte ih =>
    obtain ⟨hs,hb⟩ := List.forall_mem_append.mp h
    rw [numeral_concat, ih hs, hb byte List.mem_cons_self]
    decide +kernel

theorem atLeast_digit {byte : UInt8} (h : byte ≠ 0x30) :
    AtLeast 1 (0 * 10 + (Byte.digitValue byte).toFloat32) := by
  have hz : Single.Holds (0 * 10) 0 := by
    rw [show (0 : Float32) * 10 = 0 by decide +kernel]
    exact Single.holds_zero
  have hn : (Byte.digitValue byte).toNat ≠ 0 := by
    rwa [← UInt8.toNat_zero, Ne, UInt8.toNat_inj, Byte.digitValue, sub_eq_zero]
  have hle : (Byte.digitValue byte).toNat ≤ 2 ^ 24 :=
    (Byte.digitValue byte).toNat_lt.le.trans (by decide)
  refine .inr ⟨_,?_,Single.holds_add hz (Single.holds_ofUInt8 _) ?_ ?_⟩
  all_goals rw [zero_add]
  · exact_mod_cast Nat.one_le_iff_ne_zero.mpr hn
  · exact Single.onGrid_natCast hle
  · exact Single.natCast_lt hle

/-- The first digit that is no zero brings a number to one, and from then on it only grows. -/
theorem atLeast_numeral {digits : Bytes} (h : ¬∀ byte ∈ digits, byte = 0x30) :
    AtLeast 1 (numeral digits) := by
  induction digits using List.reverseRecOn with
  | nil => exact absurd (List.forall_mem_nil _) h
  | append_singleton digits byte ih =>
    rw [numeral_concat]
    by_cases hz : ∀ digit ∈ digits, digit = 0x30
    · -- nothing but zeros before: this digit is the first that counts
      rw [numeral_of_zeros hz]
      apply atLeast_digit
      rintro rfl
      exact h (List.forall_mem_append.mpr ⟨hz,List.forall_mem_singleton.mpr rfl⟩)
    · have h10 : Single.Holds 10 (10 : Nat) := Single.holds_ofNat (by decide)
      exact ((ih hz).mul Single.onGrid_one h10 (by norm_num)).add Single.onGrid_one
        (Single.holds_ofUInt8 _)

theorem zeroOrMore_numeral (digits : Bytes) : Single.ZeroOrMore (numeral digits) := by
  by_cases h : ∀ byte ∈ digits, byte = 0x30
  · exact .inl (numeral_of_zeros h)
  · exact .inr (atLeast_numeral h)

end Lexeme

namespace Directive

def Bounded : Directive → Prop
  | .length n => Single.ZeroOrMore n
  | .tempo n => Single.ZeroOrMore n
  | _ => True

theorem zeroOrMore_control (bytes : Bytes) : Single.ZeroOrMore (control bytes).1 := by
  unfold control
  split
  · exact .inl rfl
  · split
    · exact Lexeme.zeroOrMore_numeral _
    · exact .inl rfl

theorem bounded_read (byte : UInt8) (bytes : Bytes) : (read byte bytes).1.Bounded := by
  unfold read
  split
  · trivial
  · trivial
  · split <;> trivial
  · exact zeroOrMore_control bytes
  · exact zeroOrMore_control bytes
  · trivial
  · trivial
  · trivial

end Directive

namespace Settings

structure Bounded (s : Settings) : Prop where
  tempo : Single.ZeroOrMore s.tempo
  defaultLength : AtLeast 1 s.defaultLength

theorem bounded_initial : initial.Bounded :=
  ⟨.inr (Single.atLeast_ofNat (n := 120) (by decide) (by decide)),
    Single.atLeast_ofNat (n := 4) (by decide) (by decide)⟩

theorem Bounded.apply {s : Settings} {d : Directive} (hs : s.Bounded) (hd : d.Bounded) :
    (s.apply d).Bounded := by
  cases d with
  | length n =>
    by_cases hn : (n == 0) = true
    · rwa [Settings.apply, if_pos hn]
    · rw [Settings.apply, if_neg hn]
      refine ⟨hs.tempo,hd.resolve_left ?_⟩
      rintro rfl
      exact hn rfl
  | tempo n => exact ⟨hd,hs.defaultLength⟩
  | _ => exact ⟨hs.tempo,hs.defaultLength⟩

theorem Bounded.advance {s : Settings} (hs : s.Bounded) (bytes : Bytes) :
    (advance s bytes).settings.Bounded := by
  fun_induction Chime.advance s bytes with
  | case1 => exact hs
  | case2 => exact hs
  | case3 s byte bytes read h ih => exact ih (hs.apply (Directive.bounded_read byte bytes))

end Settings

theorem Cursor.bounded_readings (n : Nat) {c : Cursor} (h : c.settings.Bounded) :
    (c.readings n).1.settings.Bounded := by
  induction n generalizing c with
  | zero => exact h
  | succ n ih => exact ih (h.advance c.rest)

namespace Playback

theorem bounded_step {p : Playback} (h : p.cursor.settings.Bounded) (c : Command) :
    (p.step c).1.cursor.settings.Bounded := by
  cases c with
  | play tune now => exact Settings.bounded_initial
  | stop => exact Settings.bounded_initial
  | update now =>
    rw [step]
    rcases p.cursor_update now with hc | hc
    · rw [hc]
      exact h
    · rw [hc]
      exact h.advance p.cursor.rest

theorem bounded_run (cs : List Command) {p : Playback} (h : p.cursor.settings.Bounded) :
    (run cs p).1.cursor.settings.Bounded := by
  induction cs generalizing p with
  | nil => exact h
  | cons c cs ih => exact ih (bounded_step h c)

end Playback

structure Settings.InRange (octave : UInt8) (tempo defaultLength : Float32) : Prop where
  octave : 1 ≤ octave ∧ octave ≤ 7
  tempo : tempo = 0 ∨ Single.OneOrMore tempo
  defaultLength : Single.OneOrMore defaultLength

theorem Settings.Bounded.inRange {s : Settings} (h : s.Bounded) :
    InRange s.octave.number s.tempo s.defaultLength :=
  ⟨⟨s.octave.low,s.octave.high⟩,h.tempo.imp_right Single.AtLeast.oneOrMore,
    h.defaultLength.oneOrMore⟩

/-- Whatever bytes a tune is made of and however many events are read from it, and whatever is
played, stopped and polled, the settings stay in range. The same holds of the numbers that guarded
playback computes with, whose octave is any byte as far as its type goes. -/
theorem settings_stay_in_range (bytes : Bytes) (n : Nat) (cs : List Command) :
    let tune := Tune.ofBytes bytes
    let read := ((Cursor.start tune).readings n).1.settings
    Settings.InRange read.octave.number read.tempo read.defaultLength ∧
    (∀ (σ : Type) (buzzer : Buzzer σ) (b : σ),
      let played := (Player.run buzzer cs (.ofBuzzer b)).1.playback.cursor.settings
      Settings.InRange played.octave.number played.tempo played.defaultLength) ∧
    (∃ r events, Guarded.Reader.readings n (.start tune) = .ok (r, events) ∧
      Settings.InRange r.octave r.tempo r.defaultLength) ∧
    ∃ p, Guarded.Player.run cs .initial = .ok p ∧
      Settings.InRange p.reader.octave p.reader.tempo p.reader.defaultLength := by
  intro tune read
  have hread : read.Bounded := Cursor.bounded_readings n Settings.bounded_initial
  have hplayed : (Playback.run cs .initial).1.cursor.settings.Bounded :=
    Playback.bounded_run cs Settings.bounded_initial
  have hr := Guarded.Reader.readings_ofCursor n (.start tune)
  have hp := Guarded.Player.run_ofPlayback cs .initial
  rw [Guarded.Reader.ofCursor_start] at hr
  rw [Guarded.Player.initial_eq] at hp
  refine ⟨hread.inRange,?_,⟨_,_,hr,hread.inRange⟩,⟨_,hp,hplayed.inRange⟩⟩
  intro σ buzzer b
  rw [Player.run_eq]
  exact hplayed.inRange

/-- A tempo of forty digits is infinite, and is in range. -/
example : Lexeme.numeral (List.replicate 40 0x39) = Single.infinity := by decide +kernel

end Chime
