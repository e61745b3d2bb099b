import Chime.Proofs.Forgetting
import Chime.Proofs.Joining
import Chime.Proofs.Progress

/-!
# Bytes that say nothing

Where one insignificant byte is put for another, every reader takes as many bytes as before and
reads the same from them: a byte is asked only whether it opens something, is a digit, a sign or a
dot. So the respelled tune is the same tune to a cursor and to a player, byte after byte.
-/

set_option autoImplicit false

namespace Chime

structure Respelling where
  map : UInt8 → UInt8
  kept : ∀ byte, byte = 0 ∨ Byte.isSignificant byte = true → map byte = byte
  blank : ∀ byte, byte ≠ 0 → Byte.isSignificant byte = false →
    map byte ≠ 0 ∧ Byte.isSignificant (map byte) = false

namespace Respelling

def spaces : Respelling where
  map byte := if byte = 0 ∨ Byte.isSignificant byte = true then byte else 0x20
  kept _ h := if_pos h
  blank byte h0 hs := by
    have hn : ¬(byte = 0 ∨ Byte.isSignificant byte = true) := by simp [h0, hs]
    rw [if_neg hn]
    decide

def same : Respelling := ⟨id, fun _ _ => rfl, fun _ h0 hs => ⟨h0, hs⟩⟩

variable (f : Respelling)

theorem map_eq_iff {b : UInt8} (hb : b = 0 ∨ Byte.isSignificant b = true) (byte : UInt8) :
    f.map byte = b ↔ byte = b := by
  by_cases hk : byte = 0 ∨ Byte.isSignificant byte = true
  · rw [f.kept byte hk]
  · obtain ⟨h0,hs⟩ := not_or.mp hk
    obtain ⟨hm,hms⟩ := f.blank byte h0 (eq_false_of_ne_true hs)
    constructor
    · rintro rfl
      exact absurd hb (by simp [hm, hms])
    · rintro rfl
      exact absurd hb hk

theorem test_map {test : UInt8 → Bool}
    (h : ∀ byte, test byte = true → Byte.isSignificant byte = true) (byte : UInt8) :
    test (f.map byte) = test byte := by
  rw [Bool.eq_iff_iff]
  constructor
  · intro ht
    rwa [← (f.map_eq_iff (.inr (h _ ht)) byte).mp rfl] at ht
  · intro ht
    rwa [f.kept byte (.inr (h byte ht))]

theorem isSignificant_of_isDigit (byte : UInt8) (h : Byte.isDigit byte = true) :
    Byte.isSignificant byte = true := by
  simp [Byte.isSignificant, h]

theorem isDigit_map (byte : UInt8) : Byte.isDigit (f.map byte) = Byte.isDigit byte :=
  f.test_map isSignificant_of_isDigit byte

theorem map_of_isDigit {byte : UInt8} (h : Byte.isDigit byte = true) : f.map byte = byte :=
  f.kept byte (.inr (isSignificant_of_isDigit byte h))

theorem ofByte_map (byte : UInt8) : Opening.ofByte (f.map byte) = Opening.ofByte byte := by
  by_cases hk : byte = 0 ∨ Byte.isSignificant byte = true
  · rw [f.kept byte hk]
  · obtain ⟨h0,hs⟩ := not_or.mp hk
    have hb := eq_false_of_ne_true hs
    rw [Opening.ofByte_of_not_isSignificant hb,
      Opening.ofByte_of_not_isSignificant (f.blank byte h0 hb).2]

def respell (bytes : Bytes) : Bytes := bytes.map f.map

@[simp] theorem respell_nil : f.respell [] = [] := rfl

@[simp] theorem respell_cons (byte : UInt8) (bytes : Bytes) :
    f.respell (byte :: bytes) = f.map byte :: f.respell bytes := rfl

theorem takeWhile_respell (bytes : Bytes) :
    (f.respell bytes).takeWhile Byte.isDigit = bytes.takeWhile Byte.isDigit := by
  induction bytes with
  | nil => rfl
  | cons byte bytes ih =>
    rw [respell_cons, List.takeWhile_cons, List.takeWhile_cons, f.isDigit_map]
    by_cases hd : Byte.isDigit byte = true
    · rw [if_pos hd, if_pos hd, f.map_of_isDigit hd, ih]
    · rw [if_neg hd, if_neg hd]

theorem number_respell (bytes : Bytes) :
    Lexeme.number (f.respell bytes) =
      ((Lexeme.number bytes).1, f.respell (Lexeme.number bytes).2) := by
  have hd : Byte.isDigit ∘ f.map = Byte.isDigit := funext f.isDigit_map
  have hw : (f.respell bytes).dropWhile Byte.isDigit =
      f.respell (bytes.dropWhile Byte.isDigit) := by
    rw [respell, List.dropWhile_map, hd]
    rfl
  rw [Lexeme.number, takeWhile_respell, hw]
  rfl

theorem octave_respell (bytes : Bytes) :
    Lexeme.octave (f.respell bytes) =
      match Lexeme.octave bytes with
      | .ok (o, rest) => .ok (o, f.respell rest)
      | .error e => .error ⟨e.cause, f.respell e.rest⟩ := by
  cases bytes with
  | nil => rfl
  | cons byte rest =>
    by_cases hd : Byte.isDigit byte = true
    · simp only [respell_cons, Lexeme.octave, if_pos hd, f.map_of_isDigit hd]
      cases Octave.ofNumber (Byte.digitValue byte) <;> simp [f.map_of_isDigit hd]
    · simp [Lexeme.octave, f.isDigit_map, hd]

theorem dotted_respell (bytes : Bytes) :
    Lexeme.dotted (f.respell bytes) =
      ((Lexeme.dotted bytes).1, f.respell (Lexeme.dotted bytes).2) := by
  cases bytes with
  | nil => rfl
  | cons byte rest =>
    have hdot := f.map_eq_iff (b := Byte.dot) (by decide) byte
    simp only [respell_cons, Lexeme.dotted, hdot]
    split <;> rfl

theorem accidental_respell (bytes : Bytes) :
    Lexeme.accidental (f.respell bytes) =
      ((Lexeme.accidental bytes).1, f.respell (Lexeme.accidental bytes).2) := by
  cases bytes with
  | nil => rfl
  | cons byte rest =>
    have hm := f.map_eq_iff (b := Byte.minus) (by decide) byte
    have hp := f.map_eq_iff (b := Byte.plus) (by decide) byte
    simp only [respell_cons, Lexeme.accidental, hm, hp]
    split
    · rfl
    · split <;> rfl

theorem length_respell (bytes : Bytes) :
    Lexeme.length (f.respell bytes) =
      ((Lexeme.length bytes).1, f.respell (Lexeme.length bytes).2) := by
  simp only [Lexeme.length, number_respell, dotted_respell]

theorem control_respell (bytes : Bytes) :
    Directive.control (f.respell bytes) =
      ((Directive.control bytes).1, f.respell (Directive.control bytes).2) := by
  cases bytes with
  | nil => rfl
  | cons byte rest =>
    have hn := f.number_respell (byte :: rest)
    rw [respell_cons] at hn
    simp only [respell_cons, Directive.control, f.isDigit_map, hn]
    split <;> rfl

theorem operand_respell (bytes : Bytes) :
    Directive.operand (f.respell bytes) =
      ((Directive.operand bytes).1, f.respell (Directive.operand bytes).2) := by
  simp only [Directive.operand, length_respell, takeWhile_respell]
  split
  · rfl
  · simp only [respell, List.map_drop]

theorem read_respell (byte : UInt8) (bytes : Bytes) :
    Directive.read (f.map byte) (f.respell bytes) =
      ((Directive.read byte bytes).1, f.respell (Directive.read byte bytes).2) := by
  simp only [Directive.read, ofByte_map]
  cases Opening.ofByte byte with
  | octave =>
    simp only [octave_respell]
    cases Lexeme.octave bytes <;> rfl
  | length => simp only [control_respell]
  | tempo => simp only [control_respell]
  | pause => simp only [operand_respell]
  | letter l => simp only [accidental_respell, operand_respell]
  | _ => rfl

theorem advance_respell (s : Settings) (bytes : Bytes) :
    advance s (f.respell bytes) =
      ⟨(advance s bytes).event?, (advance s bytes).settings,
        f.respell (advance s bytes).rest⟩ := by
  fun_induction advance s bytes with
  | case1 s => exact advance_nil s
  | case2 s byte bytes read event h =>
    have hr := f.read_respell byte bytes
    have he : s.event? (Directive.read (f.map byte) (f.respell bytes)).1 = some event := by
      rw [hr]
      exact h
    rw [respell_cons, advance_of_event? he]
    exact congrArg _ (congrArg Prod.snd hr)
  | case3 s byte bytes read h ih =>
    have hr := f.read_respell byte bytes
    have he : s.event? (Directive.read (f.map byte) (f.respell bytes)).1 = none := by
      rw [hr]
      exact h
    rw [respell_cons, advance_of_control he, ← ih]
    exact congrArg (fun r : Directive × Bytes => advance (s.apply r.1) r.2) hr

end Respelling

namespace Tune

def respell (f : Respelling) (tune : Tune) : Tune where
  bytes := f.respell tune.bytes
  nulFree byte h := by
    obtain ⟨b,hb,rfl⟩ := List.mem_map.mp h
    exact mt (f.map_eq_iff (.inl rfl) b).mp (tune.nulFree b hb)

theorem ofBytes_respell {f : Respelling} {t u : Bytes}
    (h : u = f.respell (t.takeWhile (· != 0)) ∨
      ∃ junk, u = f.respell (t.takeWhile (· != 0)) ++ 0 :: junk) :
    ofBytes u = (ofBytes t).respell f := by
  rcases h with rfl | ⟨junk,rfl⟩
  · exact ((ofBytes t).respell f).ofBytes_bytes
  · exact ((ofBytes t).respell f).ofBytes_append_zero junk

theorem length_respell (f : Respelling) (tune : Tune) : (tune.respell f).length = tune.length :=
  List.length_map f.map

end Tune

namespace Cursor

def respell (f : Respelling) (c : Cursor) : Cursor :=
  ⟨c.tune.respell f, c.settings, f.respell c.rest, c.suffix.map f.map⟩

variable (f : Respelling) (c : Cursor)

theorem settings_respell : (c.respell f).settings = c.settings := rfl

theorem position_respell : (c.respell f).position = c.position :=
  congrArg₂ (· - ·) (c.tune.length_respell f) (List.length_map f.map)

theorem isPlaying_respell : (c.respell f).isPlaying = c.isPlaying :=
  congrArg (! ·) List.isEmpty_map

theorem next_respell : (c.respell f).next = (c.next.1, c.next.2.respell f) := by
  have ha : advance (c.respell f).settings (c.respell f).rest = _ :=
    f.advance_respell c.settings c.rest
  apply Prod.ext
  · rw [next_fst, ha]
    rfl
  · apply Cursor.ext
    · rfl
    · rw [settings_next, ha]
      rfl
    · rw [rest_next, ha]
      rfl

theorem readings_respell (n : Nat) :
    (c.respell f).readings n = ((c.readings n).1.respell f, (c.readings n).2) := by
  induction n generalizing c with
  | zero => rfl
  | succ n ih => rw [readings, next_respell, ih, readings]

end Cursor

namespace Playback

def Alike (p q : Playback) : Prop :=
  ∃ f : Respelling, q = ⟨p.cursor.respell f, p.deadline⟩

theorem alike_refl (p : Playback) : p.Alike p := by
  have hb : ∀ bytes, Respelling.same.respell bytes = bytes := List.map_id
  have hc : p.cursor.respell .same = p.cursor :=
    Cursor.ext (Tune.ext (hb _)) rfl (hb _)
  exact ⟨.same,by rw [hc]⟩

theorem Alike.update {p q : Playback} (h : p.Alike q) (now : Instant) :
    (p.update now).1.Alike (q.update now).1 ∧ (q.update now).2 = (p.update now).2 := by
  obtain ⟨f,rfl⟩ := h
  have hd : isDue ⟨p.cursor.respell f, p.deadline⟩ now = p.isDue now := by
    simp only [isDue, isPlaying, Cursor.isPlaying_respell]
  have hn := p.cursor.next_respell f
  rcases p.update_cases now with ⟨h0,hu⟩ | ⟨event,behind,h1,hc,hu⟩ | ⟨behind,h1,hc,hu⟩
  · rw [hu, update_of_not_isDue (hd.trans h0)]
    exact ⟨⟨f,rfl⟩,rfl⟩
  · rw [hc] at hn
    rw [hu, update_of_isDue (hd.trans h1), take_of_some hn]
    exact ⟨⟨f,rfl⟩,rfl⟩
  · rw [hc] at hn
    rw [hu, update_of_isDue (hd.trans h1), take_of_none hn]
    exact ⟨⟨f,rfl⟩,rfl⟩

theorem Alike.stop {p q : Playback} (h : p.Alike q) :
    p.stop.1.Alike q.stop.1 ∧ q.stop.2 = p.stop.2 := by
  obtain ⟨f,rfl⟩ := h
  refine ⟨alike_refl _,?_⟩
  rw [Playback.stop, Playback.stop, isPlaying, isPlaying, Cursor.isPlaying_respell,
    Cursor.position_respell]

theorem Alike.step {p q : Playback} (h : p.Alike q) (c : Command) :
    (p.step c).1.Alike (q.step c).1 ∧ (q.step c).2 = (p.step c).2 := by
  cases c with
  | play tune now => exact ⟨alike_refl _,rfl⟩
  | stop => exact h.stop
  | update now => exact h.update now

theorem alike_play (f : Respelling) (tune : Tune) (now : Instant) :
    (play tune now).1.Alike (play (tune.respell f) now).1 ∧
      (play (tune.respell f) now).2 = (play tune now).2 := by
  refine ⟨⟨f,rfl⟩,?_⟩
  rw [play, Tune.length_respell]
  rfl

theorem observe_of_alike {p q : Playback} {c d : Command}
    (h : (p.step c).1.Alike (q.step d).1) (ha : (q.step d).2 = (p.step c).2) :
    q.observe d = p.observe c := by
  obtain ⟨f,hq⟩ := h
  simp only [observe, ha, hq, isPlaying, Cursor.isPlaying_respell, Cursor.position_respell,
    Cursor.settings_respell]

end Playback

theorem Player.observations_alike {σ : Type} (buzzer : Buzzer σ) (cs : List Command)
    {p q : Player σ} (h : p.playback.Alike q.playback) :
    q.observations buzzer cs = p.observations buzzer cs := by
  induction cs generalizing p q with
  | nil => rfl
  | cons c cs ih =>
    obtain ⟨hs,ha⟩ := h.step c
    have hi := ih (p := (p.step buzzer c).1) (q := (q.step buzzer c).1) hs
    rw [observations, observations, observe_eq, observe_eq, Playback.observe_of_alike hs ha, hi]

/-- If the insignificant bytes of a tune are put for others, and all that follows its first NUL for
anything, then every reading comes to the same event, position and settings, and a player that gets
the one tune shows what it shows with the other: the same messages and the same calls of its buzzer
at the same updates. -/
theorem insignificant_bytes_say_nothing (f : Respelling) (t u : Bytes)
    (h : u = f.respell (t.takeWhile (· != 0)) ∨
      ∃ junk, u = f.respell (t.takeWhile (· != 0)) ++ 0 :: junk) :
    (∀ n : Nat,
      let a := (Cursor.start (.ofBytes t)).readings n
      let b := (Cursor.start (.ofBytes u)).readings n
      b.2 = a.2 ∧ b.1.position = a.1.position ∧ b.1.settings = a.1.settings ∧
        b.1.isPlaying = a.1.isPlaying) ∧
    ∀ (σ : Type) (buzzer : Buzzer σ) (p : Player σ) (now : Instant) (cs : List Command),
      p.observations buzzer (.play (.ofBytes u) now :: cs) =
        p.observations buzzer (.play (.ofBytes t) now :: cs) := by
  rw [Tune.ofBytes_respell h]
  constructor
  · intro n a b
    have hb : b = (a.1.respell f, a.2) := (Cursor.start (.ofBytes t)).readings_respell f n
    rw [hb]
    exact ⟨rfl,a.1.position_respell f,rfl,a.1.isPlaying_respell f⟩
  · intro σ buzzer p now cs
    let c : Command := .play (.ofBytes t) now
    let d : Command := .play ((Tune.ofBytes t).respell f) now
    obtain ⟨hs,ha⟩ : (p.playback.step c).1.Alike (p.playback.step d).1 ∧
        (p.playback.step d).2 = (p.playback.step c).2 :=
      Playback.alike_play f (.ofBytes t) now
    have ho := Player.observations_alike buzzer cs (p := (p.step buzzer c).1)
      (q := (p.step buzzer d).1) hs
    rw [Player.observations, Player.observations, Player.observe_eq, Player.observe_eq, ho,
      Playback.observe_of_alike hs ha]

/-- With spaces put for its small letters `LxC4y` is read as before, and what is behind the NUL is
not read: the note has the length that was set at the start, since the `L` has lost the first
small letter. -/
theorem insignificant_bytes_say_nothing_behind_a_bare_length :
    let t : Bytes := [0x4c, 0x78, 0x43, 0x79, 0x00, 0x44]
    let u : Bytes := [0x4c, 0x20, 0x43, 0x20, 0x00, 0xff]
    u = Respelling.spaces.respell (t.takeWhile (· != 0)) ++ 0 :: [0xff] ∧
      ((Cursor.start (.ofBytes u)).readings 2).2 =
        [some (.tone ⟨⟨.c, .natural⟩, .middle⟩ 500), none] := by
  intro t u
  have h : u = Respelling.spaces.respell (t.takeWhile (· != 0)) ++ 0 :: [0xff] := by decide
  obtain ⟨hr,_⟩ := insignificant_bytes_say_nothing .spaces t u (.inr ⟨_,h⟩)
  exact ⟨h,(hr 2).1.trans (by decide +kernel)⟩

end Chime
