import Chime.Proofs.Ending
import Chime.Proofs.Numbers
import Chime.Proofs.Progress

/-!
# Settings steer no reading

Where a cursor goes, and which letters and pauses it finds there, does not depend on the settings
that it carries. Each setting goes into one field of an event and is forgotten once the tune sets it:
two cursors of one tune agree in it if they did at the start or have read a token that sets it.
-/

set_option autoImplicit false

namespace Chime

namespace Event

def pitch? : Event → Option Pitch
  | tone note _ => some note.pitch
  | rest _ => none

def octave? : Event → Option Octave
  | tone note _ => some note.octave
  | rest _ => none

end Event

/-- One of the settings, with the tokens that set it whatever it has been. No token brings it apart
where it is the same. -/
structure Setting (α : Type) where
  get : Settings → α
  setBy : Token → Bool
  keeps : ∀ (token : Token) {s t : Settings}, get s = get t →
    get (token.settings s) = get (token.settings t)
  sets : ∀ (token : Token) {s t : Settings}, setBy token = true →
    get (token.settings s) = get (token.settings t)

namespace Setting

/-- A step down or up sets no octave: it keeps a difference, or levels it where the octaves end. -/
def octave : Setting Octave where
  get := Settings.octave
  setBy
    | .octave _ => true
    | _ => false
  keeps token s t h := by
    cases token with
    | lower => exact congrArg (fun o : Octave => Octave.clamp (o.number.toNat - 1)) h
    | raise => exact congrArg (fun o : Octave => Octave.clamp (o.number.toNat + 1)) h
    | octave o => rfl
    | length digits lost =>
      simp only [Token.settings]
      split <;> exact h
    | _ => exact h
  sets token s t h := by
    cases token with
    | octave o => rfl
    | _ => cases h

def tempo : Setting Float32 where
  get := Settings.tempo
  setBy
    | .tempo _ _ => true
    | _ => false
  keeps token s t h := by
    cases token with
    | tempo digits lost => rfl
    | length digits lost =>
      simp only [Token.settings]
      split <;> exact h
    | _ => exact h
  sets token s t h := by
    cases token with
    | tempo digits lost => rfl
    | _ => cases h

def defaultLength : Setting Float32 where
  get := Settings.defaultLength
  setBy
    | .length digits _ => Byte.decimalValue digits != 0
    | _ => false
  keeps token s t h := by
    cases token with
    | length digits lost =>
      simp only [Token.settings]
      split
      · exact h
      · rfl
    | _ => exact h
  sets token s t h := by
    cases token with
    | length digits lost =>
      have hz : Byte.decimalValue digits ≠ 0 := bne_iff_ne.mp h
      simp only [Token.settings, Token.number_beq_zero hz, Bool.false_eq_true, if_false]
    | _ => cases h

variable {α : Type} (x : Setting α)

def Settled (read : List Token) (s t : Settings) : Prop :=
  x.get s = x.get t ∨ read.any x.setBy = true

theorem get_evaluate {read : List Token} {s t : Settings} (h : x.Settled read s t) :
    x.get (Token.evaluate read s).2 = x.get (Token.evaluate read t).2 := by
  induction read generalizing s t with
  | nil =>
    exact h.resolve_right Bool.false_ne_true
  | cons token read ih =>
    rw [Token.evaluate_cons, Token.evaluate_cons]
    apply ih
    rw [Settled, List.any_cons, Bool.or_eq_true, ← or_assoc] at h
    exact h.imp_left fun h => h.elim (x.keeps token) (x.sets token)

end Setting

namespace Token

/-- The tokens up to the `n`-th note or pause, or all of them if there are fewer. -/
def upTo : Nat → List Token → List Token
  | 0, _ => []
  | _ + 1, [] => []
  | n + 1, token :: tokens =>
    token :: upTo (if token.operand?.isSome then n else n + 1) tokens

theorem upTo_nil (n : Nat) : upTo n [] = [] := by
  cases n <;> rfl

theorem upTo_of_none {token : Token} (h : token.operand? = none) (n : Nat)
    (tokens : List Token) : upTo (n + 1) (token :: tokens) = token :: upTo (n + 1) tokens := by
  rw [upTo, h]
  rfl

theorem upTo_of_some {token : Token} {operand : Bytes × Bool} (h : token.operand? = some operand)
    (n : Nat) (tokens : List Token) : upTo (n + 1) (token :: tokens) = token :: upTo n tokens := by
  rw [upTo, h]
  rfl

theorem evaluate_upTo_of_stops {left after : Bytes} (h : Stops left after) (n : Nat)
    (s : Settings) : evaluate (upTo n (cut left)) s = evaluate (upTo n (cut after)) s := by
  rcases h with rfl | ⟨byte,hb,rfl⟩
  · rfl
  · cases n with
    | zero => simp only [upTo]
    | succ n =>
      rw [cut_of_nothing hb, upTo_of_none rfl, evaluate_cons]
      rfl

theorem filterMap_operand?_of_stops {left after : Bytes} (h : Stops left after) :
    (cut left).filterMap operand? = (cut after).filterMap operand? := by
  rcases h with rfl | ⟨byte,hb,rfl⟩
  · rfl
  · rw [cut_of_nothing hb, List.filterMap_cons_none rfl]

theorem evaluate_upTo_advance (n : Nat) (s : Settings) (bytes : Bytes) :
    (evaluate (upTo (n + 1) (cut bytes)) s).2 =
      (evaluate (upTo n (cut (advance s bytes).rest)) (advance s bytes).settings).2 := by
  fun_induction advance s bytes with
  | case1 s => rw [cut_nil, upTo_nil, upTo_nil]
  | case2 s byte bytes read event h =>
    obtain ⟨hd,hs⟩ := read_first byte bytes
    have hm := map_millis_read s byte bytes
    have ha := Settings.apply_of_event? h
    simp only [read] at h ha ⊢
    rw [h] at hm
    rw [hd, apply_directive] at ha
    obtain ⟨operand,ho,_⟩ := Option.map_eq_some_iff.mp hm.symm
    rw [cut_cons, upTo_of_some ho, evaluate_cons, ha, evaluate_upTo_of_stops hs]
  | case3 s byte bytes read h ih =>
    obtain ⟨hd,hs⟩ := read_first byte bytes
    have hm := map_millis_read s byte bytes
    simp only [read] at h ih ⊢
    rw [h] at hm
    rw [cut_cons, upTo_of_none (Option.map_eq_none_iff.mp hm.symm), evaluate_cons, ← ih, hd,
      apply_directive, evaluate_upTo_of_stops hs]

theorem operands_advance (s : Settings) (bytes : Bytes) :
    let operands := (cut bytes).filterMap operand?
    let passage := advance s bytes
    passage.event?.map Event.millis =
        operands.head?.map (fun operand => duration passage.settings operand.1 operand.2) ∧
      (cut passage.rest).filterMap operand? = operands.tail := by
  fun_induction advance s bytes with
  | case1 s => simp [cut_nil]
  | case2 s byte bytes read event h =>
    have hm := map_millis_read s byte bytes
    simp only [read] at h ⊢
    rw [h] at hm
    obtain ⟨operand,ho,hd⟩ := Option.map_eq_some_iff.mp hm.symm
    rw [cut_cons, List.filterMap_cons_some ho,
      filterMap_operand?_of_stops (read_first byte bytes).2]
    exact ⟨congrArg some hd.symm,rfl⟩
  | case3 s byte bytes read h ih =>
    have hm := map_millis_read s byte bytes
    simp only [read] at h ih ⊢
    rw [h] at hm
    rw [cut_cons, List.filterMap_cons_none (Option.map_eq_none_iff.mp hm.symm),
      ← filterMap_operand?_of_stops (read_first byte bytes).2]
    exact ih

end Token

theorem Settings.pitch?_event? (s t : Settings) (d : Directive) :
    (s.event? d).map Event.pitch? = (t.event? d).map Event.pitch? := by
  cases d <;> simp only [event?, Option.map_some, Option.map_none, Event.pitch?]

theorem advance_alike (s t : Settings) (bytes : Bytes) :
    (advance s bytes).rest = (advance t bytes).rest ∧
      (advance s bytes).event?.map Event.pitch? = (advance t bytes).event?.map Event.pitch? := by
  fun_induction advance s bytes generalizing t with
  | case1 s => simp only [advance_nil, Option.map_none, and_self]
  | case2 s byte bytes read event h =>
    have hp := s.pitch?_event? t read.1
    rw [h] at hp
    obtain ⟨e,he,hpe⟩ := Option.map_eq_some_iff.mp hp.symm
    rw [advance_of_event? he]
    exact ⟨rfl,congrArg some hpe.symm⟩
  | case3 s byte bytes read h ih =>
    have hp := s.pitch?_event? t read.1
    rw [h] at hp
    rw [advance_of_control (Option.map_eq_none_iff.mp hp.symm)]
    exact ih _

theorem octave?_advance (s : Settings) (bytes : Bytes) :
    (advance s bytes).event?.map Event.octave? =
      ((advance s bytes).event?.map Event.pitch?).map
        (Option.map fun _ => (advance s bytes).settings.octave) := by
  fun_induction advance s bytes with
  | case1 s => rfl
  | case2 s byte bytes read event h =>
    cases hr : read.1 with
    | pause operand | note pitch operand =>
      rw [hr] at h
      cases h
      rfl
    | _ =>
      rw [hr] at h
      cases h
  | case3 s byte bytes read h ih => exact ih

namespace Cursor

variable (c : Cursor) (n : Nat)

theorem readings_succ : (c.readings (n + 1)).1 = (c.readings n).1.next.2 := by
  induction n generalizing c with
  | zero => rfl
  | succ n ih => exact ih c.next.2

theorem rest_readings {d : Cursor} (h : c.rest = d.rest) :
    (c.readings n).1.rest = (d.readings n).1.rest := by
  induction n generalizing c d with
  | zero => exact h
  | succ n ih =>
    apply ih
    rw [rest_next, rest_next, h]
    exact (advance_alike c.settings d.settings d.rest).1

theorem position_readings {d : Cursor} (ht : c.tune = d.tune) (h : c.rest = d.rest) :
    (c.readings n).1.position = (d.readings n).1.position := by
  rw [position, position, tune_readings, tune_readings, ht, c.rest_readings n h]

theorem pitch?_next_readings {d : Cursor} (h : c.rest = d.rest) :
    (c.readings n).1.next.1.map Event.pitch? = (d.readings n).1.next.1.map Event.pitch? := by
  rw [next_fst, next_fst, c.rest_readings n h]
  exact (advance_alike _ _ _).2

theorem octave?_next : c.next.1.map Event.octave? =
    (c.next.1.map Event.pitch?).map (Option.map fun _ => c.next.2.settings.octave) :=
  octave?_advance c.settings c.rest

theorem settings_readings :
    (c.readings n).1.settings = (Token.evaluate (Token.upTo n (Token.cut c.rest)) c.settings).2 := by
  induction n generalizing c with
  | zero => simp only [readings, Token.upTo, Token.evaluate]
  | succ n ih =>
    rw [Token.evaluate_upTo_advance]
    exact ih c.next.2

theorem operands_readings :
    (Token.cut (c.readings n).1.rest).filterMap Token.operand? =
      ((Token.cut c.rest).filterMap Token.operand?).drop n := by
  induction n generalizing c with
  | zero => rfl
  | succ n ih =>
    rw [← List.drop_tail, ← (Token.operands_advance c.settings c.rest).2]
    exact ih c.next.2

theorem settings_next_readings :
    (c.readings n).1.next.2.settings =
      (Token.evaluate (Token.upTo (n + 1) (Token.cut c.rest)) c.settings).2 := by
  rw [← readings_succ, settings_readings]

theorem millis_next_readings :
    (c.readings n).1.next.1.map Event.millis =
      (((Token.cut c.rest).filterMap Token.operand?)[n]?).map fun operand =>
        Token.duration (c.readings n).1.next.2.settings operand.1 operand.2 := by
  have hm := (Token.operands_advance (c.readings n).1.settings (c.readings n).1.rest).1
  rw [operands_readings, List.head?_drop] at hm
  exact hm

end Cursor

theorem Token.duration_congr {s t : Settings} {digits : Bytes} (dotted : Bool)
    (ht : s.tempo = t.tempo)
    (hd : Byte.decimalValue digits ≠ 0 ∨ s.defaultLength = t.defaultLength) :
    duration s digits dotted = duration t digits dotted := by
  rcases hd with hd | hd
  · simp only [duration, number_beq_zero hd, Bool.false_eq_true, if_false, ht]
  · rw [duration, duration, ht, hd]

/-- Two cursors at one position of a tune, with whatever settings, take the same course: reading by
reading they come to the same positions, letters, signs and pauses. They agree in a setting as soon
as they agreed in it at the start or have read a token that sets it, and then in what an event takes
of it: the octave, and the length, for which the default counts only where none is written. -/
theorem settings_never_steer (bytes : Bytes) (position n : Nat) (s t : Settings) :
    let tune := Tune.ofBytes bytes
    let a := ((Cursor.ofPosition tune position s).readings n).1.next
    let b := ((Cursor.ofPosition tune position t).readings n).1.next
    let tokens := Token.cut (tune.bytes.drop position)
    let read := Token.upTo (n + 1) tokens
    a.2.position = b.2.position ∧
    a.1.map Event.pitch? = b.1.map Event.pitch? ∧
    (Setting.octave.Settled read s t →
      a.2.settings.octave = b.2.settings.octave ∧
        a.1.map Event.octave? = b.1.map Event.octave?) ∧
    (Setting.tempo.Settled read s t → a.2.settings.tempo = b.2.settings.tempo) ∧
    (Setting.defaultLength.Settled read s t →
      a.2.settings.defaultLength = b.2.settings.defaultLength) ∧
    (Setting.tempo.Settled read s t →
      (∃ digits dotted, (tokens.filterMap Token.operand?)[n]? = some (digits, dotted) ∧
        Byte.decimalValue digits ≠ 0) ∨ Setting.defaultLength.Settled read s t →
      a.1.map Event.millis = b.1.map Event.millis) := by
  intro tune a b tokens read
  let c := Cursor.ofPosition tune position s
  let d := Cursor.ofPosition tune position t
  have hposition : a.2.position = b.2.position := by
    have hp := c.position_readings (n + 1) (d := d) rfl rfl
    rwa [Cursor.readings_succ, Cursor.readings_succ] at hp
  have hpitch : a.1.map Event.pitch? = b.1.map Event.pitch? := c.pitch?_next_readings n rfl
  have hsettled {α : Type} (x : Setting α) (h : x.Settled read s t) :
      x.get a.2.settings = x.get b.2.settings := by
    have ha : a.2.settings = (Token.evaluate read s).2 := c.settings_next_readings n
    have hb : b.2.settings = (Token.evaluate read t).2 := d.settings_next_readings n
    rw [ha, hb]
    exact x.get_evaluate h
  refine ⟨hposition,hpitch,fun ho => ?_,hsettled .tempo,hsettled .defaultLength,fun ht hl => ?_⟩
  · have hoctave : a.2.settings.octave = b.2.settings.octave := hsettled .octave ho
    have hea : a.1.map Event.octave? = _ := (c.readings n).1.octave?_next
    have heb : b.1.map Event.octave? = _ := (d.readings n).1.octave?_next
    refine ⟨hoctave,?_⟩
    rw [hea, heb, hpitch, hoctave]
  · have hma : a.1.map Event.millis = _ := c.millis_next_readings n
    have hmb : b.1.map Event.millis = _ := d.millis_next_readings n
    rw [hma, hmb]
    apply Option.map_congr
    intro operand hmem
    apply Token.duration_congr _ (hsettled .tempo ht)
    rcases hl with ⟨digits,dotted,hw,hz⟩ | hl
    · cases hw.symm.trans hmem
      exact .inl hz
    · exact .inr (hsettled .defaultLength hl)

/-- In `CT60O3L8D` the second note is the same even for a cursor that starts with no number for its
tempo and its length. -/
theorem settings_never_steer_once_the_tune_has_set_them :
    let tune : Tune := .ofBytes [0x43, 0x54, 0x36, 0x30, 0x4f, 0x33, 0x4c, 0x38, 0x44]
    let a := ((Cursor.ofPosition tune 0 .initial).readings 1).1.next
    let b := ((Cursor.ofPosition tune 0 ⟨0 / 0, .highest, 0 / 0⟩).readings 1).1.next
    a.1 = some (.tone ⟨⟨.d, .natural⟩, ⟨3, by decide, by decide⟩⟩ 500) ∧
      a.1.map Event.octave? = b.1.map Event.octave? ∧
      a.1.map Event.millis = b.1.map Event.millis ∧
      a.2.settings.defaultLength = b.2.settings.defaultLength := by
  intro tune a b
  have ha : a.1 = some (.tone ⟨⟨.d, .natural⟩, ⟨3, by decide, by decide⟩⟩ 500) := by
    decide +kernel
  obtain ⟨_,_,hoctave,_,hlength,hmillis⟩ := settings_never_steer
    [0x43, 0x54, 0x36, 0x30, 0x4f, 0x33, 0x4c, 0x38, 0x44] 0 1 .initial ⟨0 / 0, .highest, 0 / 0⟩
  have ho := (hoctave (.inr (by decide +kernel))).2
  have hl := hlength (.inr (by decide +kernel))
  have hm := hmillis (.inr (by decide +kernel)) (.inr (.inr (by decide +kernel)))
  exact ⟨ha,ho,hm,hl⟩

end Chime
