import Chime.Event
import Chime.Tune

/-!
# Cursors

A cursor reads a tune from its first byte to its last and carries the settings along. `advance`
obeys control directives until a note or a pause makes an event. Main statements: an event moves
the cursor forward, and only the end of the tune yields none.
-/

set_option autoImplicit false

namespace Chime

structure Passage where
  event? : Option Event
  settings : Settings
  rest : Bytes
  deriving DecidableEq

def advance (s : Settings) : Bytes → Passage
  | [] => ⟨none, s, []⟩
  | byte :: bytes =>
    let read := Directive.read byte bytes
    match s.event? read.1 with
    | some event => ⟨some event, s, read.2⟩
    | none => advance (s.apply read.1) read.2
termination_by bytes => bytes.length
decreasing_by exact Directive.length_read_lt byte bytes

theorem advance_nil (s : Settings) : advance s [] = ⟨none, s, []⟩ := by
  rw [advance]

theorem advance_of_event? {s : Settings} {byte : UInt8} {bytes : Bytes} {event : Event}
    (h : s.event? (Directive.read byte bytes).1 = some event) :
    advance s (byte :: bytes) = ⟨some event, s, (Directive.read byte bytes).2⟩ := by
  rw [advance]; simp only [h]

theorem advance_of_control {s : Settings} {byte : UInt8} {bytes : Bytes}
    (h : s.event? (Directive.read byte bytes).1 = none) :
    advance s (byte :: bytes) =
      advance (s.apply (Directive.read byte bytes).1) (Directive.read byte bytes).2 := by
  rw [advance]; simp only [h]

theorem advance_suffix (s : Settings) (bytes : Bytes) : (advance s bytes).rest <:+ bytes := by
  fun_induction advance s bytes with
  | case1 => exact List.suffix_rfl
  | case2 s byte bytes read event h =>
    exact (Directive.read_suffix byte bytes).trans (List.suffix_cons byte bytes)
  | case3 s byte bytes read h ih =>
    exact ih.trans ((Directive.read_suffix byte bytes).trans (List.suffix_cons byte bytes))

theorem length_advance_lt {s : Settings} {bytes : Bytes} {event : Event}
    (h : (advance s bytes).event? = some event) :
    (advance s bytes).rest.length < bytes.length := by
  fun_induction advance s bytes with
  | case1 => cases h
  | case2 s byte bytes => exact Directive.length_read_lt byte bytes
  | case3 s byte bytes read _ ih => exact Nat.lt_trans (ih h) (Directive.length_read_lt byte bytes)

theorem rest_advance_of_none {s : Settings} {bytes : Bytes}
    (h : (advance s bytes).event? = none) : (advance s bytes).rest = [] := by
  fun_induction advance s bytes with
  | case1 => rfl
  | case2 => cases h
  | case3 s byte bytes read _ ih => exact ih h

structure Cursor where
  tune : Tune
  settings : Settings
  rest : Bytes
  suffix : rest <:+ tune.bytes

namespace Cursor

@[ext] theorem ext {a b : Cursor} (ht : a.tune = b.tune) (hs : a.settings = b.settings)
    (hr : a.rest = b.rest) : a = b := by
  cases a; cases b; cases ht; cases hs; cases hr; rfl

def start (tune : Tune) : Cursor := ⟨tune, .initial, tune.bytes, List.suffix_rfl⟩

def ofPosition (tune : Tune) (position : Nat) (s : Settings) : Cursor :=
  ⟨tune, s, tune.bytes.drop position, List.drop_suffix _ _⟩

def position (c : Cursor) : Nat := c.tune.length - c.rest.length

theorem position_le (c : Cursor) : c.position ≤ c.tune.length := Nat.sub_le _ _

theorem rest_eq_drop (c : Cursor) : c.rest = c.tune.bytes.drop c.position := by
  obtain ⟨read, h⟩ := c.suffix
  simp [position, Tune.length, ← h]

theorem position_ofPosition {tune : Tune} {position : Nat} (s : Settings)
    (h : position ≤ tune.length) :
    (ofPosition tune position s).position = position := by
  simp only [Cursor.position, ofPosition, List.length_drop, Tune.length] at h ⊢
  omega

/-- Whether the end of the tune is still ahead. After a length with digits that holds even for the
last directive, whose last byte is left standing. -/
def isPlaying (c : Cursor) : Bool := !c.rest.isEmpty

theorem isPlaying_iff (c : Cursor) : c.isPlaying = true ↔ c.position < c.tune.length := by
  have h := c.suffix.length_le
  cases hr : c.rest with
  | nil => simp [isPlaying, position, hr]
  | cons b bs =>
    simp only [hr, List.length_cons] at h
    simp only [isPlaying, position, Tune.length, hr, List.isEmpty_cons, List.length_cons]
    simp; omega

def next (c : Cursor) : Option Event × Cursor :=
  let p := advance c.settings c.rest
  (p.event?, ⟨c.tune, p.settings, p.rest, (advance_suffix _ _).trans c.suffix⟩)

theorem length_rest_lt {c behind : Cursor} {event : Event} (h : c.next = (some event, behind)) :
    behind.rest.length < c.rest.length := by
  have h1 : (advance c.settings c.rest).event? = some event := congrArg Prod.fst h
  have h2 : behind = c.next.2 := (congrArg Prod.snd h).symm
  rw [h2]
  exact length_advance_lt h1

theorem position_next_lt {c : Cursor} {event : Event} (h : c.next.1 = some event) :
    c.position < c.next.2.position := by
  have h1 := length_advance_lt h
  have h2 := c.suffix.length_le
  have h3 : c.next.2.position = c.tune.bytes.length - (advance c.settings c.rest).rest.length := rfl
  rw [h3]
  simp only [position, Tune.length]
  omega

theorem position_next_of_none {c : Cursor} (h : c.next.1 = none) :
    c.next.2.position = c.tune.length := by
  have h3 : c.next.2.position = c.tune.length - (advance c.settings c.rest).rest.length := rfl
  rw [h3, rest_advance_of_none h]
  rfl

def drain (c : Cursor) : List (Event × Cursor) :=
  match _ : c.next with
  | (some event, behind) => (event, behind) :: behind.drain
  | (none, _) => []
termination_by c.rest.length
decreasing_by
  next h => exact length_rest_lt h

def finish (c : Cursor) : Cursor :=
  match _ : c.next with
  | (some _, behind) => behind.finish
  | (none, behind) => behind
termination_by c.rest.length
decreasing_by
  next h => exact length_rest_lt h

theorem drain_of_some {c behind : Cursor} {event : Event} (h : c.next = (some event, behind)) :
    c.drain = (event, behind) :: behind.drain := by
  rw [drain]; split <;> simp_all

theorem drain_of_none {c behind : Cursor} (h : c.next = (none, behind)) : c.drain = [] := by
  rw [drain]; split <;> simp_all

theorem finish_of_some {c behind : Cursor} {event : Event} (h : c.next = (some event, behind)) :
    c.finish = behind.finish := by
  rw [finish]; split <;> simp_all

theorem finish_of_none {c behind : Cursor} (h : c.next = (none, behind)) : c.finish = behind := by
  rw [finish]; split <;> simp_all

def events (c : Cursor) : List Event := c.drain.map Prod.fst

end Cursor

end Chime
