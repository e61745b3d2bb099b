import Chime.Notation.Byte

/-!
# Tunes

A tune is a run of bytes without NUL. Whatever a NUL and the bytes after it say is no part of
the tune.
-/

set_option autoImplicit false

namespace Chime

structure Tune where
  bytes : Bytes
  nulFree : ∀ byte ∈ bytes, byte ≠ 0

namespace Tune

@[ext] theorem ext {a b : Tune} (h : a.bytes = b.bytes) : a = b := by
  cases a; cases b; cases h; rfl

instance : DecidableEq Tune := fun a b =>
  decidable_of_iff (a.bytes = b.bytes) ⟨ext, fun h => h ▸ rfl⟩

def empty : Tune := ⟨[], by simp⟩

def ofBytes (bytes : Bytes) : Tune :=
  ⟨bytes.takeWhile (· != 0), fun byte h => by
    simpa using List.all_eq_true.mp List.all_takeWhile byte h⟩

def ofString (text : String) : Tune := ofBytes text.toUTF8.data.toList

def length (tune : Tune) : Nat := tune.bytes.length

theorem takeWhile_bytes_append (tune : Tune) (rest : Bytes) :
    (tune.bytes ++ rest).takeWhile (· != 0) = tune.bytes ++ rest.takeWhile (· != 0) :=
  List.takeWhile_append_of_pos fun byte h => by simpa using tune.nulFree byte h

theorem ofBytes_bytes (tune : Tune) : ofBytes tune.bytes = tune := by
  apply ext
  simpa [ofBytes] using tune.takeWhile_bytes_append []

theorem ofBytes_append_zero (tune : Tune) (rest : Bytes) :
    ofBytes (tune.bytes ++ 0 :: rest) = tune := by
  apply ext
  simpa [ofBytes] using tune.takeWhile_bytes_append (0 :: rest)

end Tune

end Chime
