/-!
# The clock

A millisecond clock that starts over after 2^64 - 1. Of two readings one is before the other if
the way back from it is the longer one around the circle; durations that are measured in
fractional milliseconds are cut to whole ones and saturate at 2^32 - 1.
-/

set_option autoImplicit false

namespace Chime

structure Instant where
  ticks : UInt64
  deriving DecidableEq, Repr

structure Duration where
  millis : UInt64
  deriving DecidableEq, Repr

def Instant.zero : Instant := ⟨0⟩

instance : Inhabited Instant := ⟨.zero⟩

instance : HAdd Instant Duration Instant := ⟨fun t d => ⟨t.ticks + d.millis⟩⟩

/-- Whether `a` is before `b` around the circle. Readings 2^63 - 1 apart are on neither side. -/
def Instant.isBefore (a b : Instant) : Bool := 0x7fffffffffffffff < a.ticks - b.ticks

theorem Instant.isBefore_self (a : Instant) : a.isBefore a = false := by
  simp [Instant.isBefore]

theorem Instant.isBefore_iff (a b : Instant) :
    a.isBefore b = true ↔ 0x7fffffffffffffff < (a.ticks - b.ticks).toNat := by
  simp [Instant.isBefore, UInt64.lt_iff_toNat_lt]

def Instant.polls (start : Instant) (period : Duration) : Nat → List Instant
  | 0 => []
  | n + 1 => start :: Instant.polls (start + period) period n

/-- Whole milliseconds: the fraction is dropped, what is negative or no number is zero. -/
def Duration.ofMillis (millis : Float32) : Duration := ⟨millis.toUInt32.toUInt64⟩

theorem Duration.ofMillis_lt (millis : Float32) : (ofMillis millis).millis.toNat < UInt32.size := by
  simpa [ofMillis] using millis.toUInt32.toNat_lt

end Chime
