import Mathlib.Algebra.Group.Nat.Defs
import Chime.Clock

/-!
# Readings around the circle

Readings are measured from an earlier one. A deadline `d` milliseconds after a reading is reached
from `d` milliseconds on and for half of the circle after that, wherever on the circle it lies.
-/

set_option autoImplicit false

namespace Chime.Instant

def later (t : Instant) (n : Nat) : Instant := ⟨t.ticks + .ofNat n⟩

theorem later_zero (t : Instant) : t.later 0 = t := by
  simp [later]

theorem later_later (t : Instant) (m n : Nat) : (t.later m).later n = t.later (m + n) := by
  simp [later, UInt64.add_assoc, UInt64.ofNat_add]

theorem add_eq_later (t : Instant) (d : Duration) : t + d = t.later d.millis.toNat := by
  simp [later, HAdd.hAdd]

theorem toNat_later_sub (t : Instant) {m n : Nat} (hm : m < 2 ^ 64) (hn : n < 2 ^ 64) :
    ((t.later m).ticks - (t.later n).ticks).toNat = if n ≤ m then m - n else 2 ^ 64 + m - n := by
  have ht := t.ticks.toNat_lt
  simp only [later, UInt64.toNat_sub, UInt64.toNat_add, UInt64.toNat_ofNat']
  split <;> omega

/-- When a deadline is reached, and how long it stays so. -/
theorem not_isBefore_later_iff (t : Instant) {j d : Nat} (hj : j < 2 ^ 64) (hd : d ≤ 2 ^ 63) :
    (t.later j).isBefore (t.later d) = false ↔ d ≤ j ∧ j ≤ d + (2 ^ 63 - 1) := by
  have h := isBefore_iff (t.later j) (t.later d)
  rw [toNat_later_sub t hj (by omega)] at h
  rw [← Bool.not_eq_true, h]
  split <;> omega

/-- On the first half of the circle readings are ordered like numbers. -/
theorem isBefore_add_iff {t u : Instant} {d : Duration}
    (htu : t.ticks.toNat ≤ u.ticks.toNat) (hu : u.ticks.toNat < 2 ^ 63)
    (hd : d.millis.toNat < 2 ^ 63) :
    u.isBefore (t + d) = true ↔ u.ticks.toNat < t.ticks.toNat + d.millis.toNat := by
  have hl : u = t.later (u.ticks.toNat - t.ticks.toNat) := by
    have hn : u.ticks.toNat = (t.ticks + .ofNat (u.ticks.toNat - t.ticks.toNat)).toNat := by
      rw [UInt64.toNat_add, UInt64.toNat_ofNat']
      omega
    exact congrArg Instant.mk (UInt64.toNat_inj.mp hn)
  have h := not_isBefore_later_iff t (j := u.ticks.toNat - t.ticks.toNat)
    (d := d.millis.toNat) (by omega) (by omega)
  rw [← hl, ← add_eq_later] at h
  rw [← Bool.not_eq_false, h]
  omega

theorem not_isBefore_add_of_le {t u : Instant} {short long : Duration}
    (htu : t.ticks.toNat ≤ u.ticks.toNat) (hu : u.ticks.toNat < 2 ^ 63)
    (hl : long.millis.toNat < 2 ^ 63) (hs : short.millis.toNat ≤ long.millis.toNat)
    (h : u.isBefore (t + long) = false) : u.isBefore (t + short) = false := by
  rw [← Bool.not_eq_true, isBefore_add_iff htu hu hl] at h
  rw [← Bool.not_eq_true, isBefore_add_iff htu hu (Nat.lt_of_le_of_lt hs hl)]
  omega

def poll (start : Instant) (period : Duration) (m : Nat) : Instant :=
  start.later (m * period.millis.toNat)

theorem poll_zero (start : Instant) (period : Duration) : start.poll period 0 = start := by
  simp [poll, later_zero]

theorem poll_add (start : Instant) (period : Duration) (m j : Nat) :
    start.poll period (m + j) = (start.poll period m).later (j * period.millis.toNat) := by
  rw [poll, poll, later_later, Nat.add_mul]

theorem polls_succ (start : Instant) (period : Duration) (n : Nat) :
    start.polls period (n + 1) = start.polls period n ++ [start.poll period n] := by
  induction n generalizing start with
  | zero => simp [polls, poll_zero]
  | succ n ih =>
    have h : (start + period).poll period n = start.poll period (n + 1) := by
      rw [add_eq_later, poll, later_later, poll, Nat.add_comm, ← Nat.succ_mul]
    rw [polls, ih, h]
    rfl

end Chime.Instant
