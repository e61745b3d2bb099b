/-!
# Positive singles as dyadic numbers

A positive finite single is a significand times a power of two. The reals that round to it form
an interval that ends halfway to its two neighbours; both ends belong to it exactly when the
significand is even. Membership of a decimal is decided in naturals.
-/

set_option autoImplicit false

namespace Chime.Decimal

structure Dyadic where
  significand : Nat
  exponent : Int
  /-- Whether the neighbour below is half as far away as the neighbour above. -/
  narrow : Bool
  deriving DecidableEq, Repr

namespace Dyadic

def ofBits (bits : UInt32) : Dyadic :=
  let biased := (bits >>> 23 &&& 0xff).toNat
  let fraction := (bits &&& 0x7fffff).toNat
  if biased = 0 then ⟨fraction, -149, false⟩
  else ⟨0x800000 + fraction, (biased : Int) - 150, fraction = 0 && 1 < biased⟩

/-- One unit of the significand is `unit x k / step x k` multiples of `10 ^ k`. -/
def unit (x : Dyadic) (k : Int) : Nat := Nat.pow 2 x.exponent.toNat * Nat.pow 10 (-k).toNat

def step (x : Dyadic) (k : Int) : Nat := Nat.pow 2 (-x.exponent).toNat * Nat.pow 10 k.toNat

/-- Whether `c * 10 ^ k` lies among the reals that round to `x`. -/
def readsBack (x : Dyadic) (k : Int) (c : Nat) : Bool :=
  let low := (4 * x.significand - if x.narrow then 1 else 2) * x.unit k
  let high := (4 * x.significand + 2) * x.unit k
  let point := 4 * c * x.step k
  if x.significand % 2 = 0 then low ≤ point && point ≤ high else low < point && point < high

end Dyadic

end Chime.Decimal
