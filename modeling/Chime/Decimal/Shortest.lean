import Chime.Decimal.Dyadic

/-!
# Shortest decimals

The decimal with the fewest digits that reads back as a given single, the nearest of them where
there are two, and the larger where two are equally near. It is written positionally, without an
exponent and without a point when it is whole.
-/

set_option autoImplicit false

namespace Chime

structure Decimal where
  coefficient : Nat
  exponent : Int
  deriving DecidableEq, Repr

namespace Decimal

def onGrid? (x : Dyadic) (k : Int) : Option Nat :=
  let below := x.significand * x.unit k / x.step k
  match x.readsBack k below, x.readsBack k (below + 1) with
  | true, true =>
    if 2 * x.significand * x.unit k < (2 * below + 1) * x.step k then some below
    else some (below + 1)
  | true, false => some below
  | false, true => some (below + 1)
  | false, false => none

/-- Tries ever finer grids, and takes the last one as it is. -/
def searchFrom (x : Dyadic) : Nat → Int → Decimal
  | 0, k => ⟨x.significand * x.unit k / x.step k, k⟩
  | n + 1, k =>
    match onGrid? x k with
    | some c => ⟨c, k⟩
    | none => searchFrom x n (k - 1)

/-- A power of ten above `x`: 0.30103 is the decimal logarithm of two. -/
def ceiling (x : Dyadic) : Int :=
  ((x.significand.log2 : Int) + x.exponent + 1) * 30103 / 100000 + 1

/-- Every single is a multiple of `10 ^ -149`, so the search cannot end without an answer. -/
def shortest (x : Dyadic) : Decimal := searchFrom x (ceiling x + 149).toNat (ceiling x)

def positional (d : Decimal) : String :=
  let digits := Nat.toDigits 10 d.coefficient
  let places := (-d.exponent).toNat
  if places = 0 then String.ofList (digits ++ List.replicate d.exponent.toNat '0')
  else if places < digits.length then
    String.ofList (digits.take (digits.length - places) ++ '.' ::
      digits.drop (digits.length - places))
  else String.ofList ('0' :: '.' :: List.replicate (places - digits.length) '0' ++ digits)

def text (x : Float32) : String :=
  let sign := if x.toBits < 0x80000000 then "" else "-"
  if x.isNaN then "NaN"
  else if x.isInf then sign ++ "inf"
  else if x == 0 then sign ++ "0"
  else sign ++ (shortest (Dyadic.ofBits x.toBits)).positional

end Decimal

end Chime
