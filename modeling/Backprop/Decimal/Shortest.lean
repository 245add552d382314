/-!
# Shortest decimals

The positive binary numbers `mantissa * 2 ^ exponent` of the 64-bit format are
written with the fewest decimal digits that read back as the same number; of
two such decimals of one length the nearer is taken, and of two equally near
the even one.

A decimal reads back when it lies between the midpoints to the two neighbours
of the number, a midpoint itself counting only for an even mantissa. All of it
is computed in exact arithmetic on naturals.
-/

namespace Backprop.Decimal

/-- The number `digits * 10 ^ exponent`. -/
structure Scientific where
  digits : Nat
  exponent : Int
  deriving DecidableEq, Repr

/-- The positive number `mantissa * 2 ^ exponent`. -/
structure Binary where
  mantissa : Nat
  exponent : Int
  deriving DecidableEq, Repr

namespace Binary

/-- `num / den` with `den` a power of two, the value scaled by four. -/
def quadruple (b : Binary) (quarters : Nat) : Nat × Nat :=
  if b.exponent < 2 then (quarters, Nat.pow 2 (2 - b.exponent).toNat)
  else (quarters * Nat.pow 2 (b.exponent - 2).toNat, 1)

def value (b : Binary) : Nat × Nat := b.quadruple (4 * b.mantissa)

/-- The midpoint to the next larger number. -/
def upper (b : Binary) : Nat × Nat := b.quadruple (4 * b.mantissa + 2)

/-- The midpoint to the next smaller number, which is closer at a power of two. -/
def lower (b : Binary) : Nat × Nat :=
  if b.mantissa = Nat.pow 2 52 ∧ -1074 < b.exponent then b.quadruple (4 * b.mantissa - 1)
  else b.quadruple (4 * b.mantissa - 2)

end Binary

/-- `digits * 10 ^ exponent` as a quotient. -/
def Scientific.quotient (s : Scientific) : Nat × Nat :=
  if s.exponent < 0 then (s.digits, Nat.pow 10 (-s.exponent).toNat)
  else (s.digits * Nat.pow 10 s.exponent.toNat, 1)

def le (a b : Nat × Nat) : Bool := a.1 * b.2 ≤ b.1 * a.2

def lt (a b : Nat × Nat) : Bool := a.1 * b.2 < b.1 * a.2

/-- The decimal lies within the midpoints around the number. -/
def readsBack (b : Binary) (s : Scientific) : Bool :=
  if b.mantissa % 2 = 0 then le b.lower s.quotient && le s.quotient b.upper
  else lt b.lower s.quotient && lt s.quotient b.upper

/-- The number in units of `10 ^ exponent`, rounded down. -/
def Binary.floorIn (b : Binary) (exponent : Int) : Nat :=
  let (num, den) := b.value
  if exponent < 0 then num * Nat.pow 10 (-exponent).toNat / den else num / (den * Nat.pow 10 exponent.toNat)

/-- Whether the larger of two decimals around the number is to be taken. -/
def roundsUp (b : Binary) (below above : Scientific) : Bool :=
  let (num, den) := b.value
  let (p, q) := below.quotient
  let (r, s) := above.quotient
  let twice := 2 * num * q * s
  let sum := den * (p * s + r * q)
  sum < twice || (sum == twice && below.digits % 2 == 1)

/-- The two decimals around the number on the grid of step `10 ^ exponent`, if one reads back. -/
def onGrid (b : Binary) (exponent : Int) : Option Scientific :=
  let below : Scientific := ⟨b.floorIn exponent, exponent⟩
  let above : Scientific := ⟨below.digits + 1, exponent⟩
  match readsBack b below, readsBack b above with
  | true, true => if roundsUp b below above then some above else some below
  | true, false => some below
  | false, true => some above
  | false, false => none

/-- The exponent of the leading decimal digit, searched downwards from `start`. -/
def leading (b : Binary) : Nat → Int → Int
  | 0, e => e
  | fuel + 1, e => if b.floorIn e = 0 then leading b fuel (e - 1) else e

/-- Trailing zeros move into the exponent. -/
def trim : Nat → Scientific → Scientific
  | 0, s => s
  | fuel + 1, s => if s.digits ≠ 0 ∧ s.digits % 10 = 0 then trim fuel ⟨s.digits / 10, s.exponent + 1⟩ else s

/-- The first grid, from the coarsest on, with a decimal that reads back. -/
def firstGrid (b : Binary) : Nat → Int → Scientific
  | 0, e => ⟨b.floorIn e, e⟩
  | fuel + 1, e =>
    match onGrid b e with
    | some s => s
    | none => firstGrid b fuel (e - 1)

/-- The decimal with the fewest digits that reads back as the number. -/
def shortest (b : Binary) : Scientific :=
  let top := leading b 640 309
  trim 20 (firstGrid b 20 top)

end Backprop.Decimal
