import Backprop.Decimal.Shortest

/-!
# How floating-point numbers are written

Numbers whose leading digit stands between `10 ^ -4` and `10 ^ 15` are written
positionally and always with a point; all others with a signed exponent of at
least two digits.
-/

namespace Backprop.Decimal

/-- What a 64-bit float is, taken apart. -/
inductive Parts where
  | nan
  | infinity (negative : Bool)
  | zero (negative : Bool)
  | finite (negative : Bool) (magnitude : Binary)
  deriving DecidableEq, Repr

def Parts.ofBits (bits : Nat) : Parts :=
  let negative : Bool := bits / Nat.pow 2 63 % 2 = 1
  let exponent : Nat := bits / Nat.pow 2 52 % Nat.pow 2 11
  let fraction := bits % Nat.pow 2 52
  if exponent = 2047 then if fraction = 0 then .infinity negative else .nan
  else if exponent = 0 then if fraction = 0 then .zero negative else .finite negative ⟨fraction, -1074⟩
  else .finite negative ⟨Nat.pow 2 52 + fraction, (exponent : Int) - 1075⟩

def Parts.ofFloat (x : Float) : Parts := .ofBits x.toBits.toNat

/-- Whether the number is exactly the given integer. -/
def Parts.isInt : Parts → Int → Bool
  | .zero _, i => i == 0
  | .finite negative b, i =>
    let (num, den) := b.value
    i.natAbs * den == num && (negative == (i < 0 : Bool))
  | _, _ => false

/-- The number as a quotient; an infinity has no denominator. -/
def Parts.quotient : Parts → Int × Nat
  | .nan => (0, 0)
  | .infinity negative => (if negative then -1 else 1, 0)
  | .zero _ => (0, 1)
  | .finite negative b =>
    let (num, den) := b.value
    (if negative then -(num : Int) else num, den)

/-- The number, if it is an integer. -/
def Parts.whole? (p : Parts) : Option Int :=
  let (num, den) := p.quotient
  if den = 0 then none else if num % den = 0 then some (num / den) else none

def zeros (n : Nat) : String := String.ofList (List.replicate n '0')

/-- The digits with the point after the first `point` of them. -/
def positional (digits : List Char) (point : Int) : String :=
  if point ≤ 0 then "0." ++ zeros (-point).toNat ++ String.ofList digits
  else
    let n := point.toNat
    if digits.length ≤ n then String.ofList digits ++ zeros (n - digits.length) ++ ".0"
    else String.ofList (digits.take n) ++ "." ++ String.ofList (digits.drop n)

def exponential (digits : List Char) (exponent : Int) : String :=
  let mark := if exponent < 0 then "e-" else "e+"
  let size := toString exponent.natAbs
  let fraction := match digits with
    | d :: [] => String.ofList [d]
    | d :: ds => String.ofList (d :: '.' :: ds)
    | [] => ""
  fraction ++ mark ++ (if size.length < 2 then "0" ++ size else size)

def Scientific.render (s : Scientific) : String :=
  let digits := (toString s.digits).toList
  let leading := s.exponent + digits.length - 1
  if -4 ≤ leading ∧ leading < 16 then positional digits (leading + 1) else exponential digits leading

def Parts.render : Parts → String
  | .nan => "nan"
  | .infinity negative => if negative then "-inf" else "inf"
  | .zero negative => if negative then "-0.0" else "0.0"
  | .finite negative b => (if negative then "-" else "") ++ (shortest b).render

def render (x : Float) : String := (Parts.ofFloat x).render

end Backprop.Decimal
