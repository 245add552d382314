import Backprop.Datum.Display

/-!
# Plain YAML scalars

An unquoted scalar is read as nothing, a truth value or a number when it has
the form of one, and as text otherwise. Forms that only matter for writing
(dates and the merge and value marks) are not read as anything but text, but a
text of such a form is not written plainly.
-/

namespace Backprop.Yaml

/-- Digits of a base with underscores between them. -/
def digitsOnly (isDigit : Char → Bool) (cs : List Char) : Bool := cs.all fun c => isDigit c || c == '_'

def isOctal (c : Char) : Bool := '0' ≤ c && c ≤ '7'

def isBinary (c : Char) : Bool := c == '0' || c == '1'

def isHex (c : Char) : Bool := c.isDigit || ('a' ≤ c && c ≤ 'f') || ('A' ≤ c && c ≤ 'F')

def digitValue (c : Char) : Nat :=
  if c.isDigit then c.toNat - 48 else if 'a' ≤ c then c.toNat - 87 else c.toNat - 55

def natOf (base : Nat) (cs : List Char) : Nat :=
  (cs.filter (· != '_')).foldl (fun n c => n * base + digitValue c) 0

/-- The sign in front and what follows it. -/
def splitSign : List Char → Bool × List Char
  | '-' :: cs => (true, cs)
  | '+' :: cs => (false, cs)
  | cs => (false, cs)

/-- The parts between the separators. -/
def splitAt (sep : Char) : List Char → List (List Char)
  | [] => [[]]
  | c :: cs =>
    if c = sep then [] :: splitAt sep cs
    else match splitAt sep cs with
      | first :: rest => (c :: first) :: rest
      | [] => [[c]]

/-- One place of a number to the base sixty. -/
def isSixtieth : List Char → Bool
  | [a] => a.isDigit
  | [a, b] => '0' ≤ a && a ≤ '5' && b.isDigit
  | _ => false

def startsNonZero : List Char → Bool
  | c :: _ => c.isDigit && c != '0'
  | [] => false

def startsWithDigit : List Char → Bool
  | c :: _ => c.isDigit
  | [] => false

def magnitude? (cs : List Char) : Option Nat :=
  match cs with
  | ['0'] => some 0
  | '0' :: 'b' :: ds => if !ds.isEmpty && digitsOnly isBinary ds then some (natOf 2 ds) else none
  | '0' :: 'x' :: ds => if !ds.isEmpty && digitsOnly isHex ds then some (natOf 16 ds) else none
  | '0' :: ds => if digitsOnly isOctal ds then some (natOf 8 ds) else none
  | _ =>
    match splitAt ':' cs with
    | [ds] => if startsNonZero ds && digitsOnly Char.isDigit ds then some (natOf 10 ds) else none
    | ds :: places =>
      if startsNonZero ds && digitsOnly Char.isDigit ds && places.all isSixtieth then
        some (places.foldl (fun n p => n * 60 + natOf 10 p) (natOf 10 ds))
      else none
    | [] => none

def int? (cs : List Char) : Option Int :=
  let (negative, cs) := splitSign cs
  (magnitude? cs).map fun n => if negative then -(n : Int) else n

/-- `digits * 10 ^ exponent`, rounded to the nearest float. -/
def scientific (negative : Bool) (digits : Nat) (exponent : Int) : Float :=
  let x := Float.ofScientific digits (exponent < 0) exponent.natAbs
  if negative then -x else x

/-- The exponent after the digits: nothing, or a marked and signed number. -/
def exponent? : List Char → Option Int
  | [] => some 0
  | e :: sign :: ds =>
    if (e == 'e' || e == 'E') && (sign == '-' || sign == '+') && !ds.isEmpty && ds.all Char.isDigit then
      some (if sign == '-' then -(natOf 10 ds : Int) else natOf 10 ds)
    else none
  | _ => none

def isFractionChar (c : Char) : Bool := c.isDigit || c == '_'

/-- A number with a point, from the digits before it and the characters after it. -/
def pointed? (negative : Bool) (whole rest : List Char) : Option Float :=
  let fraction := (rest.takeWhile isFractionChar).filter (· != '_')
  (exponent? (rest.dropWhile isFractionChar)).map fun e =>
    scientific negative (natOf 10 (whole ++ fraction)) (e - fraction.length)

/-- Places to the base sixty of which the last has a fraction, added up from the last to the first. -/
def sixtieths (places : List Nat) (fraction : List Char) : Float :=
  let last := scientific false (natOf 10 ((toString (places.getLastD 0)).toList ++ fraction)) (-fraction.length)
  let weighted := (places.dropLast.reverse.zipIdx 1).map fun (n, i) => Float.ofNat n * Float.ofNat (Nat.pow 60 i)
  weighted.foldl (· + ·) (0.0 + last)

def infinity : Float := 1.0 / 0.0

def float? (cs : List Char) : Option Float :=
  let (negative, unsigned) := splitSign cs
  let word := String.ofList unsigned
  if word == ".inf" || word == ".Inf" || word == ".INF" then some (if negative then -infinity else infinity)
  else if cs == unsigned && (word == ".nan" || word == ".NaN" || word == ".NAN") then some (0.0 / 0.0)
  else match unsigned.takeWhile (· != '.'), unsigned.dropWhile (· != '.') with
    | [], _ :: rest => if cs == unsigned && startsWithDigit rest then pointed? false [] rest else none
    | whole, _ :: rest =>
      match splitAt ':' whole with
      | [ds] => if startsWithDigit ds && digitsOnly Char.isDigit ds then pointed? negative ds rest else none
      | ds :: places =>
        if startsWithDigit ds && digitsOnly Char.isDigit ds && places.all isSixtieth && rest.all isFractionChar then
          let x := sixtieths (natOf 10 ds :: places.map (natOf 10)) (rest.filter (· != '_'))
          some (if negative then -x else x)
        else none
      | [] => none
    | _, [] => none

def trueWords : List String := ["yes", "Yes", "YES", "true", "True", "TRUE", "on", "On", "ON"]

def falseWords : List String := ["no", "No", "NO", "false", "False", "FALSE", "off", "Off", "OFF"]

def nullWords : List String := ["", "~", "null", "Null", "NULL"]

/-- What a plain scalar stands for. -/
def resolve (s : String) : Datum :=
  if nullWords.contains s then .null
  else if trueWords.contains s then .bool true
  else if falseWords.contains s then .bool false
  else match int? s.toList with
    | some i => .int i
    | none =>
      match float? s.toList with
      | some x => .float x
      | none => .text s

def isNumeral (count : Nat) (cs : List Char) : Bool := cs.length == count && cs.all Char.isDigit

def isShortNumeral (cs : List Char) : Bool := isNumeral 1 cs || isNumeral 2 cs

def isGapChar (c : Char) : Bool := c == ' ' || c == '\t'

/-- The distance from universal time: nothing, `Z`, or hours and minutes. -/
def isZone (cs : List Char) : Bool :=
  match cs.dropWhile isGapChar with
  | [] => cs.isEmpty
  | ['Z'] => true
  | sign :: rest =>
    (sign == '+' || sign == '-') && match splitAt ':' rest with
      | [hours] => isShortNumeral hours
      | [hours, minutes] => isShortNumeral hours && isNumeral 2 minutes
      | _ => false

/-- Seconds with a fraction, and the zone. -/
def isSeconds (cs : List Char) : Bool :=
  isNumeral 2 (cs.take 2) && match cs.drop 2 with
    | '.' :: rest => isZone (rest.dropWhile Char.isDigit)
    | rest => isZone rest

/-- A time of day. -/
def isClock (cs : List Char) : Bool :=
  match cs.takeWhile (· != ':'), (cs.dropWhile (· != ':')).drop 1 with
  | hours, rest => isShortNumeral hours && isNumeral 2 (rest.take 2) && match rest.drop 2 with
    | ':' :: seconds => isSeconds seconds
    | _ => false

/-- The time of day after the date: marked by a letter or set off by blanks. -/
def isTimeOfDay : List Char → Bool
  | 'T' :: rest => isClock rest
  | 't' :: rest => isClock rest
  | c :: rest => isGapChar c && isClock (rest.dropWhile isGapChar)
  | [] => false

/-- A date, or a date and a time of day. -/
def isTimestamp (s : String) : Bool :=
  let (year, rest) := (s.toList.takeWhile (· != '-'), (s.toList.dropWhile (· != '-')).drop 1)
  let (month, rest) := (rest.takeWhile (· != '-'), (rest.dropWhile (· != '-')).drop 1)
  let (day, rest) := (rest.takeWhile Char.isDigit, rest.dropWhile Char.isDigit)
  isNumeral 4 year &&
    ((isNumeral 2 month && isNumeral 2 day && rest.isEmpty) ||
      (isShortNumeral month && isShortNumeral day && isTimeOfDay rest))

/-- Whether a text reads back as itself when it is written without quotes. -/
def readsAsText (s : String) : Bool :=
  match resolve s with
  | .text _ => !isTimestamp s && s != "=" && s != "<<"
  | _ => false

end Backprop.Yaml
