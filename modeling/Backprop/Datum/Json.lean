import Backprop.Datum.Fields
import Backprop.Yaml.Scalar

/-!
# Plain data from JSON text

Objects become dictionaries with text keys, in which a repeated key takes the
last value. A number with a point or an exponent is a float, any other an
integer; the words for infinity and for what is not a number are floats too.
-/

namespace Backprop.Json

def skipSpace (cs : List Char) : List Char := cs.dropWhile Char.isWhitespace

def escapeOf (c : Char) : Char :=
  match c with
  | 'b' => '\x08'
  | 'f' => '\x0c'
  | 'n' => '\n'
  | 'r' => '\r'
  | 't' => '\t'
  | c => c

def isHighHalf (n : Nat) : Bool := 0xd800 ≤ n && n < 0xdc00

def isLowHalf (n : Nat) : Bool := 0xdc00 ≤ n && n < 0xe000

/-- The character of a code unit; half of a pair alone stands for none. -/
def unitChar (n : Nat) : Char := if isHighHalf n || isLowHalf n then '\ufffd' else Char.ofNat n

/-- The character of a pair of code units. -/
def pairChar (high low : Nat) : Char := Char.ofNat (0x10000 + (high - 0xd800) * 0x400 + (low - 0xdc00))

/-- The text up to the closing quote, and what follows it. -/
def readText : List Char → List Char → Option (String × List Char)
  | [], _ => none
  | '"' :: rest, acc => some (String.ofList acc.reverse, rest)
  | '\\' :: 'u' :: a :: b :: c :: d :: '\\' :: 'u' :: e :: f :: g :: h :: rest, acc =>
    let high := Yaml.natOf 16 [a, b, c, d]
    let low := Yaml.natOf 16 [e, f, g, h]
    if isHighHalf high && isLowHalf low then readText rest (pairChar high low :: acc)
    else readText ('\\' :: 'u' :: e :: f :: g :: h :: rest) (unitChar high :: acc)
  | '\\' :: 'u' :: a :: b :: c :: d :: rest, acc => readText rest (unitChar (Yaml.natOf 16 [a, b, c, d]) :: acc)
  | '\\' :: c :: rest, acc => readText rest (escapeOf c :: acc)
  | c :: rest, acc => readText rest (c :: acc)
termination_by cs => cs.length

def isExponent (c : Char) : Bool := c == 'e' || c == 'E'

/-- The digits of an exponent with a sign in front. -/
def signed : List Char → List Char
  | '+' :: cs => '+' :: cs
  | '-' :: cs => '-' :: cs
  | cs => '+' :: cs

def number (cs : List Char) : Option Datum :=
  let mantissa := cs.takeWhile (!isExponent ·)
  let exponent := match cs.drop mantissa.length with
    | e :: digits => e :: signed digits
    | [] => []
  let pointed := if mantissa.contains '.' then mantissa else mantissa ++ ['.', '0']
  if mantissa.length = cs.length ∧ ¬mantissa.contains '.' then (Yaml.int? cs).map .int
  else (Yaml.float? (pointed ++ exponent)).map .float

def isWordChar (c : Char) : Bool := c.isAlphanum || c == '-' || c == '+' || c == '.'

/-- A word or a number. -/
def scalar (cs : List Char) : Option Datum :=
  match String.ofList cs with
  | "null" => some .null
  | "true" => some (.bool true)
  | "false" => some (.bool false)
  | "Infinity" => some (.float Yaml.infinity)
  | "-Infinity" => some (.float (-Yaml.infinity))
  | "NaN" => some (.float (0.0 / 0.0))
  | _ => number cs

mutual

/-- A value and what follows it. -/
def readValue : Nat → List Char → Option (Datum × List Char)
  | 0, _ => none
  | fuel + 1, cs =>
    match skipSpace cs with
    | '"' :: rest => (readText rest []).map fun (s, rest) => (.text s, rest)
    | '\x7b' :: rest => readFields fuel (skipSpace rest) []
    | '[' :: rest => readItems fuel (skipSpace rest) []
    | cs =>
      let word := cs.takeWhile isWordChar
      (scalar word).map fun d => (d, cs.drop word.length)

/-- The items up to the closing bracket. -/
def readItems : Nat → List Char → List Datum → Option (Datum × List Char)
  | 0, _, _ => none
  | fuel + 1, cs, acc =>
    match cs with
    | ']' :: rest => some (.list acc.reverse, rest)
    | ',' :: rest => readItems fuel (skipSpace rest) acc
    | cs => do
      let (d, rest) ← readValue fuel cs
      readItems fuel (skipSpace rest) (d :: acc)

/-- The fields up to the closing brace. -/
def readFields : Nat → List Char → Ledger String Datum → Option (Datum × List Char)
  | 0, _, _ => none
  | fuel + 1, cs, acc =>
    match cs with
    | '\x7d' :: rest => some (.ofFields acc, rest)
    | ',' :: rest => readFields fuel (skipSpace rest) acc
    | '"' :: rest => do
      let (key, rest) ← readText rest []
      let (d, rest) ← readValue fuel ((skipSpace rest).drop 1)
      readFields fuel (skipSpace rest) (Ledger.put acc key d)
    | _ => none

end

/-- The value that a text holds. -/
def parse (s : String) : Option Datum :=
  let cs := s.toList
  (readValue (cs.length + 1) cs).map Prod.fst

end Backprop.Json
