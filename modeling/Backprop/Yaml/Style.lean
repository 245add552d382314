import Backprop.Yaml.Scalar

/-!
# Styles of written scalars

A text is written plainly if it reads back as that text, else between single
quotes, and between double quotes with escapes when it holds characters outside
ASCII. What decides are a few features of the text: marks that would be read as
structure, line breaks, and blanks at the ends or next to breaks.
-/

namespace Backprop.Yaml

/-- The features of a text that decide how it can be written. -/
structure Features where
  blockIndicator : Bool
  lineBreak : Bool
  special : Bool
  outerBlank : Bool
  breakThenSpace : Bool
  spaceThenBreak : Bool

def isBreak (c : Char) : Bool := c == '\n' || c == '\u0085' || c == '\u2028' || c == '\u2029'

def isGap (c : Char) : Bool := c == '\x00' || c == ' ' || c == '\t' || c == '\r' || isBreak c

def startsGap : List Char → Bool
  | [] => true
  | c :: _ => isGap c

/-- Marks that a plain text cannot start with. -/
def leadIndicators : List Char :=
  ['#', ',', '[', ']', '\x7b', '\x7d', '&', '*', '!', '|', '>', '\x27', '\x22', '%', '@', '\x60']

def leadsIndicator : List Char → Bool
  | [] => false
  | c :: cs =>
    leadIndicators.contains c || ((c == '?' || c == ':' || c == '-') && startsGap cs) ||
      "---".toList.isPrefixOf (c :: cs) || "...".toList.isPrefixOf (c :: cs)

/-- A colon before a gap or a number sign after one. -/
def innerIndicator : Bool → List Char → Bool
  | _, [] => false
  | afterGap, c :: cs => (c == ':' && startsGap cs) || (c == '#' && afterGap) || innerIndicator (isGap c) cs

def isPlainAscii (c : Char) : Bool := c == '\n' || (' ' ≤ c && c ≤ '~')

/-- Whether two kinds of characters stand next to each other somewhere. -/
def adjacent (p q : Char → Bool) : List Char → Bool
  | a :: b :: cs => (p a && q b) || adjacent p q (b :: cs)
  | _ => false

def outer (cs : List Char) : Bool :=
  let blank (c : Option Char) := match c with
    | some c => c == ' ' || isBreak c
    | none => false
  blank cs.head? || blank cs.getLast?

def Features.of (cs : List Char) : Features where
  blockIndicator := leadsIndicator cs || (match cs with | [] => false | c :: rest => innerIndicator (isGap c) rest)
  lineBreak := cs.any isBreak
  special := cs.any fun c => !isPlainAscii c
  outerBlank := outer cs
  breakThenSpace := adjacent isBreak (· == ' ') cs
  spaceThenBreak := adjacent (· == ' ') isBreak cs

def Features.allowsPlain (f : Features) : Bool :=
  !(f.outerBlank || f.breakThenSpace || f.spaceThenBreak || f.special || f.lineBreak || f.blockIndicator)

def Features.allowsSingle (f : Features) : Bool := !(f.breakThenSpace || f.spaceThenBreak || f.special)

inductive Style where
  | plain
  | single
  | double
  deriving DecidableEq, Repr

def styleOf (s : String) : Style :=
  let f := Features.of s.toList
  if f.allowsPlain && readsAsText s then .plain else if f.allowsSingle then .single else .double

def floatText (x : Float) : String :=
  match Decimal.Parts.ofFloat x with
  | .nan => ".nan"
  | .infinity negative => if negative then "-.inf" else ".inf"
  | _ =>
    let s := Decimal.render x
    if s.contains '.' then s else ".0e".intercalate (s.splitOn "e")

/-- The characters of a scalar and the style they are written in; empty collections count as scalars. -/
def scalarText : Datum → Style × List Char
  | .null => (.plain, "null".toList)
  | .bool b => (.plain, (if b then "true" else "false").toList)
  | .int i => (.plain, (toString i).toList)
  | .float x => (.plain, (floatText x).toList)
  | .text s => (styleOf s, s.toList)
  | .list _ => (.plain, "[]".toList)
  | .dict _ => (.plain, "\x7b\x7d".toList)

/-- The length of the type mark that a scalar could carry. -/
def markLength : Datum → Nat
  | .null => "!!null".length
  | .bool _ => "!!bool".length
  | .float _ => "!!float".length
  | _ => "!!int".length

/-- A key fits on the line of its value if it is short and neither empty nor broken. -/
def isSimpleKey (key : Key) : Bool :=
  let cs := (scalarText key.toDatum).2
  !cs.isEmpty && !cs.any isBreak && cs.length + markLength key.toDatum < 128

end Backprop.Yaml
