import Backprop.Yaml.Cursor

/-!
# Names and types of nodes

A node of a document may be given a name, by which it is referred to later on,
and a type, which overrides what its form says.
-/

namespace Backprop.Yaml

inductive Tag where
  /-- No type in particular: a scalar is read as if it were plain. -/
  | unspecific
  | null
  | bool
  | int
  | float
  | text
  | list
  | mapping
  deriving DecidableEq, Repr

def tags : List (String × Tag) :=
  [("!", .unspecific), ("!!null", .null), ("!!bool", .bool), ("!!int", .int), ("!!float", .float), ("!!str", .text),
   ("!!seq", .list), ("!!map", .mapping)]

/-- The type that is written here; a blank or a line break has to follow. -/
def tagHere (c : Cursor) : Option (Tag × Cursor) :=
  let (name, c) := c.span (!isGap ·)
  if c.peek == '\t' then none else (tags.lookup (String.ofList name)).map fun tag => (tag, c)

def isNameChar (c : Char) : Bool := c.isAlphanum || c == '-' || c == '_'

/-- Marks that may follow a name directly. -/
def endsName (c : Char) : Bool := isGap c || ['?', ':', ',', ']', '\x7d', '%', '@', '\x60'].contains c

/-- The name that stands here. -/
def nameHere (c : Cursor) : Option (String × Cursor) :=
  let (name, c) := c.span isNameChar
  if name.isEmpty || !endsName c.peek then none else some (String.ofList name, c)

/-- A word for a truth value in any mixture of cases. -/
def anyCaseBool? (s : String) : Option Bool :=
  let word := String.ofList (s.toList.map Char.toLower)
  if trueWords.contains word then some true else if falseWords.contains word then some false else none

/-- An exponent, also one without a sign. -/
def anyExponent? : List Char → Option Int
  | [] => some 0
  | e :: rest =>
    let (negative, ds) := splitSign rest
    if (e == 'e' || e == 'E') && !ds.isEmpty && ds.all Char.isDigit then
      some (if negative then -(natOf 10 ds : Int) else natOf 10 ds)
    else none

/-- A decimal number, also one without a point. -/
def decimal? (cs : List Char) : Option Float :=
  let (negative, cs) := splitSign (cs.filter (· != '_'))
  let (whole, rest) := (cs.takeWhile Char.isDigit, cs.dropWhile Char.isDigit)
  let (fraction, rest) := match rest with
    | '.' :: rest => (rest.takeWhile Char.isDigit, rest.dropWhile Char.isDigit)
    | rest => ([], rest)
  if whole.isEmpty && fraction.isEmpty then none
  else (anyExponent? rest).map fun e => scientific negative (natOf 10 (whole ++ fraction)) (e - fraction.length)

def anyFloat? (s : String) : Option Float :=
  match float? s.toList with
  | some x => some x
  | none => decimal? s.toList

/-- What a scalar of a type stands for. -/
def Tag.scalar : Tag → String → Option Datum
  | unspecific, s => some (resolve s)
  | null, _ => some .null
  | bool, s => (anyCaseBool? s).map .bool
  | int, s => (int? s.toList).map .int
  | float, s => (anyFloat? s).map .float
  | text, s => some (.text s)
  | _, _ => none

end Backprop.Yaml
