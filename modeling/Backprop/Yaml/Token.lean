import Backprop.Yaml.Block
import Backprop.Yaml.Inline
import Backprop.Yaml.Property

/-!
# Tokens

A document is read as a list of tokens in which indentation shows as block
starts and ends. A key is only known as one when the colon after it is met, so
places where a key may have started are remembered, one for each depth of
brackets, and its token is put in afterwards. Such a key has to stand on one
line and be at most 1024 characters long.
-/

namespace Backprop.Yaml

inductive Token where
  | documentStart
  | documentEnd
  | listStart
  | mappingStart
  | blockEnd
  | openList
  | closeList
  | openMapping
  | closeMapping
  | comma
  | dash
  | key
  | value
  | anchor (name : String)
  | reference (name : String)
  | tag (t : Tag)
  | scalar (text : String) (isPlain : Bool)
  deriving DecidableEq, Repr

/-- A place where a key may have started. -/
structure KeyPlace where
  /-- How many tokens come before it. -/
  before : Nat
  /-- Whether it has to be a key, because of its indentation. -/
  required : Bool
  start : Cursor

structure Lexer where
  cursor : Cursor
  tokens : Array Token := #[]
  /-- The depth of brackets. -/
  depth : Nat := 0
  /-- The indentation of the block that is open; outside of all blocks it is negative. -/
  indent : Int := -1
  outerIndents : List Int := []
  keyAllowed : Bool := true
  keyPlaces : Ledger Nat KeyPlace := []

namespace Lexer

def inBrackets (x : Lexer) : Bool := x.depth != 0

def emit (x : Lexer) (t : Token) : Lexer := { x with tokens := x.tokens.push t }

def step (x : Lexer) (count : Nat) : Lexer := { x with cursor := x.cursor.skip count }

/-- Passes blanks, comments and line breaks. -/
def skipGap : Nat → Lexer → Lexer
  | 0, x => x
  | fuel + 1, x =>
    let c := x.cursor.skipWhile (· == ' ')
    let c := if c.peek == '#' then c.skipWhile (!isBreak ·) else c
    if isBreak c.peek then skipGap fuel { x with cursor := c.step, keyAllowed := x.keyAllowed || !x.inBrackets }
    else { x with cursor := c }

/-- Forgets places that are too far back for a key. -/
def dropStale (x : Lexer) : Option Lexer :=
  let isStale (k : KeyPlace) : Bool :=
    k.start.line != x.cursor.line || 1024 < x.cursor.offset - k.start.offset
  if x.keyPlaces.any fun p => isStale p.2 && p.2.required then none
  else some { x with keyPlaces := x.keyPlaces.filter fun p => !isStale p.2 }

/-- Forgets the place at the present depth. -/
def dropPlace (x : Lexer) : Option Lexer :=
  match Ledger.get? x.keyPlaces x.depth with
  | some k => if k.required then none else some { x with keyPlaces := Ledger.erase x.keyPlaces x.depth }
  | none => some x

/-- Remembers that a key may start here. -/
def savePlace (x : Lexer) : Option Lexer :=
  if x.keyAllowed then
    x.dropPlace.map fun x =>
      let required := !x.inBrackets && x.indent == x.cursor.column
      { x with keyPlaces := Ledger.put x.keyPlaces x.depth ⟨x.tokens.size, required, x.cursor⟩ }
  else some x

/-- Closes the blocks that are indented deeper than a column. -/
def closeTo (column : Int) (x : Lexer) : Lexer :=
  go x.outerIndents x
where
  go : List Int → Lexer → Lexer
    | outer, x =>
      if column < x.indent then
        match outer with
        | indent :: outer => go outer { x.emit .blockEnd with indent, outerIndents := outer }
        | [] => x
      else x

def closeBlocks (x : Lexer) (column : Int) : Lexer := if x.inBrackets then x else x.closeTo column

/-- Opens a block at a column that is deeper than the one that is open; its token goes to a given place. -/
def openBlock (x : Lexer) (column place : Nat) (start : Token) : Lexer :=
  if x.indent < column then
    { x with
      tokens := x.tokens.insertIdxIfInBounds place start
      outerIndents := x.indent :: x.outerIndents
      indent := column }
  else x

/-- Opens a block here. -/
def openHere (x : Lexer) (start : Token) : Option Lexer :=
  if x.inBrackets then some x
  else if x.keyAllowed then some (x.openBlock x.cursor.column x.tokens.size start)
  else none

/-- A mark between documents. -/
def separator (x : Lexer) (t : Token) : Option Lexer :=
  (x.closeBlocks (-1)).dropPlace.map fun x => { (x.emit t).step 3 with keyAllowed := false }

def openBracket (x : Lexer) (t : Token) : Option Lexer :=
  x.savePlace.map fun x => { (x.emit t).step 1 with depth := x.depth + 1, keyAllowed := true }

def closeBracket (x : Lexer) (t : Token) : Option Lexer :=
  if x.inBrackets then x.dropPlace.map fun x => { (x.emit t).step 1 with depth := x.depth - 1, keyAllowed := false }
  else none

def comma (x : Lexer) : Option Lexer :=
  x.dropPlace.map fun x => { (x.emit .comma).step 1 with keyAllowed := true }

def dash (x : Lexer) : Option Lexer :=
  (x.openHere .listStart).bind fun x => x.dropPlace.map fun x => { (x.emit .dash).step 1 with keyAllowed := true }

/-- An explicit key. -/
def question (x : Lexer) : Option Lexer :=
  (x.openHere .mappingStart).bind fun x =>
    x.dropPlace.map fun x => { (x.emit .key).step 1 with keyAllowed := !x.inBrackets }

/-- A colon: what started at the remembered place was a key. -/
def colon (x : Lexer) : Option Lexer :=
  match Ledger.get? x.keyPlaces x.depth with
  | some k =>
    let x := { x with
      keyPlaces := Ledger.erase x.keyPlaces x.depth
      tokens := x.tokens.insertIdxIfInBounds k.before .key
      keyAllowed := false }
    let x := if x.inBrackets then x else x.openBlock k.start.column k.before .mappingStart
    some ((x.emit .value).step 1)
  | none =>
    (x.openHere .mappingStart).bind fun x =>
      x.dropPlace.map fun x => { (x.emit .value).step 1 with keyAllowed := !x.inBrackets }

def quotedScalar (x : Lexer) : Option Lexer :=
  x.savePlace.bind fun x =>
    (quoted x.cursor).map fun (text, cursor) => { x.emit (.scalar text false) with cursor, keyAllowed := false }

def plainScalar (x : Lexer) : Option Lexer :=
  x.savePlace.map fun x =>
    let (text, broken, cursor) := plain x.inBrackets (x.indent + 1).toNat x.cursor
    { x.emit (.scalar text true) with cursor, keyAllowed := broken }

def blockScalar (x : Lexer) (folded : Bool) : Option Lexer :=
  x.dropPlace.bind fun x =>
    (block folded (max 1 (x.indent + 1).toNat) x.cursor.step).map fun (text, cursor) =>
      { x.emit (.scalar text false) with cursor, keyAllowed := true }

/-- The name of a node or a reference to it. -/
def name (x : Lexer) (t : String → Token) : Option Lexer :=
  x.savePlace.bind fun x =>
    (nameHere x.cursor.step).map fun (name, cursor) => { x.emit (t name) with cursor, keyAllowed := false }

def tag (x : Lexer) : Option Lexer :=
  x.savePlace.bind fun x =>
    (tagHere x.cursor).map fun (t, cursor) => { x.emit (.tag t) with cursor, keyAllowed := false }

/-- Reads the token that starts here. -/
def token (x : Lexer) : Option Lexer :=
  let c := x.cursor
  let alone := x.inBrackets || startsGap (c.rest.drop 1)
  if c.column == 0 && c.atMark "---" then x.separator .documentStart
  else if c.column == 0 && c.atMark "..." then x.separator .documentEnd
  else match c.peek with
    | '[' => x.openBracket .openList
    | '\x7b' => x.openBracket .openMapping
    | ']' => x.closeBracket .closeList
    | '\x7d' => x.closeBracket .closeMapping
    | ',' => x.comma
    | '\x27' => x.quotedScalar
    | '\x22' => x.quotedScalar
    | '&' => x.name .anchor
    | '*' => x.name .reference
    | '!' => x.tag
    | char =>
      if char == '-' && startsGap (c.rest.drop 1) then x.dash
      else if char == '?' && alone then x.question
      else if char == ':' && alone then x.colon
      else if (char == '|' || char == '>') && !x.inBrackets then x.blockScalar (char == '>')
      else if startsPlain x.inBrackets c then x.plainScalar
      else none

/-- Reads tokens up to the end of the text. -/
def run : Nat → Lexer → Option (List Token)
  | 0, _ => none
  | fuel + 1, x =>
    match (x.skipGap (x.cursor.rest.length + 1)).dropStale with
    | none => none
    | some x =>
      let x := x.closeBlocks x.cursor.column
      if x.cursor.rest.isEmpty then ((x.closeBlocks (-1)).dropPlace).map fun x => x.tokens.toList
      else match x.token with
        | none => none
        | some x => run fuel x

end Lexer

/-- Whether a character may occur in a document. -/
def isDocumentChar (c : Char) : Bool :=
  let n := c.toNat
  c == '\t' || c == '\n' || (' ' ≤ c && c ≤ '~') || n == 0x85 || (0xa0 ≤ n && n < 0xd800) ||
    (0xe000 ≤ n && n ≤ 0xfffd) || 0x10000 ≤ n

/-- A mark of the byte order may stand in front. -/
def dropByteOrderMark : List Char → List Char
  | '\ufeff' :: cs => cs
  | cs => cs

/-- The tokens of a text. -/
def tokens (s : String) : Option (List Token) :=
  let cs := s.toList
  if cs.all isDocumentChar then Lexer.run (cs.length + 1) { cursor := { rest := dropByteOrderMark cs } } else none

end Backprop.Yaml
