import Backprop.Yaml.Cursor

/-!
# Reading quoted and plain scalars

A scalar may go on on the next lines: the breaks between its lines are folded
and the blanks around them dropped. Quoted scalars end at their quote, plain
ones at whatever has a meaning of its own.
-/

namespace Backprop.Yaml

/-- The breaks from here on, within quotes, with the blanks around them dropped. -/
def quotedBreaks : Nat → Cursor → Option (List Char × Cursor)
  | 0, _ => none
  | fuel + 1, c =>
    if c.atSeparator then none
    else
      let c := c.skipWhile isGapChar
      if isBreak c.peek then (quotedBreaks fuel c.step).map fun (more, rest) => (breakChar c.peek :: more, rest)
      else some ([], c)

/-- Blanks within quotes, or the breaks that they surround. -/
def quotedGap (c : Cursor) : Option (List Char × Cursor) :=
  let (blanks, c) := c.span isGapChar
  if isBreak c.peek then
    (quotedBreaks (c.rest.length + 1) c.step).map fun (more, rest) => (foldBreaks (breakChar c.peek) more, rest)
  else some (blanks, c)

def namedEscape? (c : Char) : Option Char :=
  match c with
  | '0' => some '\x00'
  | 'a' => some '\x07'
  | 'b' => some '\x08'
  | 't' => some '\t'
  | '\t' => some '\t'
  | 'n' => some '\n'
  | 'v' => some '\x0b'
  | 'f' => some '\x0c'
  | 'r' => some '\r'
  | 'e' => some '\x1b'
  | ' ' => some ' '
  | '"' => some '"'
  | '\\' => some '\\'
  | '/' => some '/'
  | 'N' => some '\u0085'
  | '_' => some '\u00a0'
  | 'L' => some '\u2028'
  | 'P' => some '\u2029'
  | _ => none

/-- How many hexadecimal digits follow a mark. -/
def codeWidth? (c : Char) : Option Nat :=
  match c with
  | 'x' => some 2
  | 'u' => some 4
  | 'U' => some 8
  | _ => none

/-- The character of a code in hexadecimal digits. -/
def codeChar? (width : Nat) (cs : List Char) : Option Char :=
  let digits := cs.take width
  if digits.length = width ∧ digits.all isHex then
    let n := natOf 16 digits
    if n < 0x110000 then some (if 0xd800 ≤ n ∧ n < 0xe000 then '\ufffd' else Char.ofNat n) else none
  else none

/-- What an escape stands for; the cursor is behind the backslash. -/
def escaped (c : Cursor) : Option (List Char × Cursor) :=
  match namedEscape? c.peek, codeWidth? c.peek with
  | some char, _ => some ([char], c.step)
  | none, some width => (codeChar? width c.step.rest).map fun char => ([char], c.step.skip width)
  | none, none => if isBreak c.peek then quotedBreaks (c.rest.length + 1) c.step else none

/-- The text up to the closing quote. -/
def quotedText (quote : Char) : Nat → Cursor → Option (List Char × Cursor)
  | 0, _ => none
  | fuel + 1, c =>
    let goOn (piece : List Char × Cursor) : Option (List Char × Cursor) :=
      (quotedText quote fuel piece.2).map fun (more, rest) => (piece.1 ++ more, rest)
    match c.rest with
    | [] => none
    | char :: rest =>
      if char = quote then
        if quote = Text.singleQuote ∧ rest.head? = some quote then goOn ([quote], c.skip 2) else some ([], c.step)
      else if char = '\\' ∧ quote = Text.doubleQuote then (escaped c.step).bind goOn
      else if isGapChar char || isBreak char then (quotedGap c).bind goOn
      else goOn ([char], c.step)

/-- A quoted scalar from its opening quote on. -/
def quoted (c : Cursor) : Option (String × Cursor) :=
  (quotedText c.peek (c.rest.length + 1) c.step).map fun (cs, rest) => (String.ofList cs, rest)

/-- Marks that separate the parts of a list or mapping in brackets. -/
def isBracketMark (c : Char) : Bool := c == ',' || c == '[' || c == ']' || c == '\x7b' || c == '\x7d'

/-- The characters of a plain scalar up to a gap or its end; the scalar may be within brackets. -/
def plainRun (inBrackets : Bool) : List Char → List Char
  | [] => []
  | c :: cs =>
    let ends := isGap c || (inBrackets && (c == '?' || isBracketMark c)) ||
      (c == ':' && (startsGap cs || (inBrackets && (cs.head?.map isBracketMark).getD false)))
    if ends then [] else c :: plainRun inBrackets cs

/-- Further breaks after the first, with the blanks between them dropped; nothing at a separator. -/
def plainBreaks : Nat → Cursor → Option (List Char) × Cursor
  | 0, c => (none, c)
  | fuel + 1, c =>
    let c := c.skipWhile (· == ' ')
    if isBreak c.peek then
      if c.step.atSeparator then (none, c.step)
      else
        let (more, rest) := plainBreaks fuel c.step
        (more.map (breakChar c.peek :: ·), rest)
    else (some [], c)

/-- What separates two runs of a plain scalar, if anything does, and whether it is a line break. -/
def plainGap (c : Cursor) : List Char × Bool × Cursor :=
  let (blanks, c) := c.span (· == ' ')
  if isBreak c.peek then
    if c.step.atSeparator then ([], true, c.step)
    else match plainBreaks (c.rest.length + 1) c.step with
      | (none, rest) => ([], true, rest)
      | (some more, rest) => (foldBreaks (breakChar c.peek) more, true, rest)
  else (blanks, false, c)

/-- A plain scalar whose further lines are indented at least so far, and whether a line break follows it. -/
def plainText (inBrackets : Bool) (indent : Nat) : Nat → Cursor → List Char × Bool × Cursor
  | 0, c => ([], false, c)
  | fuel + 1, c =>
    let run := plainRun inBrackets c.rest
    let (gap, broken, next) := plainGap (c.skip run.length)
    if gap.isEmpty || next.peek == '#' || (!inBrackets && next.column < indent) || (plainRun inBrackets next.rest).isEmpty
    then (run, broken, next)
    else
      let (more, broken, rest) := plainText inBrackets indent fuel next
      (run ++ gap ++ more, broken, rest)

def plain (inBrackets : Bool) (indent : Nat) (c : Cursor) : String × Bool × Cursor :=
  let (cs, broken, rest) := plainText inBrackets indent (c.rest.length + 1) c
  (String.ofList cs, broken, rest)

/-- Marks that cannot start a plain scalar. -/
def isLeadMark (c : Char) : Bool := isGap c || leadIndicators.contains c

/-- Whether a plain scalar starts here; some marks do if no gap follows. -/
def startsPlain (inBrackets : Bool) (c : Cursor) : Bool :=
  let solid := !startsGap (c.rest.drop 1)
  if c.peek == '-' then solid
  else if c.peek == '?' || c.peek == ':' then solid && !inBrackets
  else !isLeadMark c.peek

end Backprop.Yaml
