import Backprop.Yaml.Cursor

/-!
# Reading block scalars

A block scalar holds the lines below its mark that are indented deeper than the
block around it. Its first line that is not empty sets the indentation unless
the mark gives it. The breaks between lines are kept, or folded except around
lines that start with a blank; of the breaks at the end one is kept, or none, or
all of them, as the mark says.
-/

namespace Backprop.Yaml

/-- What becomes of the line breaks at the end. -/
inductive Ending where
  | clip
  | strip
  | keep
  deriving DecidableEq, Repr

structure BlockMark where
  ending : Ending := .clip
  /-- The indentation of the lines, counted from the least one possible. -/
  indent : Option Nat := none

def ending? (c : Char) : Option Ending := if c == '+' then some .keep else if c == '-' then some .strip else none

/-- A digit that gives an indentation; zero is none. -/
def indentDigit (m : BlockMark) (c : Cursor) : Option (BlockMark × Cursor) :=
  if c.peek.isDigit then
    if c.peek == '0' then none else some ({ m with indent := some (digitValue c.peek) }, c.step)
  else some (m, c)

def endingSign (m : BlockMark) (c : Cursor) : BlockMark × Cursor :=
  match ending? c.peek with
  | some ending => ({ m with ending }, c.step)
  | none => (m, c)

/-- The sign and the digit after a mark, in either order. -/
def blockMark (c : Cursor) : Option (BlockMark × Cursor) :=
  if (ending? c.peek).isSome then
    let (m, c) := endingSign {} c
    indentDigit m c
  else (indentDigit {} c).map fun (m, c) => endingSign m c

/-- The start of the next line; before it there may only be a comment. -/
def nextLine (c : Cursor) : Option Cursor :=
  if c.peek == ' ' || isBreak c.peek || c.rest.isEmpty then
    let c := c.skipWhile (· == ' ')
    let c := if c.peek == '#' then c.skipWhile (!isBreak ·) else c
    if isBreak c.peek || c.rest.isEmpty then some c.step else none
  else none

/-- Empty lines in front of the first line, and the column of the deepest blank among them. -/
def leadingBreaks : Nat → Nat → Cursor → List Char × Nat × Cursor
  | 0, deepest, c => ([], deepest, c)
  | fuel + 1, deepest, c =>
    let c := c.skipWhile (· == ' ')
    let deepest := max deepest c.column
    if isBreak c.peek then
      let (more, deepest, rest) := leadingBreaks fuel deepest c.step
      (breakChar c.peek :: more, deepest, rest)
    else ([], deepest, c)

/-- Passes blanks up to a column. -/
def Cursor.indentTo (c : Cursor) (column : Nat) : Cursor :=
  c.skip ((c.rest.take (column - c.column)).takeWhile (· == ' ')).length

/-- Empty lines, and the next line from its indentation on. -/
def blockBreaks (indent : Nat) : Nat → Cursor → List Char × Cursor
  | 0, c => ([], c)
  | fuel + 1, c =>
    let c := c.indentTo indent
    if isBreak c.peek then
      let (more, rest) := blockBreaks indent fuel c.step
      (breakChar c.peek :: more, rest)
    else ([], c)

/-- What stands between two lines. -/
def blockJoint (folded : Bool) (first second : Cursor) (lineBreak further : List Char) : List Char :=
  if folded && lineBreak == ['\n'] && !isGapChar first.peek && !isGapChar second.peek then
    if further.isEmpty then [' '] else further
  else lineBreak ++ further

/-- The lines from here on, the break after the last one, the empty lines after that, and where they end. -/
def blockLines (folded : Bool) (indent : Nat) : Nat → Cursor → List Char × List Char × List Char × Cursor
  | 0, c => ([], [], [], c)
  | fuel + 1, c =>
    let line := c.rest.takeWhile (!isBreak ·)
    let stop := c.skip line.length
    let lineBreak := if stop.rest.isEmpty then [] else [breakChar stop.peek]
    let (further, next) := blockBreaks indent (stop.rest.length + 1) stop.step
    if next.column == indent && !next.rest.isEmpty then
      let (more, last) := blockLines folded indent fuel next
      (line ++ blockJoint folded c next lineBreak further ++ more, last)
    else (line, lineBreak, further, next)

def endOf (ending : Ending) (lineBreak further : List Char) : List Char :=
  match ending with
  | .clip => lineBreak
  | .strip => []
  | .keep => lineBreak ++ further

/-- A block scalar from behind its mark on; its lines are indented at least so far. -/
def block (folded : Bool) (least : Nat) (c : Cursor) : Option (String × Cursor) := do
  let (mark, c) ← blockMark c
  let c ← nextLine c
  let fuel := c.rest.length + 1
  let (breaks, indent, c) := match mark.indent with
    | some count =>
      let indent := least + count - 1
      let (breaks, c) := blockBreaks indent fuel c
      (breaks, indent, c)
    | none =>
      let (breaks, deepest, c) := leadingBreaks fuel 0 c
      (breaks, max least deepest, c)
  if c.column == indent && !c.rest.isEmpty then
    let (lines, lineBreak, further, c) := blockLines folded indent fuel c
    return (String.ofList (breaks ++ lines ++ endOf mark.ending lineBreak further), c)
  else return (String.ofList (endOf mark.ending [] breaks), c)

end Backprop.Yaml
