import Backprop.Yaml.Style

/-!
# Places in a text

A cursor holds the characters that are still to be read and where in the text
they stand. At the end of the text it sees the character `\x00`, which cannot
occur in it.
-/

namespace Backprop.Yaml

structure Cursor where
  rest : List Char
  /-- How many characters have been passed. -/
  offset : Nat := 0
  line : Nat := 0
  column : Nat := 0

namespace Cursor

def peek (c : Cursor) : Char := c.rest.headD '\x00'

def step (c : Cursor) : Cursor :=
  match c.rest with
  | [] => c
  | char :: rest =>
    if isBreak char then { rest, offset := c.offset + 1, line := c.line + 1 }
    else if char = '\ufeff' then { c with rest, offset := c.offset + 1 }
    else { c with rest, offset := c.offset + 1, column := c.column + 1 }

/-- Passes so many characters. -/
def skip : Nat → Cursor → Cursor
  | 0, c => c
  | n + 1, c => skip n c.step

/-- The characters from here on that have a property, and the place after them. -/
def span (c : Cursor) (p : Char → Bool) : List Char × Cursor :=
  let run := c.rest.takeWhile p
  (run, c.skip run.length)

def skipWhile (c : Cursor) (p : Char → Bool) : Cursor := (c.span p).2

/-- Whether a mark stands here with a gap after it. -/
def atMark (c : Cursor) (mark : String) : Bool :=
  mark.toList.isPrefixOf c.rest && startsGap (c.rest.drop mark.length)

/-- Whether a mark between documents stands here. -/
def atSeparator (c : Cursor) : Bool := c.atMark "---" || c.atMark "..."

end Cursor

/-- Line breaks of all kinds count as one, except the two that separate lines and paragraphs. -/
def breakChar (c : Char) : Char := if c = '\u0085' then '\n' else c

/-- A line break in a scalar together with the breaks after it: a single one is a blank. -/
def foldBreaks (first : Char) (further : List Char) : List Char :=
  if first ≠ '\n' then first :: further else if further.isEmpty then [' '] else further

end Backprop.Yaml
