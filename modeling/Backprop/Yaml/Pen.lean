import Backprop.Yaml.Style

/-!
# Writing on lines of limited width

A pen writes characters and keeps the column. Long scalars go on on the next
line: after column 80 a single blank within the text is written as a line break
followed by the indentation, and between double quotes a line can be broken
anywhere with a backslash.
-/

namespace Backprop.Yaml

structure Pen where
  /-- What has been written, the last character first. -/
  written : List Char := []
  column : Nat := 0
  /-- Whether a blank or the start of the line comes last. -/
  spaced : Bool := true
  /-- Whether the line has only marks of nesting so far. -/
  fresh : Bool := true

/-- The column after which lines are broken. -/
def bestWidth : Nat := 80

namespace Pen

def text (pen : Pen) : String := String.ofList pen.written.reverse

def put (pen : Pen) (cs : List Char) : Pen :=
  { pen with written := cs.reverse ++ pen.written, column := pen.column + cs.length }

def breakLine (pen : Pen) : Pen := { written := '\n' :: pen.written }

/-- Goes to the indentation, on a new line unless the current one is still free there. -/
def indentTo (pen : Pen) (indent : Nat) : Pen :=
  let pen :=
    if !pen.fresh || indent < pen.column || (pen.column == indent && !pen.spaced) then pen.breakLine else pen
  if pen.column < indent then { pen.put (List.replicate (indent - pen.column) ' ') with spaced := true } else pen

/-- Writes a mark after a blank. -/
def mark (pen : Pen) (c : Char) : Pen :=
  { pen.put (if pen.spaced then [c] else [' ', c]) with spaced := false, fresh := false }

/-- Writes a mark right after what comes before. -/
def close (pen : Pen) (c : Char) : Pen := { pen.put [c] with spaced := false, fresh := false }

/-- Writes a mark after which a nested collection may begin on the same line. -/
def nest (pen : Pen) (c : Char) : Pen := { pen.mark c with fresh := pen.fresh }

/-- Writing goes on within a scalar. -/
def within (pen : Pen) : Pen := { pen with spaced := false, fresh := false }

end Pen

/-- Maximal runs of blanks, of breaks and of other characters. -/
def runs : List Char → List (List Char)
  | [] => []
  | c :: cs =>
    match runs cs with
    | (d :: ds) :: rest =>
      if (c == ' ') == (d == ' ') && isBreak c == isBreak d then (c :: d :: ds) :: rest else [c] :: (d :: ds) :: rest
    | rest => [c] :: rest

def writePlainRuns (split : Bool) (indent : Nat) : List (List Char) → Pen → Pen
  | [], pen => pen
  | run :: rest, pen =>
    writePlainRuns split indent rest
      (if run == [' '] && bestWidth < pen.column && split then (pen.indentTo indent).within else pen.put run)

def writePlain (split : Bool) (indent : Nat) (cs : List Char) (pen : Pen) : Pen :=
  writePlainRuns split indent (runs cs) (if pen.spaced then pen else pen.put [' ']).within

def doubled (c : Char) : List Char := if c = Text.singleQuote then [c, c] else [c]

/-- One run between single quotes; a break in the text takes a blank line more. -/
def writeQuotedRun (foldable : Bool) (indent : Nat) (run : List Char) (pen : Pen) : Pen :=
  match run with
  | '\n' :: _ => (run.foldl (fun pen _ => pen.breakLine) pen.breakLine).indentTo indent
  | [' '] => if foldable && bestWidth < pen.column then pen.indentTo indent else pen.put run
  | run => pen.put (run.flatMap doubled)

def writeQuotedRuns (split : Bool) (indent : Nat) : Bool → List (List Char) → Pen → Pen
  | _, [], pen => pen
  | first, run :: rest, pen =>
    writeQuotedRuns split indent false rest
      (writeQuotedRun (split && !first && !rest.isEmpty) indent run pen)

def writeSingle (split : Bool) (indent : Nat) (cs : List Char) (pen : Pen) : Pen :=
  (writeQuotedRuns split indent true (runs cs) (pen.mark Text.singleQuote)).close Text.singleQuote

def upperHex (width n : Nat) : List Char := (Text.hex width n).map Char.toUpper

def escapeName? (c : Char) : Option Char :=
  match c with
  | '\x00' => some '0'
  | '\x07' => some 'a'
  | '\x08' => some 'b'
  | '\t' => some 't'
  | '\n' => some 'n'
  | '\x0b' => some 'v'
  | '\x0c' => some 'f'
  | '\r' => some 'r'
  | '\x1b' => some 'e'
  | '"' => some '"'
  | '\\' => some '\\'
  | '\u0085' => some 'N'
  | '\u00a0' => some '_'
  | '\u2028' => some 'L'
  | '\u2029' => some 'P'
  | _ => none

/-- The escape of a character that cannot stand for itself. -/
def escape? (c : Char) : Option (List Char) :=
  match escapeName? c with
  | some name => some ['\\', name]
  | none =>
    let n := c.toNat
    if ' ' ≤ c && c ≤ '~' then none
    else if n < 0x100 then some ('\\' :: 'x' :: upperHex 2 n)
    else if n < 0x10000 then some ('\\' :: 'u' :: upperHex 4 n)
    else some ('\\' :: 'U' :: upperHex 8 n)

/-- Breaks a line between double quotes; a blank that starts the next line is escaped. -/
def breakEscaped (indent : Nat) (next : Option Char) (pen : Pen) : Pen :=
  let pen := ((pen.put ['\\']).indentTo indent).within
  if next == some ' ' then pen.put ['\\'] else pen

/-- Writes what follows an opening double quote; `held` is not written yet, the last character first. -/
def writeEscaped (split : Bool) (indent : Nat) (first : Bool) : List Char → List Char → Pen → Pen
  | [], held, pen => pen.put held.reverse
  | c :: rest, held, pen =>
    let breakable := split && !first && !rest.isEmpty
    match escape? c with
    | some escape =>
      let pen := (pen.put held.reverse).put escape
      writeEscaped split indent false rest []
        (if breakable && bestWidth + 1 < pen.column then breakEscaped indent rest.head? pen else pen)
    | none =>
      if breakable && (c == ' ' || held.isEmpty) && bestWidth < pen.column + held.length then
        writeEscaped split indent false rest [c] (breakEscaped indent (some c) (pen.put held.reverse))
      else writeEscaped split indent false rest (c :: held) pen

def writeDouble (split : Bool) (indent : Nat) (cs : List Char) (pen : Pen) : Pen :=
  (writeEscaped split indent true cs [] (pen.mark Text.doubleQuote)).close Text.doubleQuote

def writeStyled (split : Bool) (indent : Nat) : Style × List Char → Pen → Pen
  | (.plain, cs), pen => writePlain split indent cs pen
  | (.single, cs), pen => writeSingle split indent cs pen
  | (.double, cs), pen => writeDouble split indent cs pen

end Backprop.Yaml
