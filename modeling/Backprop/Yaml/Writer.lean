import Backprop.Yaml.Pen

/-!
# Writing YAML documents

Block style: one key or item to a line, keys in order if they can be compared,
mappings indented by two blanks below their key and lists at the indentation of
theirs. A key that does not fit on the line of its value is marked with a
question mark, and the value follows on a line of its own.
-/

namespace Backprop.Yaml

/-- The entries in the order of their keys, or as they are if the keys cannot be compared. -/
def inKeyOrder (entries : List (Key × Datum)) : List (Key × Datum) :=
  if Key.comparable (entries.map Prod.fst) then entries.mergeSort fun a b => a.1.le b.1 else entries

mutual

/-- Mappings with their keys in order, at every depth. -/
def sortKeys : Datum → Datum
  | .dict entries => .dict (inKeyOrder (sortEntries entries))
  | .list items => .list (sortItems items)
  | d => d

def sortItems : List Datum → List Datum
  | [] => []
  | x :: xs => sortKeys x :: sortItems xs

def sortEntries : List (Key × Datum) → List (Key × Datum)
  | [] => []
  | (k, x) :: xs => (k, sortKeys x) :: sortEntries xs

end

/-- The indentation below another; a document starts at the margin. -/
def deeper (indent : Option Nat) : Nat :=
  match indent with
  | none => 0
  | some n => n + 2

/-- Where the items of a list stand: at the indentation of the key that they follow, else deeper. -/
def itemIndent (indent : Option Nat) (inMapping : Bool) (pen : Pen) : Nat :=
  if inMapping && !pen.fresh then indent.getD 0 else deeper indent

/-- A scalar goes on two columns deeper than the collection it belongs to. -/
def scalarIndent (indent : Option Nat) : Nat := indent.getD 0 + 2

def writeScalar (indent : Option Nat) (d : Datum) (pen : Pen) : Pen :=
  writeStyled true (scalarIndent indent) (scalarText d) pen

/-- Writes a key up to where its value begins. -/
def writeKey (indent : Nat) (key : Key) (pen : Pen) : Pen :=
  let pen := pen.indentTo indent
  if isSimpleKey key then (writeStyled false (indent + 2) (scalarText key.toDatum) pen).close ':'
  else ((writeScalar (some indent) key.toDatum (pen.nest '?')).indentTo indent).nest ':'

mutual

/-- Writes a value of a collection at the given indentation. -/
def writeValue (indent : Option Nat) (inMapping : Bool) : Datum → Pen → Pen
  | .dict (e :: es), pen => writeEntries (deeper indent) (e :: es) pen
  | .list (x :: xs), pen => writeItems (itemIndent indent inMapping pen) (x :: xs) pen
  | d, pen => writeScalar indent d pen
termination_by structural d => d

def writeEntries (indent : Nat) : List (Key × Datum) → Pen → Pen
  | [], pen => pen
  | (key, value) :: rest, pen =>
    writeEntries indent rest (writeValue (some indent) true value (writeKey indent key pen))
termination_by structural entries => entries

def writeItems (indent : Nat) : List Datum → Pen → Pen
  | [], pen => pen
  | item :: rest, pen =>
    writeItems indent rest (writeValue (some indent) false item ((pen.indentTo indent).nest '-'))
termination_by structural items => items

end

/-- A plain scalar that is a whole document is closed by an end mark. -/
def endMark : Datum → String
  | .dict _ => ""
  | .list _ => ""
  | d => if (scalarText d).1 = .plain then "...\n" else ""

def render (d : Datum) : String :=
  let d := sortKeys d
  ((writeValue none false d {}).indentTo 0).text ++ endMark d

end Backprop.Yaml
