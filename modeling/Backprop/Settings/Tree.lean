import Backprop.Datum.Display
import Backprop.Fault

/-!
# Values by path

Plain data as a tree of entries. The entries of a dictionary are found by key
and those of a list by position. Asking whether a key occurs is also defined
for lists, by equality, and for text, by occurrence within it.
-/

namespace Backprop.Datum

/-- The place of an item among so many; negative positions count from the end. -/
def place (count : Nat) (position : Int) : Except Fault Nat :=
  let i := if position < 0 then position + count else position
  if i < 0 ∨ (count : Int) ≤ i then .error (.misuse .indexOutOfRange) else .ok i.toNat

/-- The position that a key can be. -/
def position? : Key → Option Int
  | .int i => some i
  | .bool b => some (Key.bit b)
  | _ => none

/-- The entry under a key. -/
def index (d : Datum) (key : Key) : Except Fault Datum :=
  match d, position? key with
  | dict entries, _ =>
    match Ledger.get? entries key with
    | some value => .ok value
    | none => .error (.missingKey key.display)
  | list items, some position => (place items.length position).map fun i => (items[i]?).getD null
  | text s, some position =>
    (place s.length position).map fun i => text (String.ofList ((s.toList.drop i).take 1))
  | _, _ => .error (.misuse .notIndexable)

def assign (d : Datum) (key : Key) (value : Datum) : Except Fault Datum :=
  match d, position? key with
  | dict entries, _ => .ok (dict (Ledger.put entries key value))
  | list items, some position => (place items.length position).map fun i => list (items.set i value)
  | _, _ => .error (.misuse .notAssignable)

/-- Whether one list of characters occurs within the other. -/
def occurs (part : List Char) : List Char → Bool
  | [] => part.isEmpty
  | c :: cs => part.isPrefixOf (c :: cs) || occurs part cs

def contains (d : Datum) (key : Key) : Except Fault Bool :=
  match d, key with
  | dict entries, key => .ok (Ledger.has entries key)
  | list items, key => .ok (items.any fun item => item.same key.toDatum)
  | text s, .text part => .ok (occurs part.toList s.toList)
  | _, _ => .error (.misuse .notAContainer)

/-- The value at the end of a path. -/
def getPath (d : Datum) : List String → Except Fault Datum
  | [] => .ok d
  | key :: rest =>
    match d.index key with
    | .ok sub => sub.getPath rest
    | .error e => .error e

/-- Puts a value at the end of a path, below sections that have to be there. -/
def setPath (d : Datum) (path : List String) (value : Datum) : Except Fault Datum :=
  match path with
  | [] => .error (.misuse .indexOutOfRange)
  | [key] => d.assign key value
  | key :: rest =>
    match d.index key with
    | .error e => .error e
    | .ok sub =>
      match sub.setPath rest value with
      | .error e => .error e
      | .ok sub => d.assign key sub

end Backprop.Datum
