import Backprop.Datum.Basic

/-!
# Reading records

Plain data read as a record of named fields. A field that is absent reads as
nothing, and data of another kind as the empty case of the kind asked for.
-/

namespace Backprop.Datum

def field (d : Datum) (name : String) : Datum :=
  match d with
  | dict entries => (Ledger.get? entries (.text name)).getD null
  | _ => null

def hasField (d : Datum) (name : String) : Bool :=
  match d with
  | dict entries => Ledger.has entries (.text name)
  | _ => false

def elements : Datum → List Datum
  | list items => items
  | _ => []

/-- The element at a position. -/
def element (d : Datum) (i : Nat) : Datum := (d.elements[i]?).getD null

def text? : Datum → Option String
  | text s => some s
  | _ => none

def asText (d : Datum) : String := d.text?.getD ""

def asTexts (d : Datum) : List String := d.elements.map asText

def asInt : Datum → Int
  | int i => i
  | _ => 0

def isNull : Datum → Bool
  | null => true
  | _ => false

/-- Nothing is no datum. -/
def some? (d : Datum) : Option Datum := if d.isNull then none else some d

end Backprop.Datum
