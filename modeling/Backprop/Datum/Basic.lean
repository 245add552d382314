import Backprop.Datum.Key

/-!
# Plain data

The values of attributes, registration arguments and settings: scalars, lists
and dictionaries. Equality is by value, so a truth value equals the number it
stands for and dictionaries are compared regardless of order.
-/

namespace Backprop

inductive Datum where
  | null
  | bool (b : Bool)
  | int (i : Int)
  | float (x : Float)
  | text (s : String)
  | list (items : List Datum)
  | dict (entries : List (Key × Datum))
  deriving Inhabited

/-- The scalar that a key is. -/
def Key.toDatum : Key → Datum
  | null => .null
  | bool b => .bool b
  | int i => .int i
  | float x => .float x
  | text s => .text s

namespace Datum

/-- The key that a scalar can be. -/
def key? : Datum → Option Key
  | null => some .null
  | bool b => some (.bool b)
  | int i => some (.int i)
  | float x => some (.float x)
  | text s => some (.text s)
  | _ => none

/-- The dictionary with text keys. -/
def ofFields (fields : Ledger String Datum) : Datum := dict (fields.map fun p => (.text p.1, p.2))

/-- The entries of a dictionary that are named by text. -/
def fields : Datum → Ledger String Datum
  | dict entries => entries.filterMap fun p => p.1.text?.map fun name => (name, p.2)
  | _ => []

/-- The name of a value's type as it stands in messages. -/
def kind : Datum → String
  | null => "NoneType"
  | bool _ => "bool"
  | int _ => "int"
  | float _ => "float"
  | text _ => "str"
  | list _ => "list"
  | dict _ => "dict"

/-- Nothing, zero and whatever is empty count as false. -/
def truth : Datum → Bool
  | null => false
  | bool b => b
  | int i => i != 0
  | float x => x != 0
  | text s => !s.isEmpty
  | list items => !items.isEmpty
  | dict entries => !entries.isEmpty

/-- Lists and dictionaries cannot serve as keys of a lookup. -/
def hashable (d : Datum) : Bool := d.key?.isSome

mutual

/-- Equality by value. -/
def same : Datum → Datum → Bool
  | null, null => true
  | bool a, bool b => a == b
  | bool a, int b => Key.bit a == b
  | bool a, float y => (Decimal.Parts.ofFloat y).isInt (Key.bit a)
  | int a, bool b => a == Key.bit b
  | int a, int b => a == b
  | int a, float y => (Decimal.Parts.ofFloat y).isInt a
  | float x, bool b => (Decimal.Parts.ofFloat x).isInt (Key.bit b)
  | float x, int b => (Decimal.Parts.ofFloat x).isInt b
  | float x, float y => x == y
  | text a, text b => a == b
  | list xs, list ys => sameItems xs ys
  | dict xs, dict ys => xs.length == ys.length && sameEntries xs ys
  | _, _ => false

def sameItems : List Datum → List Datum → Bool
  | [], [] => true
  | x :: xs, y :: ys => same x y && sameItems xs ys
  | _, _ => false

/-- Every entry of the first has an equal one in the second. -/
def sameEntries : List (Key × Datum) → List (Key × Datum) → Bool
  | [], _ => true
  | (k, x) :: xs, ys =>
    match Ledger.get? ys k with
    | some y => same x y && sameEntries xs ys
    | none => false

end

end Datum

end Backprop
