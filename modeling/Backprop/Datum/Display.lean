import Backprop.Datum.Basic
import Backprop.Text.Quoted

/-!
# The text of plain data

`literal` writes a value as it stands inside a list, with quotes around text;
`display` is the same except that text stands for itself.
-/

namespace Backprop

def Key.literal : Key → String
  | null => "None"
  | bool b => if b then "True" else "False"
  | int i => toString i
  | float x => Decimal.render x
  | text s => Text.quote s

def Key.display : Key → String
  | text s => s
  | k => k.literal

namespace Datum

mutual

def literal : Datum → String
  | null => "None"
  | bool b => if b then "True" else "False"
  | int i => toString i
  | float x => Decimal.render x
  | text s => Text.quote s
  | list items => "[" ++ ", ".intercalate (literals items) ++ "]"
  | dict entries => "\x7b" ++ ", ".intercalate (pairLiterals entries) ++ "\x7d"

def literals : List Datum → List String
  | [] => []
  | x :: xs => literal x :: literals xs

def pairLiterals : List (Key × Datum) → List String
  | [] => []
  | (k, x) :: xs => (k.literal ++ ": " ++ literal x) :: pairLiterals xs

end

def display : Datum → String
  | text s => s
  | d => d.literal

end Datum

end Backprop
