import Backprop.Fault
import Backprop.Ledger

/-!
# Operators

An operator is known by its name and carries how many inputs it takes (any
number, if negative) and how many outputs it has. The table of registered
operators only grows, and a name never changes its signature.
-/

namespace Backprop

structure Op where
  name : String
  inputs : Int := 1
  outputs : Int := 1
  description : String := ""
  deriving DecidableEq, Repr, Inhabited

namespace Op

/-- Equality of operators, which leaves out the description. -/
def sameSignature (a b : Op) : Bool := a.name == b.name && a.inputs == b.inputs && a.outputs == b.outputs

/-- Whether the operator can be applied to this many inputs. -/
def accepts (op : Op) (count : Nat) : Bool := op.inputs < 0 || op.inputs == count

end Op

abbrev OpTable := Ledger String Op

namespace OpTable

def find (ops : OpTable) (name : String) : Except Fault Op :=
  match Ledger.get? ops name with
  | some op => .ok op
  | none => .error (.graph (.unknownOp name))

/-- Registering the same signature again gives back the operator that is there. -/
def register (ops : OpTable) (op : Op) : Except Fault (Op × OpTable) :=
  if op.outputs < 1 then .error (.graph (.opWithoutOutput op.name))
  else match Ledger.get? ops op.name with
    | some existing =>
      if existing.sameSignature op then .ok (existing, ops) else .error (.graph (.opRedefined op.name))
    | none => .ok (op, Ledger.put ops op.name op)

end OpTable

/-- The operators every session starts with. -/
def builtinOps : List Op :=
  [{ name := "__zero__", inputs := 0, description := "Zero-valued gradient (no gradient flows)" },
   { name := "__ewise_sum__", inputs := -1, description := "Element-wise sum of all inputs" },
   { name := "ones_like", description := "Ones in the shape of the input" },
   { name := "zeros_like", description := "Zeros in the shape of the input" },
   { name := "copy", description := "Identity" },
   { name := "negative", description := "Element-wise negation" },
   { name := "exp", description := "Element-wise exponential" },
   { name := "log", description := "Element-wise natural logarithm" },
   { name := "relu", description := "Rectified linear unit" },
   { name := "relu_backward", inputs := 2, description := "Gradient of relu: (output gradient, relu input)" },
   { name := "elemwise_add", inputs := 2, description := "Element-wise addition" },
   { name := "elemwise_sub", inputs := 2, description := "Element-wise subtraction" },
   { name := "elemwise_mul", inputs := 2, description := "Element-wise multiplication" },
   { name := "elemwise_div", inputs := 2, description := "Element-wise division" },
   { name := "split", outputs := 2, description := "Split input into two halves" },
   { name := "concatenate", inputs := 2, description := "Concatenate two inputs" }]

def OpTable.builtin : OpTable := builtinOps.map fun op => (op.name, op)

end Backprop
