import Backprop.Datum.Basic

/-!
# The built-in schema

The settings of the gradient construction with their defaults.
-/

namespace Backprop.Settings

def leaf (type : String) (default : Datum) (title description : String) : Datum :=
  .dict [("type", .text type), ("default", default), ("title", .text title), ("description", .text description)]

def operatorNames : List (Key × Datum) :=
  [("zero_op", leaf "str" (.text "__zero__") "Zero operator"
      "Operator used by the default aggregator to represent an empty (zero) gradient.\n"),
   ("sum_op", leaf "str" (.text "__ewise_sum__") "Sum operator"
      "Operator used by the default aggregator to sum multiple partial gradients of the same value.\n"),
   ("seed_op", leaf "str" (.text "ones_like") "Seed operator"
      "Operator used to create head gradients when no seed is given for an output.\n")]

def mirroring : List (Key × Datum) :=
  [("mirror_suffix", leaf "str" (.text "_mirror") "Mirror node suffix"
      "Suffix appended to the name of nodes recomputed in the backward pass.\n"),
   ("mirror_strategy", leaf "str" (.text "StoreAll") "Mirror strategy"
      ("Default data forwarding strategy used when no mirror predicate is given. " ++
        "One of StoreAll, RecomputeAll, or UserDefined.\n"))]

def builtinEntries : List (Key × Datum) :=
  [("debugprint", leaf "bool" (.bool false) "Debug printing"
      ("Log every node visited by the gradient pass at INFO level " ++
        "(otherwise traversal details are logged at DEBUG level).\n")),
   ("autodiff", .dict
      [("type", .text "dict"),
       ("title", .text "Automatic differentiation"),
       ("description", .text "Symbolic gradient pass settings."),
       ("required", .dict (operatorNames ++ mirroring))])]

def builtinSchema : Datum :=
  .dict
    [("type", .text "dict"),
     ("title", .text "General"),
     ("description", .text "gradpass configuration file"),
     ("required", .dict builtinEntries)]

end Backprop.Settings
