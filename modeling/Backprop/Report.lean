import Backprop.Fault

/-!
# Reporting faults

A fault is reported by the name of its kind. Some kinds are reported together
with the wording of the fault.
-/

namespace Backprop

def Misuse.kind : Misuse → String
  | noMethod => "AttributeError"
  | indexOutOfRange => "IndexError"
  | wrongCount => "ValueError"
  | notImplemented => "NotImplementedError"
  | _ => "TypeError"

def GradientFault.kind : GradientFault → String
  | notEntries _ | seedCount _ _ | missingAttribute _ | generatedTwice => "GradientPreconditionError"
  | noRule _ _ => "MissingGradientError"
  | gradientCount _ _ _ _ | gradientKind _ _ _ => "GradientContractError"
  | notMirrored _ | mirroredOutOfOrder _ => "MirrorMapError"
  | _ => "AutoDiffException"

def FileFault.kind : FileFault → String
  | missing => "FileNotFoundError"
  | denied => "PermissionError"
  | isDirectory => "IsADirectoryError"
  | notDirectory => "NotADirectoryError"
  | malformed _ => "ValueError"
  | malformedSchema => "YAMLError"

def RegistryFault.kind : RegistryFault → String
  | unnamedRule _ | reservedName _ _ | invalidNames _ => "ValueError"
  | notRegistered _ | unknownPass _ => "KeyError"
  | memberFixed _ _ => "AttributeError"
  | _ => "TypeError"

namespace Fault

def kind : Fault → String
  | graph _ => "GraphError"
  | gradient cause => cause.kind
  | misuse cause => cause.kind
  | missingKey _ => "KeyError"
  | unvisited _ => "KeyError"
  | file cause => cause.kind
  | registry cause => cause.kind

/-- Whether the wording is part of the report. -/
def isWorded : Fault → Bool
  | misuse _ => false
  | file (.malformed _) => true
  | file _ => false
  | registry (.unnamedRule _) | registry (.notRegistered _) | registry (.unknownPass _) => true
  | registry _ => false
  | _ => true

end Fault

end Backprop
