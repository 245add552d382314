import Backprop.Text.Quoted

/-!
# Faults

Everything that can go wrong, by cause. The wording of each cause is in the
`message` function of its family.
-/

namespace Backprop

/-- Malformed graphs and operators. -/
inductive GraphFault where
  | entryOfNonNode (kind : String)
  | outputOutOfRange (index : Int) (node : String) (outputs : Int)
  | notANode (kind : String)
  | unknownOp (name : String)
  | opWithoutOutput (name : String)
  | opRedefined (name : String)
  | arity (op : String) (expected : Int) (got : Nat)
  | noAttribute (name : String)
  deriving DecidableEq, Repr

/-- Failures of a gradient construction. -/
inductive GradientFault where
  | notEntries (field : String)
  | seedCount (outputs seeds : Nat)
  | missingAttribute (name : String)
  | generatedTwice
  | noRule (op node : String)
  | gradientCount (op node : String) (got expected : Nat)
  | gradientKind (op node kind : String)
  | notMirrored (node : String)
  | mirroredOutOfOrder (node : String)
  | lateContribution (gradient : String)
  | unknownStrategy (name : String)
  | strategyWithoutTest (strategy : String)
  | namesRequired
  deriving DecidableEq, Repr

/-- A value of the wrong kind for what is done with it. -/
inductive Misuse where
  | notIterable
  | notCallable
  | notHashable
  | notIndexable
  | notAssignable
  | notAContainer
  | notText
  | noFileNamed
  | keywordTaken
  | noMethod
  | indexOutOfRange
  | wrongCount
  | notImplemented
  deriving DecidableEq, Repr

/-- Files that cannot be opened or read. -/
inductive FileFault where
  | missing
  | denied
  | isDirectory
  | notDirectory
  | malformed (path : String)
  | malformedSchema
  deriving DecidableEq, Repr

/-- Failed registrations and lookups of extensions. -/
inductive RegistryFault where
  | unnamedRule (implementation : String)
  | notRegistered (extension : String)
  | notAnExtensionPoint (name : String)
  | notAClass
  | notAnEnumeration
  | memberExists (name : String)
  | nameReused (title name : String)
  | reservedName (title name : String)
  | invalidNames (names : List String)
  | memberFixed (title name : String)
  | argumentRepeated (function name : String)
  | unknownPass (name : String)
  | inconsistentBases (names : List String)
  | duplicateBase (name : String)
  deriving DecidableEq, Repr

inductive Fault where
  | graph (cause : GraphFault)
  | gradient (cause : GradientFault)
  | misuse (cause : Misuse)
  | missingKey (key : String)
  | unvisited (node : String)
  | file (cause : FileFault)
  | registry (cause : RegistryFault)
  deriving DecidableEq, Repr

def GraphFault.message : GraphFault → String
  | entryOfNonNode kind => s!"Node entries must refer to a Node, got {kind}"
  | outputOutOfRange index node outputs => s!"Output index {index} out of range for node \"{node}\" with {outputs} outputs"
  | notANode kind => s!"Expected a Node or NodeEntry, got {kind}"
  | unknownOp name => s!"Operator \"{name}\" is not registered"
  | opWithoutOutput name => s!"Operator \"{name}\" must have at least one output"
  | opRedefined name => s!"Operator \"{name}\" is already registered with a different signature"
  | arity op expected got => s!"Operator \"{op}\" expects {expected} inputs, got {got}"
  | noAttribute name => s!"Graph attribute \"{name}\" does not exist"

def GradientFault.message : GradientFault → String
  | notEntries field => s!"Gradient expects {field} to be a list of NodeEntry objects"
  | seedCount outputs seeds =>
    s!"Gradient requires one seed gradient per output, got {outputs} outputs and {seeds} seed gradients"
  | missingAttribute name => s!"Gradient requires {name} to be present"
  | generatedTwice => "generate may only be called once. Instantiate a new GradientPassGenerator."
  | noRule op node => s!"No gradient implementation registered for operator '{op}' (node '{node}')"
  | gradientCount op node got expected =>
    s!"Gradient of operator '{op}' (node '{node}') returned {got} gradients for {expected} inputs"
  | gradientKind op node kind =>
    s!"Gradient of operator '{op}' (node '{node}') returned {kind} instead of a NodeEntry"
  | notMirrored node => s!"Node {node} is missing from the mirror map"
  | mirroredOutOfOrder node =>
    s!"Node {node} is missing from the mirror map; it was not visited before its consumers"
  | lateContribution gradient => s!"Gradient contribution {gradient} arrived after its value was aggregated"
  | unknownStrategy name => s!"Unknown mirror strategy '{name}'"
  | strategyWithoutTest strategy => s!"Mirror strategy {strategy} has no registered predicate factory"
  | namesRequired => "The UserDefined mirror strategy requires a list of node names to recompute"

def Misuse.message : Misuse → String
  | notIterable => "value is not iterable"
  | notCallable => "value is not callable"
  | notHashable => "value cannot be a key"
  | notIndexable => "value has no entries"
  | notAssignable => "value does not support assignment of entries"
  | notAContainer => "value is not a container"
  | notText => "value is not text"
  | noFileNamed => "no file is named"
  | keywordTaken => "keyword is already in use"
  | noMethod => "value has no such method"
  | indexOutOfRange => "index out of range"
  | wrongCount => "wrong number of values"
  | notImplemented => "not implemented"

def FileFault.message : FileFault → String
  | missing => "no such file"
  | denied => "permission denied"
  | isDirectory => "is a directory"
  | notDirectory => "not a directory"
  | malformed path => s!"Malformed gradpass configuration file \"{path}\""
  | malformedSchema => "malformed schema"

def RegistryFault.message : RegistryFault → String
  | unnamedRule implementation => s!"Expected name in arguments of implementation <class '{implementation}'>."
  | notRegistered extension => s!"<class '{extension}'>"
  | notAnExtensionPoint name => s!"{name} does not extend a registry class"
  | notAClass =>
    "metaclass conflict: the metaclass of a derived class must be a (non-strict) subclass of the metaclasses of all " ++
      "its bases"
  | notAnEnumeration => "Only aenum.Enum subclasses may be made extensible"
  | memberExists name => s!"{name} is already a member"
  | nameReused title name => s!"{Text.quote title}: attempt to reuse name: {Text.quote name}"
  | reservedName title name =>
    s!"{Text.quote title}: _sunder_ names, such as {Text.quote name}, are reserved for future Enum use"
  | invalidNames names => "invalid enum member name(s): " ++ ", ".intercalate names
  | memberFixed title name => s!"{title}: cannot rebind member {Text.quote name}."
  | argumentRepeated function name => s!"{function}() got multiple values for argument {Text.quote name}"
  | unknownPass name => Text.quote s!"Pass \"{name}\" is not registered"
  | inconsistentBases names =>
    "Cannot create a consistent method resolution\norder (MRO) for bases " ++ ", ".intercalate names
  | duplicateBase name => s!"duplicate base class {name}"

def Fault.message : Fault → String
  | graph cause => cause.message
  | gradient cause => cause.message
  | misuse cause => cause.message
  | missingKey key => Text.quote key
  | unvisited node => node
  | file cause => cause.message
  | registry cause => cause.message

end Backprop
