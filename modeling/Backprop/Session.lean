import Backprop.Extension.Enumeration
import Backprop.Extension.Registry
import Backprop.Gradient.Differentiate
import Backprop.Graph.Isomorphism
import Backprop.Pass.Basic

/-!
# Sessions

Everything that lives between two requests: the workspace with its heap, the
registered operators, rules, strategies, passes and extensions, and the profile
of settings. Actions on a session keep what they have done when they fail.
-/

namespace Backprop

/-- The version that sessions report. -/
def version : String := "0.3.0"

structure Session where
  work : Workspace := {}
  ops : OpTable := .builtin
  profile : Profile := {}
  book : RuleBook := .builtins
  /-- The implementations defined so far in this session, by name. -/
  implementations : Ledger String Implementation := []
  strategies : StrategyTable := .builtin
  extensions : Extensions := {}

/-- An implementation that was defined in the session, by its name. -/
def Session.implementation? (s : Session) (name : String) : Option Implementation := Ledger.get? s.implementations name

/-- Actions on a session. -/
abbrev Act := EStateM Fault Session

namespace Act

def ofExcept {α : Type} : Except Fault α → Act α
  | .ok a => pure a
  | .error e => throw e

def ambient (s : Session) : Ambient := ⟨s.ops, s.profile⟩

/-- Building in the workspace of a session. -/
def build {α : Type} (act : Build α) : Act α := fun s =>
  match act (ambient s) s.work with
  | .ok a work => .ok a { s with work }
  | .error e work => .error e { s with work }

/-- Acting on the profile of a session. -/
def configure {α : Type} (act : Configure α) : Act α := fun s =>
  match act s.profile with
  | .ok a profile => .ok a { s with profile }
  | .error e profile => .error e { s with profile }

def heap : Act Heap := do return (← get).work.heap

/-! ## Nodes -/

/-- Attributes may not be called like a parameter. -/
def checkKeywords {α : Type} (taken : List String) (attrs : Ledger String α) : Act Unit :=
  if taken.any (Ledger.has attrs) then throw (.misuse .keywordTaken) else pure ()

def newVariable (name : Option String) (attrs : Ledger String Datum) : Act NodeId := do
  checkKeywords ["name"] attrs
  build (Build.create name { attrs })

def apply (op : Datum) (inputs : List Value) (name : Option String) (deps : List Value)
    (attrs : Ledger String Datum) : Act NodeId := do
  checkKeywords ["op_name", "name", "control_deps"] attrs
  build (Build.apply op inputs name deps attrs)

def findOp (name : Datum) : Act Op := build (Build.operator name)

/-- Applies an operator again and again, each time to the node made before. -/
def chain (op : Op) (stem : Option String) : Nat → Nat → Value → Act Value
  | 0, _, last => pure last
  | count + 1, i, last => do
    let inputs := List.replicate op.inputs.toNat last
    let n ← apply (.text op.name) inputs (stem.map fun s => s!"{s}{i}") [] []
    chain op stem count (i + 1) (.node n)

def copy (n : NodeId) (name : Option String) : Act NodeId := do
  let node := (← heap).node n
  build (Build.create (some (name.getD node.name)) node)

def updateNode (n : NodeId) (f : Node → Node) : Act Unit :=
  modify fun s => { s with work := { s.work with heap := s.work.heap.update n f } }

def setInputs (n : NodeId) (inputs : List Value) : Act Unit :=
  updateNode n fun node => node.withLinks { node.links with inputs }

def setDeps (n : NodeId) (deps : List Value) : Act Unit := updateNode n fun node => node.withLinks { node.links with deps }

/-- A graph with further attributes. -/
def withAttrs (g : Graph) (attrs : Ledger String Arg) : Act Graph := do
  checkKeywords ["self"] attrs
  return g.withAttrs attrs

/-- The nodes of a graph, each after those it depends on. -/
def order (g : Graph) : Act (List NodeId) := do
  let h ← heap
  ofExcept (g.check h)
  return g.order h

def view (g : Graph) : Act View := do
  let h ← heap
  ofExcept (g.check h)
  return g.view h

/-! ## Registries -/

def registerOp (op : Op) : Act Op := do
  let (op, ops) ← ofExcept ((← get).ops.register op)
  modify fun s => { s with ops }
  return op

/-- The implementation of a name, defined now if it is not known. -/
def implementation (name : String) (rule : Option Rule) (applies : Option Selector) : Act Implementation := do
  match Ledger.get? (← get).implementations name with
  | some known => return known
  | none =>
    let made : Implementation :=
      { name, path := s!"custom.{name}", rule, applies := applies.getD (.always (.ok (.bool true))) }
    modify fun s => { s with implementations := Ledger.put s.implementations name made }
    return made

/-- Registers an implementation; `automatic` says that its registry is found through its bases. -/
def registerRule (name : String) (rule : Option Rule) (applies : Option Selector) (args : Ledger String Datum)
    (automatic : Bool) : Act Nat := do
  let made ← implementation name rule applies
  if automatic then ofExcept (Extensions.checkAutomatic args)
  ofExcept (Extensions.checkRegistered args)
  modify fun s => { s with book := s.book.register made args }
  return (← get).book.length

def unregisterRule (implementation : Implementation) : Act Nat := do
  let book ← ofExcept ((← get).book.unregister implementation.path)
  modify fun s => { s with book }
  return book.length

def findRule (n : NodeId) : Act (Option Implementation) := do build ((← get).book.find n)

/-- Applies the rule for a node to given gradients. -/
def callRule (n : NodeId) (grads : List Value) : Act (List Value) := do
  match ← findRule n with
  | none => throw (.misuse .noMethod)
  | some implementation =>
    match implementation.rule with
    | none => throw (.misuse .notIterable)
    | some rule => build (rule n grads)

def registerStrategy (name : String) (maker : TestMaker) : Act Unit := do
  let strategies ← ofExcept ((← get).strategies.register name maker)
  modify fun s => { s with strategies }

def addStrategy (name : String) : Act Unit := do
  let strategies ← ofExcept ((← get).strategies.addMember name)
  modify fun s => { s with strategies }

def strategyTest (strategy : StrategyRef) (names : Datum) : Act (Option Selector) := do
  ofExcept ((← get).strategies.selector strategy names)

def changeExtensions (f : Extensions → Except Fault Extensions) : Act Unit := do
  let extensions ← ofExcept (f (← get).extensions)
  modify fun s => { s with extensions }

/-- Defines a class and gives its place. -/
def defineClass (name : String) (bases : List Nat) (traits : PassTraits) : Act Nat := do
  let (i, extensions) ← ofExcept ((← get).extensions.define name bases traits)
  modify fun s => { s with extensions }
  return i

/-! ## Gradients -/

def gradients (ys xs : Value) (o : Options) : Act (List Entry) := do
  let s ← get
  build (Build.gradients s.book s.strategies ys xs o)

def differentiate (g : Graph) : Act Graph := do build (Build.differentiate (← get).book g)

/-- Runs a sweep and gives it back as it is afterwards, also when it has failed. -/
def runSweep (sweep : Sweep) : Act (Sweep × Except Fault Graph) := fun s =>
  match sweep.run s.book (ambient s) s.work with
  | .ok g stage => .ok (stage.sweep, .ok g) { s with work := stage.work }
  | .error e stage => .ok (stage.sweep, .error e) { s with work := stage.work }

/-- What a gradient pass reports on its result. -/
def report (g : Graph) : Act String := do
  return s!"Built {g.outputs.length} gradients ({(← order g).length} nodes)."

/-! ## Settings -/

def warn (text : String) : Act Unit :=
  modify fun s => { s with work := { s.work with trace := s.work.trace.push (.warned text) } }

def notSaved : String :=
  "No gradpass configuration file is loaded and no path was given, configuration not saved"

def save (file : Option String) (everything : Bool) : Act Unit := do
  unless ← configure (Configure.save file everything) do warn notSaved

def setSetting (path : List String) (value : Datum) (autosave : Bool) : Act Unit := do
  unless ← configure (Configure.set path value autosave) do warn notSaved

def setVariable (name : String) (value : Option String) : Act Unit :=
  modify fun s =>
    let env := match value with
      | some v => Ledger.put s.profile.env name v
      | none => Ledger.erase s.profile.env name
    { s with profile := { s.profile with env } }

def putFile (path content : String) : Act Unit :=
  modify fun s => { s with profile := { s.profile with disk := s.profile.disk.put path (.text content) } }

/-- The events since the last call. -/
def takeTrace : Act (List Event) := do
  let trace := (← get).work.trace
  modify fun s => { s with work := { s.work with trace := #[] } }
  return trace.toList

end Act

/-- A session with its settings loaded. -/
def Session.start (env : Environment) (disk : Disk) : Except Fault Session :=
  match Act.configure Configure.boot { profile := { env, disk } } with
  | .ok _ s => .ok s
  | .error e _ => .error e

end Backprop
