import Backprop.Datum.Basic
import Backprop.Extension.Hierarchy

/-!
# Extension points

Classes that can be made extension points, with a registry of other classes and
the arguments they are registered with. A class takes part in the registry of
the nearest class in its line that has one of its own.
-/

namespace Backprop

structure Extensions where
  classes : Hierarchy := .builtin
  registries : Array (Ledger Nat (Ledger String Datum)) := #[]
  deriving Inhabited

namespace Extensions

/-- Defines a class and gives its place. -/
def define (x : Extensions) (name : String) (bases : List Nat) (traits : PassTraits) : Except Fault (Nat × Extensions) :=
  (x.classes.define name bases traits).map fun classes => (x.classes.length, { x with classes })

/-- Gives a class a registry of its own. -/
def makeRegistry (x : Extensions) (i : Nat) : Extensions where
  classes := x.classes.modify i fun c => { c with registry := some x.registries.size }
  registries := x.registries.push []

/-- The registry a class takes part in. -/
def registryOf (x : Extensions) (i : Nat) : Option Nat := x.classes.inherited i ClassInfo.registry

def registered (x : Extensions) (base : Nat) : Except Fault (Ledger Nat (Ledger String Datum)) :=
  match x.registryOf base with
  | some r => .ok ((x.registries[r]?).getD [])
  | none => .error (.misuse .noMethod)

/-- No argument may be called like the parameter of a function. -/
def checkArgument (function name : String) (args : Ledger String Datum) : Except Fault Unit :=
  if Ledger.has args name then .error (.registry (.argumentRepeated function name)) else .ok ()

def checkRegistered (args : Ledger String Datum) : Except Fault Unit :=
  checkArgument "make_registry.<locals>.register" "subclass" args

def checkAutomatic (args : Ledger String Datum) : Except Fault Unit := checkArgument "autoregister" "cls" args

def register (x : Extensions) (base i : Nat) (args : Ledger String Datum) : Except Fault Extensions :=
  match x.registryOf base with
  | some r =>
    (checkRegistered args).map fun _ => { x with registries := x.registries.modify r fun l => Ledger.put l i args }
  | none => .error (.misuse .noMethod)

def unregister (x : Extensions) (base i : Nat) : Except Fault Extensions :=
  match x.registryOf base with
  | some r =>
    if Ledger.has ((x.registries[r]?).getD []) i then
      .ok { x with registries := x.registries.modify r fun l => Ledger.erase l i }
    else .error (.registry (.notRegistered s!"custom.{x.classes.nameOf i}"))
  | none => .error (.misuse .noMethod)

/-- Registers a class with every extension point among its bases. -/
def autoregister (x : Extensions) (i : Nat) (args : Ledger String Datum) : Except Fault Extensions := do
  checkAutomatic args
  match (x.classes.basesOf i).filter fun b => (x.registryOf b).isSome with
  | [] => throw (.registry (.notAnExtensionPoint (x.classes.nameOf i)))
  | points => points.foldlM (fun x b => x.register b i args) x

end Extensions

end Backprop
