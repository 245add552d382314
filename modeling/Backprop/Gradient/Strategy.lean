import Backprop.Extension.Enumeration
import Backprop.Gradient.Selector

/-!
# Mirror strategies

A strategy makes, from the names a user gives, the test that selects the nodes
to recompute; it may also decide that nothing is. Strategies are numbered in
the order of their registration, and a strategy can be registered without such
a maker.
-/

namespace Backprop

/-- Makes a test from the names given, which may be nothing. -/
abbrev TestMaker := Datum → Except Fault (Option Selector)

/-- How a strategy is referred to: by a value, in general its name, or as a member. -/
inductive StrategyRef where
  | value (d : Datum)
  | member (name : String)

structure StrategyTable where
  members : List String
  makers : Ledger String TestMaker

namespace StrategyTable

def storeAll : TestMaker := fun _ => .ok none

def recomputeAll : TestMaker := fun _ => .ok (some Selector.operators)

def userDefined : TestMaker
  | .null => .error (.gradient .namesRequired)
  | names => (nameSet names).map fun names => some (Selector.operatorsNamed names)

/-- Selects exactly the nodes whose names are given, and nothing without names. -/
def byNames : TestMaker
  | .null => .ok none
  | names => (nameSet names).map fun names => some (Selector.names names)

def builtin : StrategyTable where
  members := ["StoreAll", "RecomputeAll", "UserDefined"]
  makers := [("StoreAll", storeAll), ("RecomputeAll", recomputeAll), ("UserDefined", userDefined)]

/-- The members with their numbers. -/
def numbered (t : StrategyTable) : List (String × Nat) := t.members.zipIdx 1

def addMember (t : StrategyTable) (name : String) : Except Fault StrategyTable :=
  (Enumeration.checkName t.members name).map fun _ => { t with members := t.members ++ [name] }

def register (t : StrategyTable) (name : String) (maker : TestMaker) : Except Fault StrategyTable :=
  (t.addMember name).map fun t => { t with makers := Ledger.put t.makers name maker }

/-- A member by name. -/
def member (t : StrategyTable) (name : String) : Except Fault StrategyRef :=
  if t.members.contains name then .ok (.member name) else .error (.missingKey name)

def makeFor (t : StrategyTable) (name : String) (names : Datum) : Except Fault (Option Selector) :=
  match Ledger.get? t.makers name with
  | some maker => maker names
  | none => .error (.gradient (.strategyWithoutTest s!"MirrorStrategy.{name}"))

/-- The test of a strategy. -/
def selector (t : StrategyTable) (strategy : StrategyRef) (names : Datum) : Except Fault (Option Selector) :=
  match strategy with
  | .member name => t.makeFor name names
  | .value (.text name) =>
    if t.members.contains name then t.makeFor name names else .error (.gradient (.unknownStrategy name))
  | .value d =>
    if d.hashable then .error (.gradient (.strategyWithoutTest d.display)) else .error (.misuse .notHashable)

end StrategyTable

end Backprop
