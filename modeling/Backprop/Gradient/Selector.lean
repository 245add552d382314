import Backprop.Arg

/-!
# Tests on nodes

A small language of node tests. A test that is absent cannot be called, which
only shows when a test built from it is.
-/

namespace Backprop

/-- The names in a collection: the items of a list, the characters of a text, the keys of a dictionary. -/
def nameSet : Datum → Except Fault (List String)
  | .list items =>
    if items.all Datum.hashable then .ok (items.filterMap fun | .text s => some s | _ => none)
    else .error (.misuse .notHashable)
  | .text s => .ok (s.toList.map String.singleton)
  | .dict entries => .ok (entries.filterMap fun p => p.1.text?)
  | _ => .error (.misuse .notIterable)

namespace Selector

/-- A test of what only nodes have. -/
def ofNode (test : Node → Datum) : Selector := ⟨fun _ node => .ok (test node), .error (.misuse .noMethod)⟩

def const (value : Datum) : Selector := .always (.ok value)

def names (names : List String) : Selector := .ofNode fun node => .bool (names.contains node.name)

def ops (ops : List String) : Selector := .ofNode fun node => .bool (ops.contains node.opName)

def attr (key : String) : Selector := .ofNode fun node => (Ledger.get? node.attrs key).getD .null

def minInputs (count : Int) : Selector := .ofNode fun node => .bool (count ≤ node.links.inputs.length)

/-- Calls a test that may be absent. -/
def call (test : Option Selector) : Selector := test.getD (.always (.error (.misuse .notCallable)))

def negation (outcome : Except Fault Datum) : Except Fault Datum := outcome.map fun d => .bool !d.truth

def negate (test : Option Selector) : Selector where
  test n node := negation ((call test).test n node)
  stray := negation (call test).stray

/-- Whether all outcomes are true; the first that is not decides. -/
def conjunction (outcome : Selector → Except Fault Datum) : List (Option Selector) → Except Fault Datum
  | [] => .ok (.bool true)
  | test :: rest =>
    match outcome (call test) with
    | .ok d => if d.truth then conjunction outcome rest else .ok (.bool false)
    | .error e => .error e

def all (tests : List (Option Selector)) : Selector where
  test n node := conjunction (fun s => s.test n node) tests
  stray := conjunction Selector.stray tests

/-- Every node that applies an operator. -/
def operators : Selector := .ofNode fun node => .bool !node.isVariable

/-- The operator nodes of given names. -/
def operatorsNamed (names : List String) : Selector :=
  .ofNode fun node => .bool (!node.isVariable && names.contains node.name)

end Selector

end Backprop
