import Backprop.Datum.Display
import Backprop.Fault

/-!
# Values

What can be handed around where nodes and entries are expected: plain data,
nodes, entries, lists of values, and objects that are only known by their kind,
identity and text. Nodes are known by their place in a heap, and an entry is one
output of a node.
-/

namespace Backprop

structure NodeId where
  index : Nat
  deriving DecidableEq, Repr, Inhabited

/-- One output of a node. -/
structure Entry where
  node : NodeId
  index : Nat
  deriving DecidableEq, Repr, Inhabited

/-- Something that is neither data nor part of a graph. -/
structure Object where
  kind : String
  identity : Nat
  /-- The text that stands for the object in messages. -/
  text : String := ""
  truth : Bool := true
  /-- Whether the object can serve as the key of a lookup. -/
  hashable : Bool := true
  deriving DecidableEq, Repr, Inhabited

inductive Value where
  | data (d : Datum)
  | node (n : NodeId)
  | entry (e : Entry)
  | list (items : List Value)
  | object (o : Object)
  deriving Inhabited

namespace Value

def null : Value := data .null

/-- The name of a value's type as it stands in messages. -/
def kind : Value → String
  | data d => d.kind
  | node _ => "Node"
  | entry _ => "NodeEntry"
  | list _ => "list"
  | object o => o.kind

def isNull : Value → Bool
  | data .null => true
  | _ => false

def truth : Value → Bool
  | data d => d.truth
  | list items => !items.isEmpty
  | object o => o.truth
  | _ => true

/-- Nothing is no value. -/
def some? (v : Value) : Option Value := if v.isNull then none else some v

def ofOption : Option Value → Value
  | some v => v
  | none => null

def ofEntries (es : List Entry) : Value := list (es.map entry)

def entry? : Value → Option Entry
  | entry e => some e
  | _ => none

def node? : Value → Option NodeId
  | node n => some n
  | _ => none

/-- The items of what can be gone through: lists, the characters of a text, the keys of a dictionary, the node and
index of an entry. -/
def items : Value → Except Fault (List Value)
  | list items => .ok items
  | data (.list items) => .ok (items.map data)
  | data (.text s) => .ok (s.toList.map fun c => data (.text (String.singleton c)))
  | data (.dict entries) => .ok (entries.map fun p => data p.1.toDatum)
  | entry e => .ok [node e.node, data (.int e.index)]
  | _ => .error (.misuse .notIterable)

/-- Lists, dictionaries and some objects cannot serve as keys of a lookup. -/
def hashable : Value → Bool
  | data d => d.hashable
  | list _ => false
  | object o => o.hashable
  | _ => true

/-- The node where a traversal starts. -/
def head : Value → Except Fault NodeId
  | node n => .ok n
  | entry e => .ok e.node
  | v => .error (.misuse (if v.hashable then .noMethod else .notHashable))

/-- The nodes that values stand for, up to the first that stands for none, and why it does not. -/
def heads : List Value → List NodeId × Except Fault Unit
  | [] => ([], .ok ())
  | v :: rest =>
    match head v with
    | .error e => ([], .error e)
    | .ok n => (n :: (heads rest).1, (heads rest).2)

/-- Equality: nodes by place, entries by node and index, data by value, objects by identity. -/
def same : Value → Value → Bool
  | data a, data b => a.same b
  | node a, node b => a == b
  | entry a, entry b => a == b
  | object a, object b => a.kind == b.kind && a.identity == b.identity
  | _, _ => false

/-- Equality of values that can serve as keys. -/
def equal (a b : Value) : Except Fault Bool :=
  if a.hashable && b.hashable then .ok (a.same b) else .error (.misuse .notHashable)

end Value

end Backprop
