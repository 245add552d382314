import Backprop.Gradient.Selector

/-!
# Mirroring

A mirrored node is a copy of a forward node that reads from the mirrored copies
of its producers. Rules that read forward values through mirrored nodes
recompute them instead of keeping them alive. The map takes every node to
itself or to its copy; it is built along an order in which producers come
before their consumers, and existing nodes are not changed.
-/

namespace Backprop

abbrev MirrorMap := Ledger NodeId NodeId

namespace MirrorMap

def source : String := "gradpass.autodiff.mirror"

/-- The image of a node that a mirrored node depends on. -/
def image (m : MirrorMap) (h : Heap) (n : NodeId) : Except Fault NodeId :=
  match Ledger.get? m n with
  | some n => .ok n
  | none => .error (.gradient (.mirroredOutOfOrder (h.describe n)))

def imageInputs (m : MirrorMap) (h : Heap) : List Entry → Except Fault (List Entry)
  | [] => .ok []
  | e :: rest =>
    match m.image h e.node with
    | .error fault => .error fault
    | .ok n => (imageInputs m h rest).map (⟨n, e.index⟩ :: ·)

def imageDeps (m : MirrorMap) (h : Heap) : List NodeId → Except Fault (List NodeId)
  | [] => .ok []
  | dep :: rest =>
    match m.image h dep with
    | .error fault => .error fault
    | .ok n => (imageDeps m h rest).map (n :: ·)

/-- The text to append to the names of copies. -/
def suffixText : Datum → Except Fault String
  | .text s => .ok s
  | _ => .error (.misuse .notText)

/-- A stray has no image. -/
def checkStrays (h : Heap) (node : Node) : Except Fault Unit :=
  match node.links.strayInput?, node.links.strayDep? with
  | some _, _ => .error (.misuse .noMethod)
  | none, some v =>
    .error (if v.hashable then .gradient (.mirroredOutOfOrder (h.display v)) else .misuse .notHashable)
  | none, none => .ok ()

/-- Adds the copy of a node that reads from images. -/
def copyNode (m : MirrorMap) (suffix : Datum) (n : NodeId) : Build NodeId := do
  let h ← Build.heap
  let node := h.node n
  let suffix ← Build.ofExcept (suffixText suffix)
  let inputs ← Build.ofExcept (m.imageInputs h node.inputs)
  let deps ← Build.ofExcept (m.imageDeps h node.deps)
  Build.ofExcept (checkStrays h node)
  Build.create (some (node.name ++ suffix)) { node with inputs, deps }

def extend (test : Selector) (suffix : Datum) (m : MirrorMap) (n : NodeId) : Build MirrorMap := do
  let node := (← Build.heap).node n
  if ← Build.ofExcept (test.holds n node) then
    return Ledger.put m n (← m.copyNode suffix n)
  else return Ledger.put m n n

def build (test : Selector) (suffix : Datum) : List NodeId → MirrorMap → Build MirrorMap
  | [], m => pure m
  | n :: rest, m => do build test suffix rest (← extend test suffix m n)

/-- How many nodes have a copy. -/
def copies (m : MirrorMap) : Nat := m.countP fun p => p.1 != p.2

end MirrorMap

namespace Build

/-- The suffix given, or else the one that is set. -/
def mirrorSuffix (suffix : Option Datum) : Build Datum :=
  match suffix with
  | some suffix => pure suffix
  | none => setting ["autodiff", "mirror_suffix"]

def logMirrored (copies total : Nat) : Build Unit :=
  log .debug MirrorMap.source s!"Mirrored {copies} of {total} nodes"

/-- The mirror map of an order; without a test there is none. -/
def mirrorMap (order : List NodeId) (test : Option Selector) (suffix : Option Datum) : Build (Option MirrorMap) := do
  match test with
  | none => return none
  | some test =>
    let m ← MirrorMap.build test (← mirrorSuffix suffix) order []
    logMirrored m.copies m.length
    return some m

end Build

/-! ## Orders that hold more than nodes -/

/-- A mirror map and the keys it was built for, among which there may be strays, which stand for themselves. -/
structure LooseMirrorMap where
  nodes : MirrorMap := []
  keys : List Value := []

namespace LooseMirrorMap

def addKey (keys : List Value) (v : Value) : List Value := if keys.any v.same then keys else keys ++ [v]

/-- A stray cannot be copied and has to be able to be a key. -/
def checkStray (test : Selector) (v : Value) : Except Fault Unit := do
  if (← test.stray).truth then throw (.misuse .noMethod)
  else if v.hashable then return ()
  else throw (.misuse .notHashable)

def build (test : Selector) (suffix : Datum) : List Value → LooseMirrorMap → Build LooseMirrorMap
  | [], m => pure m
  | .node n :: rest, m => do
    build test suffix rest ⟨← m.nodes.extend test suffix n, addKey m.keys (.node n)⟩
  | v :: rest, m => do
    Build.ofExcept (checkStray test v)
    build test suffix rest ⟨m.nodes, addKey m.keys v⟩

/-- The image of a key. -/
def image (m : LooseMirrorMap) : Value → Value
  | .node n => .node ((Ledger.get? m.nodes n).getD n)
  | v => v

end LooseMirrorMap

/-- The mirror map of an order that may hold strays. -/
def Build.looseMirrorMap (order : List Value) (test : Selector) (suffix : Option Datum) : Build LooseMirrorMap := do
  let m ← LooseMirrorMap.build test (← mirrorSuffix suffix) order {}
  logMirrored m.nodes.copies m.keys.length
  return m

end Backprop
