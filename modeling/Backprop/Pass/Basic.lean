import Backprop.Extension.Hierarchy

/-!
# Passes

The classes built on the class of passes. A pass that can be constructed by
name is a concrete class among them, the class of passes itself excepted.
-/

namespace Backprop.Hierarchy

def isConcrete (t : Hierarchy) (i : Nat) : Bool :=
  match t[i]? with
  | some c => !c.traits.isAbstract
  | none => false

/-- Adds a class to those found, unless it is abstract or has been found before. -/
def collect (t : Hierarchy) (found : List Nat) (i : Nat) : List Nat :=
  if t.isConcrete i && !found.contains i then found ++ [i] else found

/-- A turn of the search takes the first pending class, collects it and puts the classes built on it before the others. A
search is at a list of pending classes and a list of those found. -/
def Advances (t : Hierarchy) (after before : List Nat × List Nat) : Prop :=
  ∃ i rest, before.1 = i :: rest ∧ after = ((t.subclasses i).reverse ++ rest, t.collect before.2 i)

/-- The search goes on until nothing is pending. A class is taken as often as there are ways to it, so the search ends only
if there is an end to the ways. -/
def explore (t : Hierarchy) : List Nat × List Nat → List Nat :=
  WellFounded.extrinsicFix t.Advances fun search go =>
    match h : search.1 with
    | [] => search.2
    | i :: rest => go ((t.subclasses i).reverse ++ rest, t.collect search.2 i) ⟨i, rest, h, rfl⟩

/-- The concrete classes built on a class, in the order of their definition. -/
def concrete (t : Hierarchy) (base : Nat) : List Nat :=
  let found := t.explore ((t.subclasses base).reverse, [])
  (List.range t.length).filter found.contains

def isPass (t : Hierarchy) (i : Nat) : Bool := (t.lineOf i).contains pass

/-- The concrete passes built on a pass. -/
def passesBelow (t : Hierarchy) (base : Nat) : Except Fault (List Nat) :=
  if t.isPass base then .ok (t.concrete base) else .error (.misuse .noMethod)

/-- The concrete pass of a name. -/
def findPass (t : Hierarchy) (name : String) : Except Fault Nat :=
  match (t.concrete pass).find? fun i => t.nameOf i == name with
  | some i => .ok i
  | none => .error (.registry (.unknownPass name))

def trait {α : Type} (t : Hierarchy) (i : Nat) (field : PassTraits → Option α) : Option α :=
  t.inherited i fun c => field c.traits

def modifies (t : Hierarchy) (i : Nat) : Except Fault Modified :=
  match t.trait i PassTraits.modifies with
  | some expr => do (← expr.eval).parts?
  | none => .error (.misuse .notImplemented)

/-- Whether a pass is to be applied again after something was modified. -/
def shouldReapply (t : Hierarchy) (i : Nat) (modified : Modified.Outcome) : Except Fault Bool :=
  match t.trait i PassTraits.reapply with
  | some expr => do return (← modified.inter (← expr.eval)).isTrue
  | none => .error (.misuse .notImplemented)

def category (t : Hierarchy) (i : Nat) : String := (t.trait i PassTraits.category).getD ""

def attributes (t : Hierarchy) (i : Nat) : List String := (t.trait i PassTraits.attributes).getD []

/-- The names of the passes that have to be applied first. -/
def dependsOn (t : Hierarchy) (i : Nat) : List String := (t.trait i PassTraits.dependsOn).getD []

def differentiates (t : Hierarchy) (i : Nat) : Bool := (t.trait i PassTraits.differentiates).getD false

end Backprop.Hierarchy
