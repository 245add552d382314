import Backprop.Pass.Modified

/-!
# Classes

Classes in the order of their definition, so that bases come before the classes
built on them. Each class has a line: itself and all it is built on, in the
order in which they are asked. Lines are the usual linearisation: a class comes
before its bases, bases stand in the order given, and the orders of the bases
are kept. Whatever has no bases of its own is built on the class `object`.

A class may declare what it is as a pass; it takes over from its line whatever
it does not declare itself.
-/

namespace Backprop

/-- What a class declares as a pass. -/
structure PassTraits where
  isAbstract : Bool := false
  modifies : Option Modified.Expr := none
  /-- The modifications after which the pass is to be applied again. -/
  reapply : Option Modified.Expr := none
  category : Option String := none
  attributes : Option (List String) := none
  dependsOn : Option (List String) := none
  /-- Whether applying the pass differentiates the graph. -/
  differentiates : Option Bool := none
  deriving Inhabited

structure ClassInfo where
  name : String
  /-- The places of the bases in the hierarchy. -/
  bases : List Nat := []
  line : List Nat
  /-- The registry that belongs to the class itself. -/
  registry : Option Nat := none
  traits : PassTraits := {}
  deriving Inhabited

abbrev Hierarchy := List ClassInfo

namespace Hierarchy

/-- The place of the class that all others are built on. -/
def root : Nat := 0

/-- The place of the class that all passes are built on. -/
def pass : Nat := 1

/-- The place of the gradient pass. -/
def gradientPass : Nat := 2

def builtin : Hierarchy :=
  [{ name := "object", line := [root] },
   { name := "Pass", bases := [root], line := [pass, root],
     traits := { category := some "Helper", attributes := some [], dependsOn := some [], differentiates := some false } },
   { name := "GradientPass", bases := [pass], line := [gradientPass, pass, root],
     traits :=
      { modifies := some (.named "Everything")
        reapply := some (.union (.named "Topology") (.named "Attributes"))
        category := some "Autodiff"
        attributes := some ["grad_ys", "grad_ys_out_grad", "grad_xs"]
        differentiates := some true } }]

def nameOf (t : Hierarchy) (i : Nat) : String := (t[i]?.map ClassInfo.name).getD ""

def lineOf (t : Hierarchy) (i : Nat) : List Nat := (t[i]?.map ClassInfo.line).getD []

def basesOf (t : Hierarchy) (i : Nat) : List Nat := (t[i]?.map ClassInfo.bases).getD []

/-- What a class declares or takes over. -/
def inherited {α : Type} (t : Hierarchy) (i : Nat) (field : ClassInfo → Option α) : Option α :=
  (t.lineOf i).findSome? fun j => t[j]?.bind field

/-- The classes that have a class among their bases, in the order of their definition. -/
def subclasses (t : Hierarchy) (i : Nat) : List Nat := (List.range t.length).filter fun j => (t.basesOf j).contains i

/-- The first head that occurs in no tail. -/
def nextInLine (lines : List (List Nat)) : Option Nat :=
  (lines.filterMap List.head?).find? fun c => lines.all fun l => !(l.drop 1).contains c

/-- Merges lines of classes so that all their orders are kept; fails with the heads that block each other. -/
def mergeLines : Nat → List (List Nat) → Except (List Nat) (List Nat)
  | 0, _ => .ok []
  | fuel + 1, lines =>
    let lines := lines.filter fun l => !l.isEmpty
    if lines.isEmpty then .ok []
    else match nextInLine lines with
      | none => .error (lines.filterMap List.head?).eraseDups
      | some c => (mergeLines fuel (lines.map fun l => if l.head? == some c then l.drop 1 else l)).map (c :: ·)

def firstRepeated : List Nat → Option Nat
  | [] => none
  | b :: rest => if rest.contains b then some b else firstRepeated rest

/-- Defines a class on given bases; its place is the end. -/
def define (t : Hierarchy) (name : String) (bases : List Nat) (traits : PassTraits) : Except Fault Hierarchy :=
  match firstRepeated bases with
  | some b => .error (.registry (.duplicateBase (t.nameOf b)))
  | none =>
    let bases := if bases.isEmpty then [root] else bases
    let lines := bases.map t.lineOf ++ [bases]
    match mergeLines (lines.flatten.length + 1) lines with
    | .error heads => .error (.registry (.inconsistentBases (heads.map t.nameOf)))
    | .ok rest => .ok (t ++ [{ name, bases, line := t.length :: rest, traits }])

end Hierarchy

end Backprop
