import Backprop.Fault

/-!
# What a pass modifies

Sets of the parts of a graph: nodes, edges, outputs and attributes. Passes give
them as expressions over the named sets, which are evaluated when a pass is
asked. Comparing two sets gives a truth value, which is no set; the complement
of a truth value is a number, of which only the lowest bit and the sign matter.
-/

namespace Backprop

/-- One bit for each of the four parts. -/
structure Modified where
  bits : BitVec 4
  deriving DecidableEq, Repr, Inhabited

namespace Modified

def nothing : Modified := ⟨0⟩

def nodes : Modified := ⟨1⟩

def edges : Modified := ⟨2⟩

def outputs : Modified := ⟨4⟩

def attributes : Modified := ⟨8⟩

def union (a b : Modified) : Modified := ⟨a.bits ||| b.bits⟩

def inter (a b : Modified) : Modified := ⟨a.bits &&& b.bits⟩

def symmDiff (a b : Modified) : Modified := ⟨a.bits ^^^ b.bits⟩

def compl (a : Modified) : Modified := ⟨~~~a.bits⟩

/-- Whether all of the first is in the second. -/
def subset (a b : Modified) : Bool := a.inter b == a

def isSome (a : Modified) : Bool := a != nothing

def value (a : Modified) : Nat := a.bits.toNat

/-- The structure of the graph. -/
def topology : Modified := (nodes.union edges).union outputs

def everything : Modified := topology.union attributes

def named : List (String × Modified) :=
  [("Nothing", nothing), ("Nodes", nodes), ("Edges", edges), ("Outputs", outputs), ("Attributes", attributes),
   ("Topology", topology), ("Everything", everything)]

/-- What an expression comes to; the number is `low - 2 * sign`. -/
inductive Outcome where
  | parts (m : Modified)
  | truth (b : Bool)
  | number (sign low : Bool)
  deriving DecidableEq, Repr

/-- Expressions over the named sets. -/
inductive Expr where
  | named (name : String)
  | compl (a : Expr)
  | union (a b : Expr)
  | inter (a b : Expr)
  | symmDiff (a b : Expr)
  | subset (a b : Expr)
  | equal (a b : Expr)
  deriving Inhabited

namespace Outcome

/-- The set, where one is needed. -/
def parts? : Outcome → Except Fault Modified
  | parts m => .ok m
  | _ => .error (.misuse .noMethod)

def isTrue : Outcome → Bool
  | parts m => m.isSome
  | truth b => b
  | number sign low => sign || low

/-- Sign and lowest bit; a set has none. -/
def bits? : Outcome → Option (Bool × Bool)
  | parts _ => none
  | truth b => some (false, b)
  | number sign low => some (sign, low)

/-- Two sets are equal as sets, all others as numbers. -/
def same (a b : Outcome) : Bool :=
  match a, b with
  | parts m, parts n => m == n
  | a, b => a.bits?.isSome && a.bits? == b.bits?

def compl : Outcome → Outcome
  | parts m => parts m.compl
  | truth b => number true !b
  | number sign low => number (!sign) (!low)

/-- Combines two sets, or numbers bit by bit; a set does not go with a number. -/
def combine (onParts : Modified → Modified → Modified) (onBits : Bool → Bool → Bool) (a b : Outcome) :
    Except Fault Outcome :=
  match a, b with
  | parts m, parts n => .ok (parts (onParts m n))
  | truth p, truth q => .ok (truth (onBits p q))
  | a, b =>
    match a.bits?, b.bits? with
    | some p, some q => .ok (number (onBits p.1 q.1) (onBits p.2 q.2))
    | _, _ => .error (.misuse .notAContainer)

def inter : Outcome → Outcome → Except Fault Outcome := combine Modified.inter and

def subset : Outcome → Outcome → Except Fault Outcome
  | parts a, parts b => .ok (truth (a.subset b))
  | _, _ => .error (.misuse .notAContainer)

end Outcome

def Expr.eval : Expr → Except Fault Outcome
  | named name =>
    match Modified.named.lookup name with
    | some m => .ok (.parts m)
    | none => .error (.missingKey name)
  | compl a => a.eval.map Outcome.compl
  | union a b => do Outcome.combine Modified.union or (← a.eval) (← b.eval)
  | inter a b => do Outcome.inter (← a.eval) (← b.eval)
  | symmDiff a b => do Outcome.combine Modified.symmDiff xor (← a.eval) (← b.eval)
  | subset a b => do Outcome.subset (← a.eval) (← b.eval)
  | equal a b => do
    let a ← a.eval
    return .truth (a.same (← b.eval))

end Modified

end Backprop
