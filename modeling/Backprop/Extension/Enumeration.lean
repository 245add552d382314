import Backprop.Datum.Basic
import Backprop.Fault

/-!
# Extensible enumerations

Named members with values, in order. A numbered enumeration numbers its members
from one, whatever values are given; in any other a member without a value is
numbered after the last member that has a number. A name whose value is taken
already is an alias of the member that has it and is not listed.
-/

namespace Backprop

/-- The value of a member: one datum, or several taken together. -/
inductive MemberValue where
  | single (d : Datum)
  | several (ds : List Datum)
  deriving Inhabited

namespace MemberValue

/-- The value that is made of what is given, if anything is. -/
def ofList? : List Datum → Option MemberValue
  | [] => none
  | [d] => some (single d)
  | ds => some (several ds)

def same : MemberValue → MemberValue → Bool
  | single a, single b => a.same b
  | several as, several bs => Datum.sameItems as bs
  | _, _ => false

def toDatum : MemberValue → Datum
  | single d => d
  | several ds => .list ds

/-- One more than a number. -/
def next? : MemberValue → Option Datum
  | single (.int i) => some (.int (i + 1))
  | single (.bool b) => some (.int (Key.bit b + 1))
  | single (.float x) => some (.float (x + 1))
  | _ => none

end MemberValue

structure Enumeration where
  numbered : Bool
  /-- All names, aliases included. -/
  names : Ledger String MemberValue
  deriving Inhabited

namespace Enumeration

/-- The members without aliases. -/
def members (e : Enumeration) : List (String × MemberValue) :=
  e.names.foldl (fun found p => if found.any fun q => q.2.same p.2 then found else found ++ [p]) []

/-- The number after the last one among the members. -/
def nextNumber (e : Enumeration) : Datum := (e.members.reverse.findSome? fun p => p.2.next?).getD (.int 1)

/-- The value of a new member. -/
def valueFor (e : Enumeration) (value : Option MemberValue) : MemberValue :=
  if e.numbered then .single (.int (e.names.length + 1)) else value.getD (.single e.nextNumber)

/-- What an enumeration has of its own besides its members. -/
def ownNames : List String :=
  ["register", "__module__", "__doc__", "__new__", "__reduce_ex__", "_member_names_", "_member_map_", "_member_type_",
   "_value2member_map_"]

/-- What an enumeration takes over from the class it is built on. -/
def inheritedNames : List String :=
  ["__init__", "__class__", "__repr__", "__str__", "__hash__", "__eq__", "__ne__", "__lt__", "__le__", "__gt__", "__ge__",
   "__dir__", "__format__", "__getattribute__", "__setattr__", "__delattr__", "__reduce__", "__sizeof__",
   "__subclasshook__", "__init_subclass__"]

/-- Whether a further member may have a name. -/
def checkName (taken : List String) (name : String) : Except Fault Unit :=
  if taken.contains name then .error (.registry (.memberExists name))
  else if ownNames.contains name then .error (.missingKey name)
  else if inheritedNames.contains name then .error (.registry (.memberExists name))
  else .ok ()

def put (e : Enumeration) (name : String) (value : Option MemberValue) : Enumeration :=
  { e with names := Ledger.put e.names name (e.valueFor value) }

def add (e : Enumeration) (name : String) (value : Option MemberValue) : Except Fault Enumeration :=
  (checkName (Ledger.keys e.names) name).map fun _ => e.put name value

/-- Names within single underscores are kept for other uses. -/
def isReserved (name : String) : Bool :=
  match name.toList, name.toList.reverse with
  | '_' :: a :: _ :: _, '_' :: b :: _ => a != '_' && b != '_'
  | _, _ => false

/-- Adds a member when an enumeration is made. -/
def declare (title : String) (e : Enumeration) (name : String) (value : Option MemberValue) : Except Fault Enumeration :=
  if isReserved name then .error (.registry (.reservedName title name))
  else if Ledger.has e.names name then .error (.registry (.nameReused title name))
  else .ok (e.put name value)

def invalidNames : List String := ["mro", ""]

/-- An enumeration of given members. -/
def make (title : String) (numbered : Bool) (members : List (String × Option MemberValue)) : Except Fault Enumeration := do
  let e ← members.foldlM (fun e p => declare title e p.1 p.2) ⟨numbered, []⟩
  match invalidNames.filter fun name => Ledger.has e.names name with
  | [] => if Ledger.has e.names "register" then throw (.registry (.memberFixed title "register")) else return e
  | names => throw (.registry (.invalidNames names))

/-- A numbered enumeration of given names. -/
def ofNames (title : String) (names : List String) : Except Fault Enumeration :=
  make title true (names.map fun name => (name, none))

def ofValues (title : String) (values : List (String × Datum)) : Except Fault Enumeration :=
  make title false (values.map fun p => (p.1, some (.single p.2)))

end Enumeration

end Backprop
