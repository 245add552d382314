import Backprop.Settings.Tree

/-!
# Defaults of a schema

A schema is a dictionary of entries, each with a `type`. An entry of type
`dict` is a section and nests a schema under `required`; any other entry is a
leaf and may have a `default`. Filling puts what a tree lacks into it, and
stripping leaves out what equals its default.

Neither checks the schema or the tree beforehand. When filling comes to a part
that has not the expected form it stops, and what it has filled so far stays.
-/

namespace Backprop.Settings

/-- The tree after filling, and whether something was filled or why it stopped. -/
abbrev Filling := Datum × Except Fault Bool

def Filling.fail (tree : Datum) (cause : Fault) : Filling := (tree, .error cause)

/-- Puts a filled section back into the tree; a section that was made counts as a change. -/
def Filling.within (tree : Datum) (key : Key) (made : Bool) (inner : Filling) : Filling :=
  match tree.assign key inner.1 with
  | .error e => .fail tree e
  | .ok tree => (tree, inner.2.map (made || ·))

/-- The value that a missing leaf takes. -/
def leafDefault (entry : List (Key × Datum)) (type : Datum) : Datum :=
  (Ledger.get? entry (.text "default")).getD (if type.same (.text "list") then .list [] else .null)

def fillLeaf (key : Key) (entry : List (Key × Datum)) (type tree : Datum) : Filling :=
  match tree.contains key with
  | .error e => .fail tree e
  | .ok true => (tree, .ok false)
  | .ok false =>
    match tree.assign key (leafDefault entry type) with
    | .error e => .fail tree e
    | .ok tree => (tree, .ok true)

/-- The tree with the section present, and whether it had to be made. -/
def openSection (key : Key) (tree : Datum) : Except Fault (Datum × Bool) :=
  match tree.contains key with
  | .error e => .error e
  | .ok true => .ok (tree, false)
  | .ok false => (tree.assign key (.dict [])).map fun tree => (tree, true)

mutual

/-- Fills the tree with the defaults of a schema. -/
def fill : Datum → Datum → Filling
  | .dict entries, tree => fillEntries entries tree
  | _, tree => .fail tree (.misuse .noMethod)
termination_by structural schema => schema

def fillEntries : List (Key × Datum) → Datum → Filling
  | [], tree => (tree, .ok false)
  | (key, entry) :: rest, tree =>
    match fillEntry key entry tree with
    | (tree, .error e) => .fail tree e
    | (tree, .ok changed) =>
      let (tree, result) := fillEntries rest tree
      (tree, result.map (changed || ·))
termination_by structural entries => entries

def fillEntry (key : Key) : Datum → Datum → Filling
  | .dict fields, tree =>
    match Ledger.get? fields (.text "type") with
    | none => .fail tree (.missingKey "type")
    | some type =>
      if type.same (.text "dict") then
        match openSection key tree with
        | .error e => .fail tree e
        | .ok (tree, made) =>
          match tree.index key with
          | .error e => .fail tree e
          | .ok inner => Filling.within tree key made (fillRequired fields inner)
      else fillLeaf key fields type tree
  | _, tree => .fail tree (.misuse .notIndexable)
termination_by structural entry => entry

/-- Fills by the schema that an entry nests. -/
def fillRequired : List (Key × Datum) → Datum → Filling
  | [], tree => .fail tree (.missingKey "required")
  | (name, schema) :: rest, tree => if name == "required" then fill schema tree else fillRequired rest tree
termination_by structural fields => fields

end

/-- What becomes of an entry: it is left out, kept, or stripped by a schema of its own. -/
inductive Verdict where
  | leave
  | keep
  | descend (schema : Datum)

/-- The verdict on a value by its entry in the schema. -/
def judge (value entry : Datum) : Except Fault Verdict :=
  match entry.contains "required" with
  | .error e => .error e
  | .ok true =>
    match entry.index "required" with
    | .error e => .error e
    | .ok schema => .ok (.descend schema)
  | .ok false =>
    match entry.contains "default" with
    | .error e => .error e
    | .ok false => .ok .leave
    | .ok true =>
      match entry.index "default" with
      | .error e => .error e
      | .ok default => .ok (if value.same default then .leave else .keep)

/-- The verdict on the value of a key; a key that the schema does not know is left out. -/
def judgeKey (schema : Datum) (key : Key) (value : Datum) : Except Fault Verdict :=
  match schema.contains key with
  | .error e => .error e
  | .ok false => .ok .leave
  | .ok true =>
    match schema.index key with
    | .error e => .error e
    | .ok entry => judge value entry

/-- An empty section is left out. -/
def keepSection (key : Key) (kept rest : List (Key × Datum)) : List (Key × Datum) :=
  if kept.isEmpty then rest else (key, .dict kept) :: rest

mutual

/-- The entries of a tree that differ from the defaults of a schema. -/
def strip : Datum → Datum → Except Fault (List (Key × Datum))
  | .dict entries, schema => stripEntries entries schema
  | _, _ => .error (.misuse .noMethod)
termination_by structural tree => tree

def stripEntries : List (Key × Datum) → Datum → Except Fault (List (Key × Datum))
  | [], _ => .ok []
  | (key, value) :: rest, schema =>
    match judgeKey schema key value with
    | .error e => .error e
    | .ok .leave => stripEntries rest schema
    | .ok .keep => (stripEntries rest schema).map ((key, value) :: ·)
    | .ok (.descend inner) =>
      match strip value inner with
      | .error e => .error e
      | .ok kept => (stripEntries rest schema).map (keepSection key kept)
termination_by structural entries => entries

end

end Backprop.Settings
