import Backprop.Settings.Defaults
import Backprop.Settings.Schema
import Backprop.Datum.Display

/-!
# Settings

The stored values, the schema they follow and the file they came from. Reading
asks the environment first: a variable named after the path overrides the
stored value. Writing only changes what is stored.

A path is given as a list of keys; a single key with dots stands for the keys
between them.
-/

namespace Backprop

/-- The environment variables. -/
abbrev Environment := Ledger String String

structure Settings where
  stored : Datum := .dict []
  schema : Datum := .dict []
  file : Option String := none
  deriving Inhabited

namespace Settings

/-- The keys of a path. -/
def keysOf (path : List String) : List String :=
  match path with
  | [key] => key.splitOn "."
  | keys => keys

def variableFor (keys : List String) : String := "GRADPASS_" ++ "_".intercalate keys

def get (s : Settings) (env : Environment) (path : List String) : Except Fault Datum :=
  let keys := keysOf path
  match Ledger.get? env (variableFor keys) with
  | some value => .ok (.text value)
  | none => s.stored.getPath keys

def trueWords : List String := ["true", "1", "y", "yes", "on", "verbose"]

/-- A truth value stands for itself; anything else is true if its text is one of the words for it. -/
def asFlag : Datum → Bool
  | .bool b => b
  | d => trueWords.contains (String.ofList (d.display.toList.map Char.toLower))

def getFlag (s : Settings) (env : Environment) (path : List String) : Except Fault Bool :=
  (s.get env path).map asFlag

def set (s : Settings) (path : List String) (value : Datum) : Except Fault Settings :=
  (s.stored.setPath (keysOf path) value).map fun stored => { s with stored }

/-- The entry of the schema at a path. -/
def metadata (s : Settings) (path : List String) : Except Fault Datum :=
  (keysOf path).foldlM (fun entry (key : String) => do (← entry.index "required").index key) s.schema

def defaultOf (s : Settings) (path : List String) : Except Fault Datum := do (← s.metadata path).index "default"

/-- The stored values that differ from their defaults. -/
def nondefaults (s : Settings) : Except Fault Datum := do
  let schema ← s.schema.index "required"
  return .dict (← strip s.stored schema)

/-- Fills the stored values with the defaults; they stay half filled if that fails. -/
def fillDefaults (s : Settings) : Settings × Except Fault Unit :=
  match s.schema.index "required" with
  | .error e => (s, .error e)
  | .ok schema =>
    let (stored, result) := fill schema s.stored
    ({ s with stored }, result.map fun _ => ())

end Settings

end Backprop
