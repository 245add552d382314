import Backprop.Settings.Basic
import Backprop.Settings.Disk
import Backprop.Yaml.Reader
import Backprop.Yaml.Writer

/-!
# Profiles

Settings together with the environment and the files they are read from and
written to. Every action keeps what it has changed when it fails: a file that
is read and turns out incomplete stays loaded, and a file is emptied before its
new content is known.

Nothing here depends on what the text of a file looks like. That is up to the
format, which may refuse a text that is read, and may fail to write a value
after a part of it has been written.
-/

namespace Backprop

structure Format where
  read : String → Option Datum
  /-- What gets written of a value, and whether that is all of it. -/
  write : Datum → String × Except Fault Unit

/-- The format that sessions use. -/
def Format.yaml : Format where
  read := Yaml.parse
  write d := (Yaml.render d, .ok ())

instance : Inhabited Format := ⟨.yaml⟩

structure Profile where
  settings : Settings := {}
  env : Environment := []
  disk : Disk := []
  format : Format := .yaml
  deriving Inhabited

/-- Actions on a profile. -/
abbrev Configure := EStateM Fault Profile

namespace Profile

def get (p : Profile) (path : List String) : Except Fault Datum := p.settings.get p.env path

def getFlag (p : Profile) (path : List String) : Except Fault Bool := p.settings.getFlag p.env path

/-- The name given, or else that of the loaded file. -/
def chosenFile (p : Profile) (file : Option String) : Option String :=
  match file with
  | some name => if name.isEmpty then p.settings.file else some name
  | none => p.settings.file

def localFile : String := ".gradpass.conf"

/-- The file in the home directory, unless a variable names another one. -/
def userFile (p : Profile) : String :=
  match Ledger.get? p.env "GRADPASS_CONFIG" with
  | some name => name
  | none =>
    let home := ((Ledger.get? p.env "HOME").getD "").toList
    String.ofList (home.reverse.dropWhile (· == '/')).reverse ++ "/" ++ localFile

end Profile

namespace Configure

def ofExcept {α : Type} : Except Fault α → Configure α
  | .ok a => pure a
  | .error e => throw e

def modifySettings (f : Settings → Settings) : Configure Unit :=
  modify fun p => { p with settings := f p.settings }

def fillDefaults : Configure Unit := do
  let (settings, result) := (← get).settings.fillDefaults
  modifySettings fun _ => settings
  ofExcept result

/-- Reads a file into the stored values and fills in the defaults. -/
def load (file : Option String) : Configure Unit := do
  let p ← get
  match p.chosenFile file with
  | none => throw (.misuse .noFileNamed)
  | some name =>
    let text ← ofExcept (p.disk.read name)
    match p.format.read text with
    | none => throw (.file (.malformed name))
    | some d =>
      modifySettings fun s => { s with stored := if d.truth then d else .dict [] }
      fillDefaults

/-- Replaces the schema, by the built-in one if no file is given. -/
def loadSchema (file : Option String) : Configure Unit := do
  match file with
  | some name =>
    if name.isEmpty then modifySettings fun s => { s with schema := Settings.builtinSchema }
    else
      let p ← get
      let text ← ofExcept (p.disk.read name)
      match p.format.read text with
      | none => throw (.file .malformedSchema)
      | some d => modifySettings fun s => { s with schema := d }
  | none => modifySettings fun s => { s with schema := Settings.builtinSchema }

/-- Whether a fault is one of opening a file. -/
def isFileTrouble : Fault → Bool
  | .file .missing => true
  | .file .denied => true
  | .file .isDirectory => true
  | .file .notDirectory => true
  | _ => false

/-- Loads a file and remembers it; a file that cannot be opened is passed over. -/
def tryFile (name : String) : Configure Bool := fun p =>
  if p.disk.isFile name then
    match load (some name) p with
    | .ok _ p => .ok true { p with settings := { p.settings with file := some name } }
    | .error e p => if isFileTrouble e then .ok false p else .error e p
  else .ok false p

/-- Loads the schema and the first file there is, once. -/
def boot : Configure Unit := do
  unless (← get).settings.schema.truth do
    loadSchema none
    unless ← tryFile Profile.localFile do
      unless ← tryFile (← get).userFile do
        modifySettings fun s => { s with stored := .dict [] }
        fillDefaults

def writeFile (name content : String) : Configure Unit := do
  let disk ← ofExcept ((← get).disk.write name content)
  modify fun p => { p with disk }

/-- What is saved: everything, or what differs from the defaults. -/
def content (s : Settings) (everything : Bool) : Except Fault Datum :=
  if everything then .ok s.stored else s.nondefaults

/-- Saves to the file given or loaded; false if there is none. -/
def save (file : Option String) (everything : Bool) : Configure Bool := do
  let p ← get
  match p.chosenFile file with
  | none => return false
  | some name =>
    writeFile name ""
    let d ← ofExcept (content p.settings everything)
    let written := p.format.write d
    writeFile name written.1
    ofExcept written.2
    return true

/-- Sets a value; true unless it was to be saved and there is no file for it. -/
def set (path : List String) (value : Datum) (autosave : Bool) : Configure Bool := do
  let settings ← ofExcept ((← get).settings.set path value)
  modifySettings fun _ => settings
  if autosave then save none false else return true

/-- Sets a value and returns the one it had. -/
def override (path : List String) (value : Datum) : Configure Datum := do
  let old ← ofExcept ((← get).get path)
  let _ ← set path value false
  return old

/-- Undoes an override. -/
def restore (path : List String) (old : Datum) : Configure Unit := do
  let _ ← set path old false

/-- Puts back stored values that were set aside. -/
def reinstate (stored : Datum) : Configure Unit := modifySettings fun s => { s with stored }

def stored : Configure Datum := do return (← get).settings.stored

section Temporary

variable {m : Type → Type} [Monad m] [MonadFinally m] [MonadLiftT Configure m] {α : Type}

/-- Runs an action with a value set, and puts the old value back however the action ends. -/
def temporarily (path : List String) (value : Datum) (action : m α) : m α := do
  let old ← (override path value : Configure Datum)
  try action finally (restore path old : Configure Unit)

/-- Runs an action and undoes its changes to the stored values however it ends. -/
def isolated (action : m α) : m α := do
  let old ← (stored : Configure Datum)
  try action finally (reinstate old : Configure Unit)

end Temporary

end Configure

end Backprop
