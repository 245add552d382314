import Backprop.Fault
import Backprop.Ledger

/-!
# Files

A small file system: texts, files that may not be opened, and directories, by
relative path. A directory also exists as soon as a file lies below it. A path
is followed part by part, and everything on the way has to be a directory.
-/

namespace Backprop

inductive FileNode where
  | text (content : String)
  | locked
  | directory
  deriving DecidableEq, Repr

abbrev Disk := Ledger String FileNode

namespace Disk

/-- The parts of a path; an absolute path starts with a part of its own. -/
def parts (path : String) : List String :=
  match path.splitOn "/" with
  | "" :: rest => if path.isEmpty then [] else "/" :: rest
  | parts => parts

def joined : List String → String
  | "/" :: rest => "/" ++ "/".intercalate rest
  | parts => "/".intercalate parts

def isHere (part : String) : Bool := part == "" || part == "."

/-- The parts without those that stay in place, steps upwards resolved. -/
def plainParts (path : String) : List String :=
  ((parts path).foldl (fun acc part =>
    if isHere part then acc else if part == ".." then acc.drop 1 else part :: acc) []).reverse

def isBelow (path : String) (other : String) : Bool := other.startsWith (path ++ "/")

/-- What lies at a place given by its parts. -/
def at? (disk : Disk) (place : List String) : Option FileNode :=
  match Ledger.get? disk (joined place) with
  | some node => some node
  | none =>
    if place.isEmpty || place == ["/"] || (Ledger.keys disk).any (isBelow (joined place)) then some .directory else none

/-- Goes on from a place along further parts; only the last part may be missing. -/
def follow (disk : Disk) (place : List String) : List String → Except Fault (List String)
  | [] => .ok place
  | part :: rest =>
    match disk.at? place with
    | none => .error (.file .missing)
    | some .directory =>
      if isHere part then disk.follow place rest
      else if part == ".." then disk.follow place.dropLast rest
      else if rest.isEmpty then .ok (place ++ [part])
      else disk.follow (place ++ [part]) rest
    | some _ => .error (.file .notDirectory)

/-- The place that a path leads to. -/
def locate (disk : Disk) (path : String) : Except Fault (List String) :=
  if path.isEmpty then .error (.file .missing)
  else match parts path with
    | "/" :: rest => disk.follow ["/"] rest
    | parts => disk.follow [] parts

/-- What lies at a path. -/
def open? (disk : Disk) (path : String) : Except Fault FileNode := do
  match disk.at? (← disk.locate path) with
  | some node => return node
  | none => throw (.file .missing)

def isFile (disk : Disk) (path : String) : Bool :=
  match disk.open? path with
  | .ok (.text _) => true
  | .ok .locked => true
  | _ => false

/-- Line ends of all kinds become line feeds. -/
def unifyLineEnds : List Char → List Char
  | [] => []
  | '\r' :: '\n' :: cs => '\n' :: unifyLineEnds cs
  | '\r' :: cs => '\n' :: unifyLineEnds cs
  | c :: cs => c :: unifyLineEnds cs

/-- The text of a file. -/
def read (disk : Disk) (path : String) : Except Fault String := do
  match ← disk.open? path with
  | .text content => return String.ofList (unifyLineEnds content.toList)
  | .locked => throw (.file .denied)
  | .directory => throw (.file .isDirectory)

/-- The text of a file; nothing if the path is not that of a file. -/
def read? (disk : Disk) (path : String) : Except Fault (Option String) :=
  if disk.isFile path then (disk.read path).map some else .ok none

def put (disk : Disk) (path : String) (node : FileNode) : Disk := Ledger.put disk (joined (plainParts path)) node

/-- The place to write to; a path that ends like one of a directory names no file. -/
def target (disk : Disk) (path : String) : Except Fault (List String) :=
  if path.endsWith "/" then do
    let _ ← disk.locate (String.ofList (path.toList.reverse.dropWhile (· == '/')).reverse)
    throw (.file .isDirectory)
  else disk.locate path

/-- Replaces a file or makes one in a directory that exists. -/
def write (disk : Disk) (path : String) (content : String) : Except Fault Disk := do
  let place ← disk.target path
  match disk.at? place with
  | some .locked => throw (.file .denied)
  | some .directory => throw (.file .isDirectory)
  | _ => return Ledger.put disk (joined place) (.text content)

end Disk

end Backprop
