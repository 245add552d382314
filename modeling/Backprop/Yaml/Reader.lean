import Backprop.Yaml.Token

/-!
# Reading YAML documents

The value that the tokens of a document describe. A document holds one value;
an empty one stands for nothing, and so does whatever is left out where a key,
a value or an item is expected. A repeated key keeps its place and takes the
last value. A reference stands for another copy of what it refers to, which has
to come before it.
-/

namespace Backprop.Yaml

/-- What a node of a document stands for: a value, or one of the two marks that only have a meaning as keys. -/
inductive Content where
  | value (d : Datum)
  | merge
  | default

def Content.nothing : Content := .value .null

def Content.ofPlain (text : String) : Content :=
  if text == "<<" then .merge else if text == "=" then .default else .value (resolve text)

/-- What a scalar stands for, whose type may be given. -/
def Content.ofScalar (tag : Option Tag) (text : String) (isPlain : Bool) : Option Content :=
  match tag with
  | none => some (if isPlain then .ofPlain text else .value (.text text))
  | some .unspecific => some (.ofPlain text)
  | some tag => (tag.scalar text).map .value

def Content.value? : Content → Option Datum
  | .value d => some d
  | _ => Option.none

/-- The mappings whose entries are taken over, the last first. -/
def mergedEntries : Datum → Option (List (Key × Datum))
  | .dict entries => some entries
  | .list items =>
    items.reverse.foldlM (fun acc item => match item with
      | .dict entries => some (acc ++ entries)
      | _ => Option.none) []
  | _ => Option.none

/-- The entries of a mapping apart from those that it takes over. -/
def ownEntries : List (Content × Content) → Option (List (Key × Datum))
  | [] => some []
  | (.merge, _) :: rest => ownEntries rest
  | (.default, value) :: rest => do return (.text "=", ← value.value?) :: (← ownEntries rest)
  | (.value key, value) :: rest => do return (← key.key?, ← value.value?) :: (← ownEntries rest)

/-- The entries that a mapping takes over from others. -/
def takenEntries : List (Content × Content) → Option (List (Key × Datum))
  | [] => some []
  | (.merge, value) :: rest => do return (← mergedEntries (← value.value?)) ++ (← takenEntries rest)
  | _ :: rest => takenEntries rest

def mapping (entries : List (Content × Content)) : Option Content := do
  return .value (.dict (Ledger.merge [] ((← takenEntries entries) ++ (← ownEntries entries))))

def sequence (items : List Content) : Option Content := do
  return .value (.list (← items.mapM Content.value?))

/-- Whether a key or value of a block mapping is left out before these tokens. -/
def isOmitted : List Token → Bool
  | .key :: _ => true
  | .value :: _ => true
  | .blockEnd :: _ => true
  | _ => false

/-- Whether an item of a block list is left out before these tokens. -/
def isOmittedItem : List Token → Bool
  | .dash :: _ => true
  | .blockEnd :: _ => true
  | _ => false

/-- Whether a key within brackets is left out before these tokens. -/
def isOmittedKey (close : Token) : List Token → Bool
  | .value :: _ => true
  | .comma :: _ => true
  | t :: _ => t == close
  | [] => false

/-- Whether a value within brackets is left out before these tokens. -/
def isOmittedValue (close : Token) : List Token → Bool
  | .comma :: _ => true
  | t :: _ => t == close
  | [] => false

/-- Whether a collection may be given a type. -/
def isFor (own : Tag) (tag : Option Tag) : Bool := tag == none || tag == some .unspecific || tag == some own

/-- The tokens still to be read and the nodes that have been given names. -/
structure Feed where
  tokens : List Token
  anchors : Ledger String Content := []

/-- What is given to a node in front of it. -/
structure Properties where
  anchor : Option String := none
  tag : Option Tag := none

def properties (ts : List Token) : Properties × List Token :=
  match ts with
  | .anchor name :: .tag t :: rest => (⟨some name, some t⟩, rest)
  | .tag t :: .anchor name :: rest => (⟨some name, some t⟩, rest)
  | .anchor name :: rest => (⟨some name, none⟩, rest)
  | .tag t :: rest => (⟨none, some t⟩, rest)
  | ts => ({}, ts)

def Properties.isSome (p : Properties) : Bool := p.anchor.isSome || p.tag.isSome

/-- Gives a node its name, which no other node may have. -/
def Properties.record (p : Properties) (content : Content) (feed : Feed) : Option (Content × Feed) :=
  match p.anchor with
  | none => some (content, feed)
  | some name => some (content, { feed with anchors := Ledger.put feed.anchors name content })

/-- No name is given twice. -/
def Properties.isNew (p : Properties) (feed : Feed) : Bool :=
  match p.anchor with
  | none => true
  | some name => !Ledger.has feed.anchors name

/-- The tokens after a comma, which is needed except before the first part. -/
def afterComma (first : Bool) : List Token → Option (List Token)
  | .comma :: rest => if first then some (.comma :: rest) else some rest
  | ts => if first then some ts else none

mutual

/-- A value; block collections and lists at the indentation of their key only where they are allowed. -/
def readNode (block compact : Bool) : Nat → Feed → Option (Content × Feed)
  | 0, _ => none
  | fuel + 1, f =>
    match f.tokens with
    | .reference name :: tokens => do return (← Ledger.get? f.anchors name, { f with tokens })
    | tokens => do
      let (p, tokens) := properties tokens
      guard (p.isNew f)
      let (content, f) ← readContent block compact p fuel { f with tokens }
      p.record content f

/-- A value without its properties. -/
def readContent (block compact : Bool) (p : Properties) : Nat → Feed → Option (Content × Feed)
  | 0, _ => none
  | fuel + 1, f =>
    match f.tokens with
    | .scalar text isPlain :: tokens => do return (← Content.ofScalar p.tag text isPlain, { f with tokens })
    | .openList :: tokens => do
      guard (isFor .list p.tag)
      let (items, f) ← readFlowItems true fuel { f with tokens }
      return (← sequence items, f)
    | .openMapping :: tokens => do
      guard (isFor .mapping p.tag)
      let (entries, f) ← readFlowEntries true fuel { f with tokens }
      return (← mapping entries, f)
    | .listStart :: tokens =>
      if block then do
        guard (isFor .list p.tag)
        let (items, f) ← readItems fuel { f with tokens }
        return (← sequence items, f)
      else empty p f
    | .mappingStart :: tokens =>
      if block then do
        guard (isFor .mapping p.tag)
        let (entries, f) ← readEntries fuel { f with tokens }
        return (← mapping entries, f)
      else empty p f
    | .dash :: _ =>
      if compact then do
        guard (isFor .list p.tag)
        let (items, f) ← readCompactItems fuel f
        return (← sequence items, f)
      else empty p f
    | _ => empty p f

/-- A value that is left out after its properties. -/
def empty (p : Properties) (f : Feed) : Option (Content × Feed) := do
  guard p.isSome
  return (← Content.ofScalar p.tag "" p.tag.isNone, f)

def readItems : Nat → Feed → Option (List Content × Feed)
  | 0, _ => none
  | fuel + 1, f =>
    match f.tokens with
    | .dash :: tokens => do
      let f := { f with tokens }
      let (item, f) ← if isOmittedItem tokens then some (.nothing, f) else readNode true false fuel f
      let (items, f) ← readItems fuel f
      return (item :: items, f)
    | .blockEnd :: tokens => some ([], { f with tokens })
    | _ => none

/-- The items of a list at the indentation of its key. -/
def readCompactItems : Nat → Feed → Option (List Content × Feed)
  | 0, _ => none
  | fuel + 1, f =>
    match f.tokens with
    | .dash :: tokens => do
      let f := { f with tokens }
      let (item, f) ←
        if isOmittedItem tokens || isOmitted tokens then some (.nothing, f) else readNode true false fuel f
      let (items, f) ← readCompactItems fuel f
      return (item :: items, f)
    | _ => some ([], f)

def readEntries : Nat → Feed → Option (List (Content × Content) × Feed)
  | 0, _ => none
  | fuel + 1, f =>
    match f.tokens with
    | .key :: tokens => do
      let f := { f with tokens }
      let (key, f) ← if isOmitted tokens then some (.nothing, f) else readNode true true fuel f
      let (value, f) ← readBlockValue fuel f
      let (entries, f) ← readEntries fuel f
      return ((key, value) :: entries, f)
    | .blockEnd :: tokens => some ([], { f with tokens })
    | _ => none

def readBlockValue : Nat → Feed → Option (Content × Feed)
  | 0, _ => none
  | fuel + 1, f =>
    match f.tokens with
    | .value :: tokens =>
      let f := { f with tokens }
      if isOmitted tokens then some (.nothing, f) else readNode true true fuel f
    | _ => some (.nothing, f)

/-- The items of a list in brackets; an item may be a single entry of a mapping. -/
def readFlowItems (first : Bool) : Nat → Feed → Option (List Content × Feed)
  | 0, _ => none
  | fuel + 1, f =>
    match f.tokens with
    | .closeList :: tokens => some ([], { f with tokens })
    | tokens => do
      let tokens ← afterComma first tokens
      match tokens with
      | .closeList :: tokens => return ([], { f with tokens })
      | .key :: tokens =>
        let (entry, f) ← readFlowEntry .closeList fuel { f with tokens }
        let (items, f) ← readFlowItems false fuel f
        return ((← mapping [entry]) :: items, f)
      | tokens =>
        let (item, f) ← readNode false false fuel { f with tokens }
        let (items, f) ← readFlowItems false fuel f
        return (item :: items, f)

/-- The entries of a mapping in braces; a key may stand alone. -/
def readFlowEntries (first : Bool) : Nat → Feed → Option (List (Content × Content) × Feed)
  | 0, _ => none
  | fuel + 1, f =>
    match f.tokens with
    | .closeMapping :: tokens => some ([], { f with tokens })
    | tokens => do
      let tokens ← afterComma first tokens
      match tokens with
      | .closeMapping :: tokens => return ([], { f with tokens })
      | .key :: tokens =>
        let (entry, f) ← readFlowEntry .closeMapping fuel { f with tokens }
        let (entries, f) ← readFlowEntries false fuel f
        return (entry :: entries, f)
      | tokens =>
        let (key, f) ← readNode false false fuel { f with tokens }
        let (entries, f) ← readFlowEntries false fuel f
        return ((key, .nothing) :: entries, f)

/-- A key within brackets and its value; the mark of the key has been read. -/
def readFlowEntry (close : Token) : Nat → Feed → Option ((Content × Content) × Feed)
  | 0, _ => none
  | fuel + 1, f => do
    let (key, f) ← if isOmittedKey close f.tokens then some (.nothing, f) else readNode false false fuel f
    match f.tokens with
    | .value :: tokens =>
      let f := { f with tokens }
      let (value, f) ← if isOmittedValue close tokens then some (.nothing, f) else readNode false false fuel f
      return ((key, value), f)
    | _ => return ((key, .nothing), f)

end

/-- Only marks of its end may follow a document. -/
def endsStream (ts : List Token) : Bool := ts.all (· == .documentEnd)

/-- Whether a document is empty that starts with these tokens. -/
def isEmptyDocument : List Token → Bool
  | [] => true
  | .documentStart :: _ => true
  | .documentEnd :: _ => true
  | _ => false

/-- The one value of a document with all its marks. -/
def readDocument (ts : List Token) : Option Datum :=
  let content (ts : List Token) : Option Datum := do
    let (node, f) ← readNode true false (4 * ts.length + 4) { tokens := ts }
    guard (endsStream f.tokens)
    node.value?
  match ts with
  | [] => some .null
  | .documentStart :: rest =>
    if isEmptyDocument rest then if endsStream rest then some .null else none else content rest
  | ts => content ts

def parse (s : String) : Option Datum := (tokens s).bind readDocument

end Backprop.Yaml
