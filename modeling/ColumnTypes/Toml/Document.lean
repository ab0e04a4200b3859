import ColumnTypes.Toml.Text
import ColumnTypes.Toml.Word

namespace ColumnTypes.Toml

/-!
# Reading documents

A document is a sequence of lines: entries, headers, comments and empty lines. Values may
extend over several lines. Containers are nested, and keys are dotted, at most
seventy-nine deep.
-/

def maxDepth : Nat := 79

/-! ## Keys -/

def readKey (cs : List Char) : Option (String × List Char) :=
  match cs with
  | [] => none
  | c :: rest =>
      if isMark c then readLineText c rest
      else
        let key := cs.takeWhile isBareKeyChar
        if key.isEmpty then none else some (String.ofList key, cs.dropWhile isBareKeyChar)

/-- Keys with points between them and blanks around each. At most `limit` keys are read. -/
def readKeys : (limit : Nat) → List Char → Option (KeyPath × List Char)
  | 0, _ => none
  | limit + 1, cs => do
      let (key, rest) ← readKey (skipBlanks cs)
      match skipBlanks rest with
      | '.' :: rest =>
          let (path, rest) ← readKeys limit rest
          pure (⟨key :: path.way, path.key⟩, rest)
      | rest => pure (⟨[], key⟩, rest)

def readKeyPath (cs : List Char) : Option (KeyPath × List Char) := readKeys maxDepth cs

/-! ## Values -/

abbrev ValueReader := List Char → Option (Item × List Char)

def readKeyValue (value : ValueReader) (cs : List Char) : Option (KeyValue × List Char) := do
  let (path, rest) ← readKeyPath cs
  match rest with
  | '=' :: rest =>
      let (item, rest) ← value (skipBlanks rest)
      pure (⟨path, item⟩, rest)
  | _ => none

/-- The items up to the closing bracket. A comma may follow the last one. -/
def readItems (value : ValueReader) : (fuel : Nat) → List Char → Option (List Item × List Char)
  | 0, _ => none
  | fuel + 1, cs => do
      match ← skipFiller cs with
      | ']' :: rest => pure ([], rest)
      | cs =>
          let (item, rest) ← value cs
          match ← skipFiller rest with
          | ',' :: rest =>
              let (items, rest) ← readItems value fuel rest
              pure (item :: items, rest)
          | ']' :: rest => pure ([item], rest)
          | _ => none

/-- One or more entries up to the closing brace, all on one line. -/
def readEntries (value : ValueReader) :
    (fuel : Nat) → List Char → Option (List KeyValue × List Char)
  | 0, _ => none
  | fuel + 1, cs => do
      let (kv, rest) ← readKeyValue value cs
      match skipBlanks rest with
      | ',' :: rest =>
          let (kvs, rest) ← readEntries value fuel rest
          pure (kv :: kvs, rest)
      | '\x7d' :: rest => pure ([kv], rest)
      | _ => none

def readInlineTable (value : ValueReader) (cs : List Char) : Option (Item × List Char) := do
  match skipBlanks cs with
  | '\x7d' :: rest => pure (.table .inline [], rest)
  | _ =>
      let (kvs, rest) ← readEntries value (cs.length + 1) cs
      let item ← Entries.inlineTable? kvs
      pure (item, rest)

/-- A value with at most `depth` containers around each other. -/
def readValue : (depth : Nat) → ValueReader
  | depth, cs =>
      match cs with
      | [] => none
      | c :: rest =>
          if isMark c then (readTextValue c rest).map fun r => (.text r.1, r.2)
          else if c = '[' then
            match depth with
            | 0 => none
            | depth + 1 =>
                (readItems (readValue depth) (cs.length + 1) rest).map fun r => (.array r.1, r.2)
          else if c = '\x7b' then
            match depth with
            | 0 => none
            | depth + 1 => readInlineTable (readValue depth) rest
          else readWord cs

/-! ## Lines -/

inductive Line where
  | entry (kv : KeyValue)
  | header (path : KeyPath) (repeated : Bool)
deriving Inhabited

def readHeader (cs : List Char) : Option (Line × List Char) :=
  match cs with
  | '[' :: cs => do
      let (path, rest) ← readKeyPath cs
      match rest with
      | ']' :: ']' :: rest => (endLine rest).map (.header path true, ·)
      | _ => none
  | cs => do
      let (path, rest) ← readKeyPath cs
      match rest with
      | ']' :: rest => (endLine rest).map (.header path false, ·)
      | _ => none

def readLine (cs : List Char) : Option (Line × List Char) :=
  match cs with
  | '[' :: rest => readHeader rest
  | _ => do
      let (kv, rest) ← readKeyValue (readValue maxDepth) cs
      (endLine rest).map (.entry kv, ·)

def readLines : (fuel : Nat) → List Char → Option (List Line)
  | 0, _ => none
  | fuel + 1, cs =>
      match skipBlanks cs with
      | [] => some []
      | '\n' :: rest => readLines fuel rest
      | '#' :: rest => (endLine ('#' :: rest)).bind (readLines fuel)
      | cs => do
          let (line, rest) ← readLine cs
          let lines ← readLines fuel rest
          pure (line :: lines)

/-- Every header takes the entries up to the next one. -/
def Document.ofLines : List Line → Document
  | [] => ⟨[], []⟩
  | .entry kv :: lines =>
      let d := ofLines lines
      ⟨kv :: d.root, d.sections⟩
  | .header path repeated :: lines =>
      let d := ofLines lines
      ⟨[], ⟨path, repeated, d.root⟩ :: d.sections⟩

/-- A byte order mark in front of the text does not count. -/
def skipByteOrderMark : List Char → List Char
  | '\ufeff' :: cs => cs
  | cs => cs

def read? (text : String) : Option Entries := do
  let cs ← joinLineEnds (skipByteOrderMark text.toList)
  let lines ← readLines (cs.length + 1) cs
  Entries.ofDocument? (Document.ofLines lines)

end ColumnTypes.Toml
