namespace ColumnTypes.Toml

/-!
# Tables

The content of a TOML document. Tables come about in four ways, and the way
decides where later lines may add to them.
-/

inductive TableForm where
  /-- Opened by its own header line. -/
  | header
  /-- Lies on the way to a table with a header line. -/
  | implied
  /-- Lies on the way of a dotted key. -/
  | dotted
  /-- Written between braces, and complete. -/
  | inline
deriving DecidableEq, Inhabited

/-- Numbers and dates are known by their sort alone. -/
inductive Item where
  | text (s : String)
  | flag (b : Bool)
  | number
  | dateTime
  | array (items : List Item)
  | table (form : TableForm) (entries : List (String × Item))
  | tables (elements : List (List (String × Item)))
deriving Inhabited

abbrev Entries := List (String × Item)

/-- A dotted key: the keys on the way and the last one. -/
structure KeyPath where
  way : List String
  key : String
deriving DecidableEq, Inhabited

structure KeyValue where
  path : KeyPath
  item : Item
deriving Inhabited

/-- A header line with the entries below it. A repeated one adds an element to an array. -/
structure Section where
  path : KeyPath
  repeated : Bool
  body : List KeyValue
deriving Inhabited

structure Document where
  root : List KeyValue
  sections : List Section
deriving Inhabited

namespace Entries

/-- Puts the changed item in the place of the key's item, or behind all others if there is none. -/
def alter (change : Option Item → Option Item) (key : String) : Entries → Option Entries
  | [] => (change none).map fun item => [(key, item)]
  | (k, item) :: es =>
      if k = key then (change (some item)).map fun new => (k, new) :: es
      else (alter change key es).map ((k, item) :: ·)

def onLast {α : Type} (f : α → Option α) : List α → Option (List α)
  | [] => none
  | [a] => (f a).map fun b => [b]
  | a :: as => (onLast f as).map (a :: ·)

def addNew (item : Item) (key : String) : Entries → Option Entries :=
  alter (fun old => if old.isNone then some item else none) key

/-- Adds an entry by a dotted key. Only tables that were opened by dotted keys take the entry
itself; the way may also lead through the last element of an array and through implied tables. -/
def insert (item : Item) (key : String) : (way : List String) → Entries → Option Entries
  | [], es => addNew item key es
  | k :: way, es => alter (fun
      | none => (insert item key way []).map (.table .dotted)
      | some (.table .dotted inner) => (insert item key way inner).map (.table .dotted)
      | some (.table .implied inner) =>
          if way.isEmpty then none else (insert item key way inner).map (.table .implied)
      | some (.tables elements) =>
          if way.isEmpty then none else (onLast (insert item key way) elements).map .tables
      | some _ => none) k es

def insertAll : List KeyValue → Entries → Option Entries
  | [], es => some es
  | kv :: kvs, es => (insert kv.item kv.path.key kv.path.way es).bind (insertAll kvs)

/-- Works on the table that a header's path leads to. -/
def below (work : Entries → Option Entries) : (way : List String) → Entries → Option Entries
  | [], es => work es
  | k :: way, es => alter (fun
      | none => (below work way []).map (.table .implied)
      | some (.table .inline _) => none
      | some (.table form inner) => (below work way inner).map (.table form)
      | some (.tables elements) => (onLast (below work way) elements).map .tables
      | some _ => none) k es

/-- A table may follow its subtables, but there is only one header for it. -/
def addTable (body : List KeyValue) (key : String) : Entries → Option Entries :=
  alter (fun
    | none => (insertAll body []).map (.table .header)
    | some (.table .implied inner) => (insertAll body inner).map (.table .header)
    | some _ => none) key

def addElement (body : List KeyValue) (key : String) : Entries → Option Entries :=
  alter (fun
    | none => (insertAll body []).map fun element => .tables [element]
    | some (.tables elements) =>
        (insertAll body []).map fun element => .tables (elements ++ [element])
    | some _ => none) key

def addSection (s : Section) (es : Entries) : Option Entries :=
  below ((if s.repeated then addElement else addTable) s.body s.path.key) s.path.way es

def addSections : List Section → Entries → Option Entries
  | [], es => some es
  | s :: ss, es => (addSection s es).bind (addSections ss)

/-- The entries of a document, unless two of its lines contradict each other. -/
def ofDocument? (d : Document) : Option Entries :=
  (insertAll d.root []).bind (addSections d.sections)

def inlineTable? (kvs : List KeyValue) : Option Item :=
  (insertAll kvs []).map (.table .inline)

def get? (es : Entries) (key : String) : Option Item := es.lookup key

end Entries

end ColumnTypes.Toml
