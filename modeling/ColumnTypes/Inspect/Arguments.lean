namespace ColumnTypes.Inspect

/-!
# Arguments of the inspector

Options come before or after the command. A word that begins with a dash is an
option unless it stands behind a double dash.
-/

inductive Command where
  | list
  | type (kind : String) (properties : List String)
  | meet (a b : String)
  | load (file : String)
deriving DecidableEq, Inhabited

inductive Request where
  | usageError
  | help
  | version
  | run (catalog : Option String) (command : Command)
deriving DecidableEq, Inhabited

/-! ## Words -/

/-- The value of an option may be attached to it. -/
inductive Word where
  | operand (s : String)
  | doubleDash
  | catalog (value : Option String)
  | property (value : Option String)
  | help
  | version
  | unknown
deriving DecidableEq, Inhabited

namespace Word

/-- What stands behind the first part, if the text begins with it. -/
def behind? : (start text : List Char) → Option (List Char)
  | [], text => some text
  | _ :: _, [] => none
  | a :: start, b :: text => if a = b then behind? start text else none

def ofLong (cs : List Char) : Word :=
  match behind? "catalog=".toList cs, behind? "property=".toList cs with
  | some value, _ => catalog (some (String.ofList value))
  | none, some value => property (some (String.ofList value))
  | none, none =>
      match String.ofList cs with
      | "" => doubleDash
      | "catalog" => catalog none
      | "property" => property none
      | "help" => help
      | "version" => version
      | _ => unknown

def ofShort : List Char → Word
  | ['p'] => property none
  | 'p' :: '=' :: value => property (some (String.ofList value))
  | 'p' :: value => property (some (String.ofList value))
  | 'h' :: _ => help
  | 'V' :: _ => version
  | _ => unknown

/-- A single dash is an operand. -/
def ofString (s : String) : Word :=
  match s.toList with
  | '-' :: '-' :: cs => ofLong cs
  | '-' :: c :: cs => ofShort (c :: cs)
  | _ => operand s

def value? (s : String) : Option String :=
  match ofString s with
  | operand s => some s
  | _ => none

end Word

/-! ## Commands -/

inductive CommandName where
  | list
  | type
  | meet
  | load
deriving DecidableEq, Inhabited

namespace CommandName

def ofString? : String → Option CommandName
  | "list" => some list
  | "type" => some type
  | "meet" => some meet
  | "load" => some load
  | _ => none

def operandCount : CommandName → Nat
  | list => 0
  | type => 1
  | meet => 2
  | load => 1

/-- Names of files are not empty. -/
def accepts : CommandName → String → Bool
  | load, s => s != ""
  | _, _ => true

end CommandName

structure Draft where
  name : CommandName
  catalog : Option String
  operands : List String
  properties : List String
deriving DecidableEq, Inhabited

namespace Draft

def start (name : CommandName) : Draft := ⟨name, none, [], []⟩

/-- At most one catalog is given in one place, and its name is not empty. -/
def putCatalog (old : Option String) (file : String) : Option String :=
  if old.isSome || file == "" then none else some file

def setCatalog (d : Draft) (file : String) : Option Draft :=
  (putCatalog d.catalog file).map fun file => { d with catalog := some file }

def addProperty (d : Draft) (raw : String) : Option Draft :=
  if d.name = .type then some { d with properties := d.properties ++ [raw] } else none

def addOperand (d : Draft) (s : String) : Option Draft :=
  if d.operands.length < d.name.operandCount ∧ d.name.accepts s then
    some { d with operands := d.operands ++ [s] }
  else none

def command? (d : Draft) : Option Command :=
  match d.name, d.operands with
  | .list, [] => some .list
  | .type, [kind] => some (.type kind d.properties)
  | .meet, [a, b] => some (.meet a b)
  | .load, [file] => some (.load file)
  | _, _ => none

/-- A catalog given behind the command counts more than one given before it. -/
def request (outer : Option String) (d : Draft) : Request :=
  match d.command? with
  | some c => .run (d.catalog.or outer) c
  | none => .usageError

end Draft

/-- Behind a double dash every word is an operand. -/
def readOperands (outer : Option String) : Draft → List String → Request
  | d, [] => d.request outer
  | d, s :: rest =>
      match d.addOperand s with
      | some d => readOperands outer d rest
      | none => .usageError

def readCommand (outer : Option String) : Draft → List String → Request
  | d, [] => d.request outer
  | d, s :: rest =>
      match Word.ofString s with
      | .operand s =>
          match d.addOperand s with
          | some d => readCommand outer d rest
          | none => .usageError
      | .doubleDash => readOperands outer d rest
      | .catalog (some v) =>
          match d.setCatalog v with
          | some d => readCommand outer d rest
          | none => .usageError
      | .property (some v) =>
          match d.addProperty v with
          | some d => readCommand outer d rest
          | none => .usageError
      | .catalog none =>
          match rest with
          | [] => .usageError
          | v :: rest =>
              match (Word.value? v).bind d.setCatalog with
              | some d => readCommand outer d rest
              | none => .usageError
      | .property none =>
          match rest with
          | [] => .usageError
          | v :: rest =>
              match (Word.value? v).bind d.addProperty with
              | some d => readCommand outer d rest
              | none => .usageError
      | .help => .help
      | .version => .usageError
      | .unknown => .usageError

/-- Help on a command is asked for by its name. -/
def readHelp : List String → Request
  | [] => .help
  | [s] => if (CommandName.ofString? s).isSome || s == "help" then .help else .usageError
  | _ => .usageError

def readFrom : (catalog : Option String) → List String → Request
  | _, [] => .usageError
  | catalog, s :: rest =>
      match Word.ofString s with
      | .operand s =>
          match CommandName.ofString? s with
          | some name => readCommand catalog (Draft.start name) rest
          | none => if s == "help" then readHelp rest else .usageError
      | .catalog (some v) =>
          match Draft.putCatalog catalog v with
          | some file => readFrom (some file) rest
          | none => .usageError
      | .catalog none =>
          match rest with
          | [] => .usageError
          | v :: rest =>
              match (Word.value? v).bind (Draft.putCatalog catalog) with
              | some file => readFrom (some file) rest
              | none => .usageError
      | .help => .help
      | .version => .version
      | _ => .usageError

def Request.ofArguments (args : List String) : Request := readFrom none args

end ColumnTypes.Inspect
