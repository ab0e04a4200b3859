import ColumnTypes.Catalog.File
import ColumnTypes.Inspect.Arguments
import ColumnTypes.Inspect.Report

namespace ColumnTypes.Inspect

/-!
# Running the inspector

From the arguments and the files they name to what is printed. A failure prints
nothing but its message and its causes.
-/

inductive ReadFailure where
  | absent
  | denied
  | throughFile
  | directory
  | other (message : String)
deriving DecidableEq, Inhabited

def ReadFailure.message : ReadFailure → String
  | absent => "No such file or directory (os error 2)"
  | denied => "Permission denied (os error 13)"
  | throughFile => "Not a directory (os error 20)"
  | directory => "Is a directory (os error 21)"
  | other message => message

def notTextMessage : String := "stream did not contain valid UTF-8"

abbrev FileReader := String → Except ReadFailure ByteArray

/-- A message with its causes, the immediate one first. -/
structure Failure where
  message : String
  causes : List String
deriving DecidableEq, Inhabited

namespace Failure

def plain (message : String) : Failure := ⟨message, []⟩

/-- Continued lines are set in. -/
def indent (margin : String) (text : String) : String :=
  ("\n" ++ margin).intercalate (text.splitOn "\n")

def numbered : (first : Nat) → List String → List String
  | _, [] => []
  | n, cause :: causes =>
      ("    " ++ toString n ++ ": " ++ indent "       " cause) :: numbered (n + 1) causes

/-- Causes are numbered if there are several. -/
def text (f : Failure) : String :=
  match f.causes with
  | [] => lines ["Error: " ++ f.message]
  | [cause] => lines ["Error: " ++ f.message, "", "Caused by:", "    " ++ indent "    " cause]
  | causes => lines (["Error: " ++ f.message, "", "Caused by:"] ++ numbered 0 causes)

end Failure

structure Outcome where
  code : UInt8
  output : String
  errors : String
deriving DecidableEq, Inhabited

namespace Outcome

def success (output : String) : Outcome := ⟨0, output, ""⟩

def failure (f : Failure) : Outcome := ⟨1, "", f.text⟩

end Outcome

def readText (files : FileReader) (path : String) : Except String String :=
  match files path with
  | .error e => .error e.message
  | .ok bytes =>
      match String.fromUTF8? bytes with
      | some text => .ok text
      | none => .error notTextMessage

/-- Files that cannot be read or are malformed have a cause of their own. -/
def catalogFailure (path : String) (causes : List String) : Failure :=
  ⟨"failed to load catalog " ++ path, causes⟩

def openCatalog (files : FileReader) : Option String → Except Failure Catalog
  | none => .ok Catalog.builtin
  | some path =>
      match readText files path with
      | .error e => .error (catalogFailure path [Catalog.Error.unreadable.message ++ e, e])
      | .ok text =>
          match Catalog.File.ofText text with
          | .error e => .error (catalogFailure path [e.message, "malformed document"])
          | .ok file =>
              match file.toCatalog.run.value with
              | .ok catalog => .ok catalog
              | .error e => .error (catalogFailure path [e.message])

def splitProperty? (raw : String) : Option (String × String) :=
  let cs := raw.toList
  match cs.dropWhile (· != '=') with
  | [] => none
  | _ :: value =>
      some (String.ofList (Text.trim (cs.takeWhile (· != '='))), String.ofList (Text.trim value))

def columnOf : Column → List String → Except Failure Column
  | column, [] => .ok column
  | column, raw :: rest =>
      match splitProperty? raw with
      | some (key, value) => columnOf (column.put key value) rest
      | none => .error (.plain s!"property '{raw}' is not KEY=VALUE")

/-! ## Commands -/

/-- Work on a command over one registry, which may fail. -/
abbrev Task (α : Type) := ExceptT Failure (StateT Memo Logged) α

namespace Task

def ofExcept {α : Type} (x : Except Failure α) : Task α := ExceptT.mk (pure x)

def ofQuery {α : Type} (q : FallibleQuery α) : Task α := q.adapt fun e => .plain e.message

end Task

def typeReport (catalog : Catalog) (kind : String) (properties : List String) : Task String := do
  let t ← Task.ofQuery (catalog.descriptorNamed kind)
  let column ← Task.ofExcept (columnOf (Column.named kind) properties)
  ExceptT.lift (description catalog t column)

def meetReport (catalog : Catalog) (a b : String) : Task String := do
  let t ← Task.ofQuery (catalog.descriptorNamed a)
  let u ← Task.ofQuery (catalog.descriptorNamed b)
  let report ← ExceptT.lift (description catalog (t.merge u) (Column.named "meet"))
  pure (lines [t.label ++ " ^ " ++ u.label] ++ report)

def loadReport (files : FileReader) (catalog : Catalog) (path : String) : Task String := do
  let text ← Task.ofExcept ((readText files path).mapError fun e =>
    ⟨"failed to read " ++ path, [e]⟩)
  let tree ← Task.ofExcept ((Config.ofJson text).mapError fun e =>
    ⟨e.message, ["malformed object"]⟩)
  let t ← Task.ofQuery (catalog.load tree)
  ExceptT.lift (description catalog t (Column.named "loaded"))

def report (files : FileReader) (catalog : Catalog) : Command → Task String
  | .list => ExceptT.lift (listing catalog)
  | .type kind properties => typeReport catalog kind properties
  | .meet a b => meetReport catalog a b
  | .load path => loadReport files catalog path

/-- All questions of a command are put to one registry, which was asked nothing before. -/
def answer (files : FileReader) (catalog : Catalog) (command : Command) :
    Except Failure String :=
  (report files catalog command Memo.empty).value.1

def versionText : String := lines ["celltype-inspect 0.3.0"]

def usageText : String := lines
  ["Usage: celltype-inspect [--catalog FILE] COMMAND",
    "Commands: list, type CELL [-p KEY=VALUE], meet A B, load FILE"]

def Request.perform (files : FileReader) : Request → Outcome
  | .usageError => ⟨2, "", usageText⟩
  | .help => .success usageText
  | .version => .success versionText
  | .run catalog command =>
      match (openCatalog files catalog).bind fun catalog => answer files catalog command with
      | .ok output => .success output
      | .error f => .failure f

def Request.files : Request → List String
  | .run catalog command =>
      catalog.toList ++ (match command with | .load path => [path] | _ => [])
  | _ => []

end ColumnTypes.Inspect
