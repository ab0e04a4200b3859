import ColumnTypes.Binary64.Text

namespace ColumnTypes

/-!
# Cell values

The content of one table cell. A value answers the views that its kind offers
and is shown by its display text. Values of other origins say for themselves
what they answer.
-/

/-- Name of the kind of the missing value, which no other kind may take. -/
def missingKind : String := "MissingCell"

structure ForeignValue where
  kind : String
  display : String
  number : Option Binary64
  text : Option String
  flag : Option Bool
deriving DecidableEq, Inhabited

inductive Value where
  | missing
  | whole (n : Int64)
  | real (x : Binary64)
  | text (s : String)
  | flag (b : Bool)
  | foreign (v : ForeignValue)
deriving DecidableEq, Inhabited

namespace Value

def kind : Value → String
  | missing => missingKind
  | whole _ => "Whole"
  | real _ => "Real"
  | text _ => "Text"
  | flag _ => "Flag"
  | foreign v => v.kind

def isMissing : Value → Bool
  | missing => true
  | _ => false

def number? : Value → Option Binary64
  | whole n => some (Binary64.ofInt n.toInt)
  | real x => some x
  | foreign v => v.number
  | _ => none

def text? : Value → Option String
  | text s => some s
  | foreign v => v.text
  | _ => none

def flag? : Value → Option Bool
  | flag b => some b
  | foreign v => v.flag
  | _ => none

def flagText (b : Bool) : String := if b then "true" else "false"

def wholeText (i : Int) : String :=
  String.ofList ((if i < 0 then ['-'] else []) ++ Nat.toDigits 10 i.natAbs)

def display : Value → String
  | missing => "?"
  | whole n => wholeText n.toInt
  | real x => x.display
  | text s => s
  | flag b => flagText b
  | foreign v => v.display

end Value

end ColumnTypes
