import ColumnTypes.Logged
import ColumnTypes.Value

namespace ColumnTypes

/-!
# Orders on values

Each order reads one view of both values and falls back on the display texts
when either value lacks it. Columns are sorted by such an order with the missing
value in front.

Orders that a caller makes are left out. Registries hand orders out without a
look inside, so what holds of their answers does not depend on which there are.
-/

inductive ValueOrder where
  | numeric
  | lexical
  | logical
  | text
deriving DecidableEq, Inhabited

def compareText (s t : String) : Ordering := compareOfLessAndEq s t

def compareNumber (x y : Binary64) : Ordering := compareOfLessAndEq x.position y.position

/-- `false` comes first. -/
def compareFlag (a b : Bool) : Ordering := compareOfLessAndEq a.toNat b.toNat

/-- Compares by a view when both sides have it, and by the display texts otherwise. -/
def compareView {α : Type} (view : Value → Option α) (order : α → α → Ordering)
    (a b : Value) : Ordering :=
  match view a, view b with
  | some x, some y => order x y
  | _, _ => compareText a.display b.display

namespace ValueOrder

def compare : ValueOrder → Value → Value → Ordering
  | numeric => compareView Value.number? compareNumber
  | lexical => compareView Value.text? compareText
  | logical => compareView Value.flag? compareFlag
  | text => fun a b => compareText a.display b.display

/-- The order of a column: missing values before all others, and equal to each other. -/
def compareCells (o : ValueOrder) (a b : Value) : Ordering :=
  match a.isMissing, b.isMissing with
  | true, true => .eq
  | true, false => .lt
  | false, true => .gt
  | false, false => o.compare a b

theorem compareCells_of_not_missing (o : ValueOrder) {a b : Value}
    (ha : a.isMissing = false) (hb : b.isMissing = false) :
    o.compareCells a b = o.compare a b := by
  simp [compareCells, ha, hb]

/-- Callers are expected to leave out pairs of missing values, so such a pair is reported. -/
def reportCompareCells (o : ValueOrder) (a b : Value) : Logged Ordering :=
  ⟨o.compareCells a b, if a.isMissing && b.isMissing then [.missingCompared] else []⟩

def reportName : ValueOrder → String
  | numeric => "NumericComparator"
  | lexical => "LexicalComparator"
  | logical => "LogicalComparator"
  | text => "ToStringComparator"

end ValueOrder

end ColumnTypes
