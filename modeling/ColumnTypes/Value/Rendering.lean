import ColumnTypes.Logged
import ColumnTypes.Text.Blank
import ColumnTypes.Text.Count
import ColumnTypes.Value

namespace ColumnTypes

/-!
# Rendering

A renderer turns values into text. Which renderer a capability offers may depend
on the column that is shown. The renderers of a column are never none.

Renderers that a caller makes are left out, as are such orders, and for the same
reason.
-/

structure Column where
  name : String
  properties : List (String × String)
deriving DecidableEq, Inhabited

namespace Column

def named (name : String) : Column := ⟨name, []⟩

/-- A later value of a key hides the earlier ones. -/
def put (c : Column) (key value : String) : Column :=
  { c with properties := (key, value) :: c.properties }

def get? (c : Column) (key : String) : Option String := c.properties.lookup key

def decimalsKey : String := "renderer.decimals"

def decimalsLimit : Nat := 17

/-- The number of decimals that the column asks for. One that cannot be read or is too large
is reported and then ignored. -/
def decimals? (c : Column) : Logged (Option Nat) :=
  match c.get? decimalsKey with
  | none => ⟨none, []⟩
  | some raw =>
      match Text.count? (Text.trim raw.toList) with
      | none => ⟨none, [.decimalsUnreadable c.name raw]⟩
      | some n =>
          if n ≤ decimalsLimit then ⟨some n, []⟩
          else ⟨none, [.decimalsOutOfRange c.name raw]⟩

end Column

inductive Renderer where
  | display
  | numeric (decimals : Option Nat)
deriving DecidableEq, Inhabited

namespace Renderer

def description : Renderer → String
  | display => "String"
  | numeric _ => "Numeric"

def render : Renderer → Value → String
  | display, v => v.display
  | numeric decimals, v =>
      match v.number?, decimals with
      | some x, some d => x.fixed d
      | some x, none => x.display
      | none, _ => v.display

end Renderer

/-- What a capability offers for a column: a renderer of fixed kind, or nothing. -/
inductive RendererRule where
  | display
  | numeric
  | decline
deriving DecidableEq, Inhabited

def RendererRule.forColumn : RendererRule → Column → Logged (Option Renderer)
  | display, _ => pure (some .display)
  | numeric, c => do
      let decimals ← c.decimals?
      pure (some (.numeric decimals))
  | decline, _ => pure none

structure Renderers where
  first : Renderer
  others : List Renderer
deriving DecidableEq, Inhabited

namespace Renderers

/-- Plain display stands in when there are no renderers. -/
def ofList : List Renderer → Renderers
  | [] => ⟨.display, []⟩
  | r :: rs => ⟨r, rs⟩

def toList (s : Renderers) : List Renderer := s.first :: s.others

def descriptions (s : Renderers) : List String := s.toList.map Renderer.description

def render (s : Renderers) (v : Value) : String := s.first.render v

end Renderers

end ColumnTypes
