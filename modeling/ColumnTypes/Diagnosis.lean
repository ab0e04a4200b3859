import ColumnTypes.Descriptor
import ColumnTypes.Text.Quoted

namespace ColumnTypes

/-!
# Diagnosis

Texts that lay open what a capability, a bundle, a kind or a descriptor holds.
-/

def recordText (name : String) (fields : List (String × String)) : String :=
  name ++ " \x7b " ++ ", ".intercalate (fields.map fun f => f.1 ++ ": " ++ f.2) ++ " \x7d"

def Capability.diagnosis (c : Capability) : String := Notice.capabilityText c.name

/-- A renderer is shown by its presence only. -/
def Bundle.diagnosis (b : Bundle) : String :=
  recordText "UtilityFactory"
    [("comparator", Notice.optionText (b.order.map ValueOrder.reportName)),
      ("icon", Notice.optionText (b.icon.map fun i => recordText "Icon" [("name", Text.quoted i)])),
      ("renderer", Value.flagText b.renderer.isSome)]

def Kind.diagnosis (k : Kind) : String := s!"CellKind({k.name})"

def Binding.diagnosis : Binding → String
  | kind k => s!"Native({k.diagnosis})"
  | missing => "Missing"
  | none => "Derived"

def Descriptor.diagnosis (t : Descriptor) : String :=
  recordText "DataType"
    [("origin", t.binding.diagnosis),
      ("capabilities", Notice.capabilityListText (Capability.names t.capabilities)),
      ("has_preferred", Value.flagText t.hasPreferred)]

end ColumnTypes
