import ColumnTypes.Config.Reader
import ColumnTypes.Config.Writer
import ColumnTypes.Registry

namespace ColumnTypes

/-!
# Saved descriptors

A descriptor is saved under three keys. One that is bound to a kind is saved by
the name of the kind alone; any other one leaves that name absent and lists its
capabilities.
-/

def kindKey : String := "cell_class"

def preferenceKey : String := "has_pref_value_class"

def capabilitiesKey : String := "value_classes"

/-- The keys of an earlier save that are not needed stay as they are. -/
def Descriptor.save (t : Descriptor) (tree : Config) : Config :=
  match t.binding with
  | .kind k => tree.putText kindKey (some k.name)
  | .missing => tree.putText kindKey (some missingKind)
  | .none =>
      ((tree.putText kindKey none).putFlag preferenceKey t.hasPreferred).putTexts capabilitiesKey
        (Capability.names t.capabilities)

def Descriptor.Error.ofConfig (e : Config.Error) : Descriptor.Error := .invalidArgument e.message

namespace Catalog

def resolveNames (c : Catalog) : List String → Except Descriptor.Error (List Capability)
  | [] => .ok []
  | n :: ns =>
      match c.capability? n with
      | none => .error (.unresolvableReference s!"capability '{n}'")
      | some cap => (resolveNames c ns).map (cap :: ·)

def loadList (c : Catalog) (tree : Config) : Except Descriptor.Error Descriptor := do
  let hasPreferred ← (tree.getFlag preferenceKey).mapError Descriptor.Error.ofConfig
  let names ← (tree.getTexts capabilitiesKey).mapError Descriptor.Error.ofConfig
  let capabilities ← c.resolveNames names
  Descriptor.ofList hasPreferred capabilities

def load (c : Catalog) (tree : Config) : FallibleQuery Descriptor :=
  match tree.getText kindKey with
  | .error e => throw (Descriptor.Error.ofConfig e)
  | .ok (some name) => c.descriptorNamed name
  | .ok none => ExceptT.mk (pure (c.loadList tree))

end Catalog

end ColumnTypes
