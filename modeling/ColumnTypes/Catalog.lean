import ColumnTypes.Descriptor

namespace ColumnTypes

/-!
# Catalogs

The capabilities and kinds that are known by name, in the order of their
registration, with the settings of the registry over them.
-/

structure Settings where
  /-- Refuse kinds that prefer a capability they do not implement. -/
  strictPreferred : Bool
  /-- Look up bundles while capabilities are discovered. -/
  warmBundles : Bool
deriving DecidableEq

namespace Settings

def standard : Settings := ⟨false, true⟩

instance : Inhabited Settings := ⟨standard⟩

end Settings

structure Catalog where
  capabilities : List Capability
  kinds : List Kind
  settings : Settings
deriving DecidableEq, Inhabited

namespace Catalog

def empty : Catalog := ⟨[], [], Settings.standard⟩

def capability? (c : Catalog) (name : String) : Option Capability :=
  Capability.named? c.capabilities name

def kind? (c : Catalog) (name : String) : Option Kind := Kind.named? c.kinds name

end Catalog

inductive Catalog.Error where
  | duplicateCapability (name : String)
  | duplicateKind (name : String)
  | unknownCapability (owner name : String)
  | unknownKind (owner name : String)
  | capabilityCycle (name : String)
  | kindCycle (name : String)
  | reservedName (name : String)
  | preferredNotImplemented (kind capability : String)
  | alreadyInstalled
  /-- The catalog file is absent or not text. -/
  | unreadable
  /-- The catalog file is not well formed. -/
  | malformed
  | invalid (reason : String)
deriving DecidableEq, Inhabited

namespace Catalog.Error

def message : Catalog.Error → String
  | duplicateCapability name => s!"capability '{name}' is registered twice"
  | duplicateKind name => s!"cell kind '{name}' is registered twice"
  | unknownCapability owner name => s!"'{owner}' references unknown capability '{name}'"
  | unknownKind owner name => s!"'{owner}' extends unknown cell kind '{name}'"
  | capabilityCycle name => s!"capability hierarchy contains a cycle through '{name}'"
  | kindCycle name => s!"cell hierarchy contains a cycle through '{name}'"
  | reservedName name => s!"'{name}' is reserved for the missing value"
  | preferredNotImplemented kind capability =>
      s!"cell kind '{kind}' prefers '{capability}' but does not implement it"
  | alreadyInstalled => "a global registry is already installed"
  | unreadable => "I/O error: "
  | malformed => "TOML parse error: "
  | invalid reason => s!"invalid catalog: {reason}"

end Catalog.Error

end ColumnTypes
