import ColumnTypes.Catalog.Layer
import ColumnTypes.Catalog.Builtin
import ColumnTypes.Toml.Document

namespace ColumnTypes

/-!
# Catalog files

A catalog may be written as a TOML document. Its fields may also be given by
position, as an array; keys that are not known are passed over.
-/

structure CapabilityRow where
  name : String
  parents : List String
  icon : Option String
  order : Option String
  renderer : Option String
deriving DecidableEq, Inhabited

structure KindRow where
  name : String
  parent : Option String
  implements : List String
  preferred : Option String
deriving DecidableEq, Inhabited

structure Catalog.File where
  includeBuiltin : Bool
  settings : Settings
  capabilities : List CapabilityRow
  kinds : List KindRow
deriving DecidableEq, Inhabited

namespace Catalog.File

def standard : Catalog.File := ⟨true, Settings.standard, [], []⟩

/-! ## Fields -/

abbrev Field := Option Toml.Item

/-- The fields of a record, in the order of their declaration. A date stands for a record
without known fields. -/
def fields? (keys : List String) : Toml.Item → Option (List Field)
  | .table _ es => some (keys.map fun key => Toml.Entries.get? es key)
  | .dateTime => some (keys.map fun _ => none)
  | .array items => some ((items.map some).take keys.length)
  | .tables elements => some ((elements.map fun es => some (.table .header es)).take keys.length)
  | _ => none

/-- Whether absent fields are spelled out, as in a table, or cut off, as in an array. -/
def isKeyed : Toml.Item → Bool
  | .table .. => true
  | .dateTime => true
  | _ => false

def flag? (standard : Bool) : Field → Option Bool
  | none => some standard
  | some (.flag b) => some b
  | some _ => none

def text? : Field → Option String
  | some (.text s) => some s
  | _ => none

def optionalText? : Field → Option (Option String)
  | none => some none
  | some (.text s) => some (some s)
  | some _ => none

def texts? : Field → Option (List String)
  | none => some []
  | some (.array items) => items.mapM fun item => text? (some item)
  | some _ => none

/-- Reads a list of records, whether written as an array or by repeated headers. -/
def records? {α : Type} (record : Toml.Item → Option α) : Field → Option (List α)
  | none => some []
  | some (.array items) => items.mapM record
  | some (.tables elements) => elements.mapM fun es => record (.table .header es)
  | some _ => none

def settings? (item : Toml.Item) : Option Settings := do
  let fields ← fields? ["strict_preferred", "warm_utilities"] item
  let strict ← flag? false (fields.getD 0 none)
  let warm ← flag? true (fields.getD 1 none)
  pure ⟨strict, warm⟩

/-- By position all fields must be given. -/
def capability? (item : Toml.Item) : Option CapabilityRow := do
  let fields ← fields? ["name", "extends", "icon", "comparator", "renderer"] item
  if isKeyed item = false ∧ fields.length < 5 then none
  else
    let name ← text? (fields.getD 0 none)
    let parents ← texts? (fields.getD 1 none)
    let icon ← optionalText? (fields.getD 2 none)
    let order ← optionalText? (fields.getD 3 none)
    let renderer ← optionalText? (fields.getD 4 none)
    pure ⟨name, parents, icon, order, renderer⟩

/-- By position all fields must be given. -/
def kind? (item : Toml.Item) : Option KindRow := do
  let fields ← fields? ["name", "extends", "implements", "preferred"] item
  if isKeyed item = false ∧ fields.length < 4 then none
  else
    let name ← text? (fields.getD 0 none)
    let parent ← optionalText? (fields.getD 1 none)
    let implements ← texts? (fields.getD 2 none)
    let preferred ← optionalText? (fields.getD 3 none)
    pure ⟨name, parent, implements, preferred⟩

def ofEntries? (es : Toml.Entries) : Option Catalog.File := do
  let includeBuiltin ← flag? true (Toml.Entries.get? es "include_builtin")
  let settings ← match Toml.Entries.get? es "registry" with
    | none => some Settings.standard
    | some item => settings? item
  let capabilities ← records? capability? (Toml.Entries.get? es "capability")
  let kinds ← records? kind? (Toml.Entries.get? es "cell")
  pure ⟨includeBuiltin, settings, capabilities, kinds⟩

def ofText (text : String) : Except Catalog.Error Catalog.File :=
  match (Toml.read? text).bind ofEntries? with
  | some file => .ok file
  | none => .error .malformed

/-- Reads the content of a file, or its absence. -/
def ofBytes (content : Option ByteArray) : Except Catalog.Error Catalog.File :=
  match content.bind String.fromUTF8? with
  | some text => ofText text
  | none => .error .unreadable

/-! ## Catalogs of files -/

def orderOfName? : String → Option ValueOrder
  | "numeric" => some .numeric
  | "lexical" => some .lexical
  | "logical" => some .logical
  | "text" => some .text
  | _ => none

def rendererOfName? : String → Option RendererRule
  | "string" => some .display
  | "numeric" => some .numeric
  | _ => none

def resolveName {α : Type} (find : String → Option α) (unknown : String → Catalog.Error) :
    Option String → Except Catalog.Error (Option α)
  | none => .ok none
  | some s =>
      match find s with
      | some a => .ok (some a)
      | none => .error (unknown s)

end Catalog.File

namespace CapabilityRow

def unknownPart (e : CapabilityRow) (part name : String) : Catalog.Error :=
  .invalid s!"capability '{e.name}': unknown {part} '{name}'"

/-- A bundle is declared by any one of its parts. -/
def bundle (e : CapabilityRow) : Except Catalog.Error (Option Bundle) := do
  let order ←
    Catalog.File.resolveName Catalog.File.orderOfName? (e.unknownPart "comparator") e.order
  let renderer ←
    Catalog.File.resolveName Catalog.File.rendererOfName? (e.unknownPart "renderer") e.renderer
  if e.icon.isNone && order.isNone && renderer.isNone then pure none
  else pure (some ⟨order, e.icon, renderer⟩)

def toDeclaration (e : CapabilityRow) : Except Catalog.Error CapabilityDeclaration :=
  e.bundle.map fun b => ⟨e.name, e.parents, b⟩

end CapabilityRow

def KindRow.toDeclaration (e : KindRow) : KindDeclaration :=
  ⟨e.name, e.parent, e.implements, e.preferred, none⟩

namespace Catalog.File

def base (file : Catalog.File) : Catalog :=
  if file.includeBuiltin then Catalog.builtin else Catalog.empty

def toLayer (file : Catalog.File) : Except Catalog.Error Layer := do
  let capabilities ← file.capabilities.mapM CapabilityRow.toDeclaration
  pure ⟨some file.settings, capabilities, file.kinds.map KindRow.toDeclaration⟩

def toCatalog (file : Catalog.File) : ExceptT Catalog.Error Logged Catalog := do
  let layer ← ExceptT.mk (pure file.toLayer)
  file.base.addLayer layer

end Catalog.File

end ColumnTypes
