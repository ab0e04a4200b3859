import ColumnTypes.Descriptor.Record

namespace ColumnTypes.Inspect

/-!
# Reports of the inspector

Listings of a catalog and descriptions of a descriptor, line by line.
-/

def lines (ls : List String) : String := String.join (ls.map (· ++ "\n"))

def capabilityLine (c : Capability) : String :=
  if c.parents.isEmpty then "  " ++ c.name
  else "  " ++ c.name ++ " : " ++ ", ".intercalate (Capability.names c.parents)

/-- The preferred capability is marked by a star. -/
def starred (t : Descriptor) : String :=
  match t.hasPreferred, Capability.names t.capabilities with
  | true, n :: ns => Notice.listText (("*" ++ n) :: ns)
  | _, ns => Notice.listText ns

def kindLine (catalog : Catalog) (k : Kind) : Query String := do
  let t ← catalog.descriptorOf k
  let origin := match k.parent? with
    | some p => " extends " ++ p.name
    | none => ""
  pure ("  " ++ k.name ++ origin ++ " -> " ++ starred t)

def kindLines (catalog : Catalog) : List Kind → Query (List String)
  | [] => pure []
  | k :: ks => do
      let line ← kindLine catalog k
      let others ← kindLines catalog ks
      pure (line :: others)

def listing (catalog : Catalog) : Query String := do
  let kinds ← kindLines catalog catalog.kinds
  pure (lines ([s!"Capabilities ({catalog.capabilities.length}):"] ++
    catalog.capabilities.map capabilityLine ++
    [s!"Cell kinds ({catalog.kinds.length}):"] ++ kinds))

def codecLines (catalog : Catalog) (t : Descriptor) : Query (List String) :=
  match t.kind? with
  | none => pure []
  | some k => do
      let codec ← catalog.codecOf k
      pure ["serializer:   " ++ (codec.map Codec.reportName).getD "none"]

def description (catalog : Catalog) (t : Descriptor) (column : Column) : Query String := do
  let icon ← iconOf t
  let order ← orderOf t
  let renderers ← renderersOf t column
  let codec ← codecLines catalog t
  pure (lines (["type:         " ++ t.label,
      "native:       " ++ Value.flagText t.isBound,
      "capabilities: " ++ starred t,
      "icon:         " ++ icon,
      "comparator:   " ++ order.reportName,
      "renderers:    " ++ ", ".intercalate renderers.descriptions] ++ codec ++
      ["saved:", (t.save Config.empty).toJson]))

end ColumnTypes.Inspect
