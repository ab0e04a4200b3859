namespace ColumnTypes

/-!
# Notices

What the library reports besides its answers. A notice is an event; its level
and wording are functions of it.
-/

inductive Level where
  | debug
  | warn
  | error
deriving DecidableEq, Inhabited

inductive Notice where
  | missingCompared
  | decimalsOutOfRange (column raw : String)
  | decimalsUnreadable (column raw : String)
  | bundleUndeclared (capability : String)
  | preferenceUnknown (kind capability : String)
  | preferenceUnimplemented (kind capability : String)
  | discovered (kind : String) (capabilities : List String) (preferred : Option String)
  | catalogBuilt (capabilities kinds : Nat)
  | definitionDiffers (kind : String)
  | kindUnregistered (kind : String)
  | described (kind : String) (capabilities : List String)
  | codecUndeclared (kind : String)
  | codecMisplaced (kind target : String)
  | sharedInstalled
  | sharedInitialized
deriving DecidableEq, Inhabited

namespace Notice

def level : Notice → Level
  | missingCompared => .error
  | preferenceUnknown .. | preferenceUnimplemented .. | definitionDiffers _
  | codecMisplaced .. => .warn
  | _ => .debug

def capabilityText (name : String) : String := s!"Capability({name})"

def listText (items : List String) : String := "[" ++ ", ".intercalate items ++ "]"

def capabilityListText (names : List String) : String := listText (names.map capabilityText)

def optionText : Option String → String
  | none => "None"
  | some s => s!"Some({s})"

def message : Notice → String
  | missingCompared => "[coding] DataValueComparator::compare called with two missing values"
  | decimalsOutOfRange column raw =>
      s!"[utility] column '{column}' has out-of-range renderer.decimals='{raw}' (max 17)"
  | decimalsUnreadable column raw =>
      s!"[utility] column '{column}' has unparsable renderer.decimals='{raw}'"
  | bundleUndeclared capability =>
      s!"[utility] capability '{capability}' declares no utility bundle, using universal bundle"
  | preferenceUnknown kind capability =>
      s!"[coding] cell kind '{kind}' names unknown capability '{capability}' as preferred; " ++
        "ignoring the preference"
  | preferenceUnimplemented kind capability =>
      s!"[coding] cell kind '{kind}' declares '{capability}' as its preferred capability but " ++
        "does not implement it"
  | discovered kind capabilities preferred =>
      s!"[discovery] {kind} -> " ++ capabilityListText capabilities ++
        " (preferred: " ++ optionText (preferred.map capabilityText) ++ ")"
  | catalogBuilt capabilities kinds =>
      s!"[catalog] built {capabilities} capabilities, {kinds} cell kinds"
  | definitionDiffers kind =>
      s!"[coding] cell kind '{kind}' is not the definition registered under that name; " ++
        "not caching it"
  | kindUnregistered kind => s!"[registry] cell kind '{kind}' is not registered; not caching it"
  | described kind capabilities =>
      s!"[registry] type_of({kind}) -> " ++ capabilityListText capabilities
  | codecUndeclared kind => s!"[registry] cell kind '{kind}' declares no serializer"
  | codecMisplaced kind target =>
      s!"[coding] serializer declared by '{kind}' handles '{target}', which is not '{kind}' or " ++
        "one of its subkinds; ignoring it"
  | sharedInstalled => "[registry] global registry installed"
  | sharedInitialized => "[registry] initializing global registry from builtin catalog"

end Notice

end ColumnTypes
