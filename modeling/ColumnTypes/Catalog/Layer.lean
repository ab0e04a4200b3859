import ColumnTypes.Catalog

namespace ColumnTypes

/-!
# Building catalogs

Declarations refer to each other by name, in any order. A layer of them is
resolved over a base catalog: parents are registered before what extends them,
and a layer with a defect is refused as a whole.
-/

structure CapabilityDeclaration where
  name : String
  parents : List String
  bundle : Option Bundle
deriving DecidableEq, Inhabited

structure KindDeclaration where
  name : String
  parent : Option String
  implements : List String
  preferred : Option String
  codec : Option Codec
deriving DecidableEq, Inhabited

structure Layer where
  /-- The settings of the base stay in force where none are given. -/
  settings : Option Settings
  capabilities : List CapabilityDeclaration
  kinds : List KindDeclaration
deriving DecidableEq, Inhabited

/-- The first name that is taken or stands earlier in the list. -/
def firstTaken? (taken : List String) : List String → Option String
  | [] => none
  | n :: ns => if taken.contains n then some n else firstTaken? (n :: taken) ns

theorem firstTaken?_eq_none_iff {taken ns : List String} :
    firstTaken? taken ns = none ↔ ns.Nodup ∧ ∀ n ∈ ns, n ∉ taken := by
  induction ns generalizing taken with
  | nil => simp [firstTaken?]
  | cons n ns ih =>
      by_cases h : n ∈ taken
      · simp [firstTaken?, h]
      · simp only [firstTaken?, List.contains_eq_mem, h, decide_false, Bool.false_eq_true,
          if_false, ih, List.nodup_cons, List.mem_cons, forall_eq_or_imp, not_or]
        grind

namespace CapabilityDeclaration

abbrev named? (ds : List CapabilityDeclaration) (name : String) : Option CapabilityDeclaration :=
  Named.find? CapabilityDeclaration.name ds name

abbrev without (ds : List CapabilityDeclaration) (name : String) : List CapabilityDeclaration :=
  Named.without CapabilityDeclaration.name ds name

/-- Resolves the parents of `owner` one after the other and leaves out repeated ones. -/
def resolveParents (known : List String)
    (resolve : List Capability → String → Except Catalog.Error (Capability × List Capability))
    (owner : String) : List String → List Capability → List Capability →
      Except Catalog.Error (List Capability × List Capability)
  | [], parents, registered => .ok (parents, registered)
  | p :: ps, parents, registered =>
      if known.contains p then
        match resolve registered p with
        | .error e => .error e
        | .ok (c, registered) =>
            resolveParents known resolve owner ps
              (if c.isListed parents then parents else parents ++ [c]) registered
      else .error (.unknownCapability owner p)

/-- The capability of a name and the registered ones after it. Of the known names, one that is
neither registered nor `available` is already being resolved further down, so it extends itself.
Callers are to ask for known names only. -/
def resolve (known : List String) (available : List CapabilityDeclaration)
    (registered : List Capability) (name : String) :
    Except Catalog.Error (Capability × List Capability) :=
  match Capability.named? registered name with
  | some c => .ok (c, registered)
  | none =>
      match h : named? available name with
      | none =>
          if known.contains name then .error (.capabilityCycle name)
          else .error (.invalid s!"unknown capability '{name}'")
      | some d =>
          have := Named.length_without_lt h
          match resolveParents known (resolve known (without available name)) d.name d.parents []
              registered with
          | .error e => .error e
          | .ok (parents, registered) =>
              let c := Capability.mk d.name d.bundle parents
              .ok (c, registered ++ [c])
termination_by available.length
decreasing_by assumption

def resolveAll (known : List String) (ds : List CapabilityDeclaration) :
    List CapabilityDeclaration → List Capability → Except Catalog.Error (List Capability)
  | [], registered => .ok registered
  | d :: rest, registered =>
      match resolve known ds registered d.name with
      | .error e => .error e
      | .ok (_, registered) => resolveAll known ds rest registered

end CapabilityDeclaration

namespace KindDeclaration

abbrev named? (ds : List KindDeclaration) (name : String) : Option KindDeclaration :=
  Named.find? KindDeclaration.name ds name

abbrev without (ds : List KindDeclaration) (name : String) : List KindDeclaration :=
  Named.without KindDeclaration.name ds name

def resolveImplements (capabilities : List Capability) (owner : String) :
    List String → Except Catalog.Error (List Capability)
  | [] => .ok []
  | n :: ns =>
      match Capability.named? capabilities n with
      | none => .error (.unknownCapability owner n)
      | some c => (resolveImplements capabilities owner ns).map (c :: ·)

/-- A preference for an unknown capability is reported and dropped. -/
def resolvePreferred (capabilities : List Capability) (owner : String) :
    Option String → Logged (Option Capability)
  | none => pure none
  | some n =>
      match Capability.named? capabilities n with
      | some c => pure (some c)
      | none => ⟨none, [.preferenceUnknown owner n]⟩

def define (capabilities : List Capability) (d : KindDeclaration) (parent : Option Kind) :
    ExceptT Catalog.Error Logged Kind := do
  let implements ← liftExcept (resolveImplements capabilities d.name d.implements)
  let preferred ← ExceptT.lift (resolvePreferred capabilities d.name d.preferred)
  pure (Kind.extending parent ⟨d.name, .catalog, implements, preferred, d.codec⟩)
where
  liftExcept {α : Type} (x : Except Catalog.Error α) : ExceptT Catalog.Error Logged α :=
    ExceptT.mk (pure x)

def resolve (capabilities : List Capability) (known : List String)
    (available : List KindDeclaration) (registered : List Kind) (name : String) :
    ExceptT Catalog.Error Logged (Kind × List Kind) :=
  match Kind.named? registered name with
  | some k => pure (k, registered)
  | none =>
      match h : named? available name with
      | none =>
          if known.contains name then throw (.kindCycle name)
          else throw (.invalid s!"unknown cell kind '{name}'")
      | some d =>
          have := Named.length_without_lt h
          match d.parent with
          | none => do
              let k ← define capabilities d none
              pure (k, registered ++ [k])
          | some p =>
              if known.contains p then do
                let (parent, registered) ←
                  resolve capabilities known (without available name) registered p
                let k ← define capabilities d (some parent)
                pure (k, registered ++ [k])
              else throw (.unknownKind d.name p)
termination_by available.length
decreasing_by assumption

def resolveAll (capabilities : List Capability) (known : List String) (ds : List KindDeclaration) :
    List KindDeclaration → List Kind → ExceptT Catalog.Error Logged (List Kind)
  | [], registered => pure registered
  | d :: rest, registered => do
      let (_, registered) ← resolve capabilities known ds registered d.name
      resolveAll capabilities known ds rest registered

end KindDeclaration

/-- Discovers the kinds one after the other up to the first with an unimplemented preference. -/
def checkPreferences : List Kind → ExceptT Catalog.Error Logged Unit
  | [] => pure ()
  | k :: ks => do
      let d ← ExceptT.lift k.reportDiscovery
      match d.unimplemented? with
      | some p => throw (.preferredNotImplemented k.name p.name)
      | none => checkPreferences ks

namespace Catalog

def addLayer (base : Catalog) (layer : Layer) : ExceptT Catalog.Error Logged Catalog := do
  let settings := layer.settings.getD base.settings
  let capabilityNames := layer.capabilities.map CapabilityDeclaration.name
  let kindNames := layer.kinds.map KindDeclaration.name
  let baseCapabilityNames := Capability.names base.capabilities
  let baseKindNames := base.kinds.map Kind.name
  if let some n := firstTaken? baseCapabilityNames capabilityNames then
    throw (.duplicateCapability n)
  if let some n := firstTaken? baseKindNames kindNames then
    throw (.duplicateKind n)
  if kindNames.contains missingKind then
    throw (.reservedName missingKind)
  let capabilities ← ExceptT.mk (pure (CapabilityDeclaration.resolveAll
    (baseCapabilityNames ++ capabilityNames) layer.capabilities layer.capabilities
    base.capabilities))
  let kinds ← KindDeclaration.resolveAll capabilities (baseKindNames ++ kindNames) layer.kinds
    layer.kinds base.kinds
  if settings.strictPreferred then
    checkPreferences (kinds.drop base.kinds.length)
  ExceptT.lift (Logged.emit (.catalogBuilt capabilities.length kinds.length))
  pure ⟨capabilities, kinds, settings⟩

end Catalog

end ColumnTypes
