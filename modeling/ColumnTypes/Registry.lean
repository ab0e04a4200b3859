import ColumnTypes.Catalog

namespace ColumnTypes

/-!
# The registry

Answers questions about kinds and descriptors over a fixed catalog, and keeps
what it has found. Descriptors and codecs are kept for the catalog's own kinds
only; bundles are kept under the name of the capability.

A registry hands out orders, renderers and codecs without a look inside. Of a
codec it only reads which kind it is for.
-/

structure Memo where
  descriptors : List (String × Descriptor)
  codecs : List (String × Option Codec)
  bundles : List (String × Bundle)
deriving Inhabited

def Memo.empty : Memo := ⟨[], [], []⟩

/-- A question to the registry: it may use and extend what is kept, and may give notices. -/
abbrev Query (α : Type) := StateT Memo Logged α

/-- A question that need not have an answer. -/
abbrev FallibleQuery (α : Type) := ExceptT Descriptor.Error (StateT Memo Logged) α

namespace Query

def report (n : Notice) : Query Unit := fun m => ⟨((), m), [n]⟩

def ofLogged {α : Type} (x : Logged α) : Query α := fun m => ⟨(x.value, m), x.notices⟩

end Query

/-! ## Bundles -/

namespace Memo

def bundle? (m : Memo) (c : Capability) : Option Bundle := m.bundles.lookup c.name

def keepBundle (m : Memo) (c : Capability) (b : Bundle) : Memo :=
  { m with bundles := (c.name, b) :: m.bundles }

/-- Found bundles are reported only where the universal one has to stand in. -/
def bundleNotices (c : Capability) : List Notice :=
  match c.bundle? with
  | some _ => []
  | none => [.bundleUndeclared c.name]

end Memo

/-- The bundle of a capability, looked up the first time its name is asked for. -/
def findBundle (c : Capability) : Query Bundle := fun m =>
  match m.bundle? c with
  | some b => ⟨(b, m), []⟩
  | none => ⟨(c.bundle, m.keepBundle c c.bundle), Memo.bundleNotices c⟩

def warm : List Capability → Query Unit
  | [] => pure ()
  | c :: cs => do
      let _ ← findBundle c
      warm cs

/-- The part of a bundle that is wanted, of the first capability that has it. The capabilities
behind that one are not looked up. -/
def firstPart {α : Type} (part : Bundle → Option α) : List Capability → Query (Option α)
  | [] => pure none
  | c :: cs => do
      match part (← findBundle c) with
      | some a => pure (some a)
      | none => firstPart part cs

def orderOf (t : Descriptor) : Query ValueOrder := do
  let order ← firstPart Bundle.order t.capabilities
  pure (order.getD .text)

def iconOf (t : Descriptor) : Query String := do
  let icon ← firstPart Bundle.icon t.capabilities
  pure (icon.getD Bundle.genericIcon)

def renderersFor (column : Column) : List Capability → Query (List Renderer)
  | [] => pure []
  | c :: cs => do
      let bundle ← findBundle c
      let renderer ← Query.ofLogged (bundle.rendererFor column)
      let others ← renderersFor column cs
      pure (renderer.toList ++ others)

def renderersOf (t : Descriptor) (column : Column) : Query Renderers := do
  let renderers ← renderersFor column t.capabilities
  pure (Renderers.ofList renderers)

/-! ## Kinds -/

/-- Discovery that looks up the bundle of each capability on its first visit, if asked to. -/
def discoverWarming (warming : Bool) (k : Kind) : Query Discovery := do
  if warming then warm k.discovery.capabilities
  Query.ofLogged k.reportDiscovery

namespace Catalog

/-- Whether the kind is the very definition that the catalog holds under its name. Definitions are
told apart by all that they say, their provenance included, and not by where they are stored. So a
kind of another catalog with the same definition counts as the own one: the descriptor and the
codec are the same for both, and are kept under the one name. -/
def owns (c : Catalog) (k : Kind) : Bool := c.kind? k.name == some k

theorem owns_iff {c : Catalog} {k : Kind} : c.owns k = true ↔ c.kind? k.name = some k := by
  simp [owns]

def ownershipNotices (c : Catalog) (k : Kind) : List Notice :=
  match c.kind? k.name with
  | some own => if own = k then [] else [.definitionDiffers k.name]
  | none => [.kindUnregistered k.name]

def reportOwns (c : Catalog) (k : Kind) : Query Bool :=
  Query.ofLogged ⟨c.owns k, c.ownershipNotices k⟩

/-- The descriptor of a kind. Only those of the catalog's own kinds are kept. -/
def descriptorOf (c : Catalog) (k : Kind) : Query Descriptor := do
  if ← c.reportOwns k then
    match (← get).descriptors.lookup k.name with
    | some t => pure t
    | none =>
        let d ← discoverWarming c.settings.warmBundles k
        let t := Descriptor.bound k d
        Query.report (.described k.name (Capability.names t.capabilities))
        modify fun m => { m with descriptors := (k.name, t) :: m.descriptors }
        pure t
  else
    let d ← discoverWarming false k
    pure (Descriptor.bound k d)

def descriptorNamed (c : Catalog) (name : String) : FallibleQuery Descriptor :=
  if name = missingKind then pure Descriptor.missing
  else
    match c.kind? name with
    | some k => ExceptT.lift (c.descriptorOf k)
    | none => throw (.unresolvableReference s!"cell kind '{name}'")

/-- Whether a codec of the target kind may serve kind `k`: it is `k` or a registered subkind. -/
def codecFits (c : Catalog) (k : Kind) (target : String) : Bool :=
  target == k.name || (c.kind? target).any fun other => other.descendsFrom k

/-- The codec that a kind declares for itself, if it fits. -/
def declaredCodec (c : Catalog) (k : Kind) : Logged (Option Codec) :=
  match k.declaredCodec with
  | none => ⟨none, [.codecUndeclared k.name]⟩
  | some codec =>
      if c.codecFits k codec.kind then pure (some codec)
      else ⟨none, [.codecMisplaced k.name codec.kind]⟩

/-- The codec in use for a kind. Only answers for the catalog's own kinds are kept. -/
def codecOf (c : Catalog) (k : Kind) : Query (Option Codec) := do
  if ← c.reportOwns k then
    match (← get).codecs.lookup k.name with
    | some found => pure found
    | none =>
        let found ← Query.ofLogged (c.declaredCodec k)
        modify fun m => { m with codecs := (k.name, found) :: m.codecs }
        pure found
  else
    Query.ofLogged (c.declaredCodec k)

end Catalog

/-! ## Descriptors -/

def mergeOption (t u : Option Descriptor) : Except Descriptor.Error Descriptor :=
  match t, u with
  | some t, some u => .ok (t.merge u)
  | _, _ => .error (.invalidArgument "common supertype requires two descriptors")

def supportsOption (t : Descriptor) (c : Option Capability) : Bool := c.any t.supports

/-- The types of a column after each of its values, when `t` was its type before. -/
def Catalog.inferSteps (c : Catalog) :
    Descriptor → List Value → FallibleQuery (List Descriptor)
  | _, [] => pure []
  | t, v :: vs => do
      let u ← c.descriptorNamed v.kind
      let next := t.merge u
      let later ← inferSteps c next vs
      pure (next :: later)

def Catalog.infer (c : Catalog) (values : List Value) : FallibleQuery Descriptor := do
  let steps ← c.inferSteps Descriptor.missing values
  pure (steps.getLastD Descriptor.missing)

end ColumnTypes
