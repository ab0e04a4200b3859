import ColumnTypes.Catalog.Builtin
import ColumnTypes.Proofs.Lineages

namespace ColumnTypes

/-!
# Well-formed catalogs

In a catalog that was built layer by layer, every name stands for one
definition: the capabilities form a hierarchy, and the kinds refer to registered
capabilities and to kinds registered before them.
-/

/-! ## Resolving kinds -/

namespace KindDeclaration

open Kind (Lineages)

theorem resolveImplements_spec {capabilities cs : List Capability} {owner : String}
    {ns : List String} (h : resolveImplements capabilities owner ns = .ok cs) :
    (∀ c ∈ cs, c ∈ capabilities) ∧ Capability.names cs = ns := by
  induction ns generalizing cs with
  | nil =>
      obtain rfl := Except.ok.inj h
      exact ⟨nofun, rfl⟩
  | cons n ns ih =>
      rw [resolveImplements] at h
      split at h
      · cases h
      · rename_i c hc
        obtain ⟨rest, hrest, rfl⟩ := Result.ok_of_map h
        obtain ⟨hmem, hnames⟩ := ih hrest
        refine ⟨List.forall_mem_cons.mpr ⟨Named.mem_of_find? hc, hmem⟩, ?_⟩
        rw [Capability.names, List.map_cons, Named.name_of_find? hc]
        exact congrArg (n :: ·) hnames

/-- A preference is kept exactly if its name is known. -/
theorem resolvePreferred_spec (capabilities : List Capability) (owner : String)
    (preferred : Option String) :
    (∀ c, (resolvePreferred capabilities owner preferred).value = some c → c ∈ capabilities) ∧
      (resolvePreferred capabilities owner preferred).value.map Capability.name =
        preferred.filter fun n => (Capability.names capabilities).contains n := by
  cases preferred with
  | none =>
      refine ⟨?_, rfl⟩
      intro c hc
      cases hc
  | some n =>
      rw [resolvePreferred]
      split
      · rename_i d hd
        have hknown : n ∈ Capability.names capabilities :=
          Named.name_of_find? hd ▸ List.mem_map_of_mem (Named.mem_of_find? hd)
        refine ⟨fun c hc => Option.some.inj hc ▸ Named.mem_of_find? hd, ?_⟩
        simp [Option.filter, hknown, Named.name_of_find? hd]
      · rename_i hnone
        have hunknown : n ∉ Capability.names capabilities := Named.find?_eq_none_iff.mp hnone
        refine ⟨?_, by simp [Option.filter, hunknown]⟩
        intro c hc
        cases hc

structure Defines (capabilities : List Capability) (d : KindDeclaration) (parent : Option Kind)
    (k : Kind) : Prop where
  parent_eq : k.parent? = parent
  declaration_eq : k.declaration =
    { d.effective (Capability.names capabilities) with parent := parent.map Kind.name }
  implements_mem : ∀ c ∈ k.implements, c ∈ capabilities
  preferred_mem : ∀ c, k.declaredPreferred = some c → c ∈ capabilities

theorem defines_of_define {capabilities : List Capability} {d : KindDeclaration}
    {parent : Option Kind} {k : Kind} (h : (define capabilities d parent).run.value = .ok k) :
    Defines capabilities d parent k := by
  obtain ⟨cs, hcs, h⟩ := Logged.ok_of_bind h
  obtain ⟨preferred, hpreferred, h⟩ := Logged.ok_of_bind h
  obtain rfl := Logged.eq_of_pure_ok h
  obtain rfl := Except.ok.inj hpreferred
  obtain ⟨hmem, himplements⟩ := resolveImplements_spec hcs
  obtain ⟨hpreferred, hkept⟩ := resolvePreferred_spec capabilities d.name d.preferred
  have hparent := Kind.parent?_extending parent
    ⟨d.name, .catalog, cs, (resolvePreferred capabilities d.name d.preferred).value, d.codec⟩
  exact
    { parent_eq := hparent
      declaration_eq := by
        rw [Kind.declaration, hparent, effective, ← himplements, ← Capability.names_distinct,
          ← hkept]
        rfl
      implements_mem := fun c hc => hmem c (Capability.mem_of_mem_distinct hc)
      preferred_mem := hpreferred }

/-- A kind is registered after its parent and as it was declared, under a name that is new. -/
theorem grown_concat {capabilities : List Capability} {available : List KindDeclaration}
    {registered mid : List Kind} {d : KindDeclaration} {parent : Option Kind} {k : Kind}
    (hnone : Kind.named? registered d.name = none) (hd : d ∈ available)
    (hmid : Grown (Lineages capabilities) (EntryOf capabilities (without available d.name))
      registered mid)
    (hparent : ∀ p, parent = some p → p ∈ mid) (hname : parent.map Kind.name = d.parent)
    (hk : Defines capabilities d parent k) :
    Grown (Lineages capabilities) (EntryOf capabilities available) registered (mid ++ [k]) ∧
      k.name = d.name := by
  have hdeclared : k.declaration = d.effective (Capability.names capabilities) := by
    rw [hk.declaration_eq, hname]
    rfl
  have hkd : k.name = d.name := congrArg KindDeclaration.name hdeclared
  have hregistered : d.name ∉ registered.map Kind.name := Named.find?_eq_none_iff.mp hnone
  have hnew : k.name ∉ mid.map Kind.name := by
    rw [hkd]
    apply hmid.notMem_names hregistered
    intro x hx heq
    have hmem := hx.name_mem KindDeclaration.name fun _ => rfl
    exact Named.notMem_names_without KindDeclaration.name available d.name (heq ▸ hmem)
  refine ⟨?_, hkd⟩
  have hsub := Named.without_subset KindDeclaration.name available d.name
  apply (hmid.mono fun _ => Declared.mono hsub).concat
  · exact ⟨d, hd, hdeclared⟩
  · intro hgood
    exact hgood.concat hnew (hk.parent_eq ▸ hparent) hk.implements_mem hk.preferred_mem

theorem resolve_grown {capabilities : List Capability} {known : List String}
    {available : List KindDeclaration} {registered registered' : List Kind} {name : String}
    {k : Kind}
    (h : (resolve capabilities known available registered name).run.value =
      .ok (k, registered')) :
    Grown (Lineages capabilities) (EntryOf capabilities available) registered registered' ∧
      k ∈ registered' ∧ k.name = name := by
  rw [resolve] at h
  split at h
  · rename_i l hl
    obtain ⟨rfl, rfl⟩ := Prod.mk.inj (Logged.eq_of_pure_ok h)
    exact ⟨Grown.refl _ _, Named.mem_of_find? hl, Named.name_of_find? hl⟩
  · rename_i hnone
    split at h
    · split at h <;> cases h
    · rename_i d hd
      have hlt := Named.length_without_lt hd
      obtain rfl := Named.name_of_find? hd
      split at h
      · rename_i hp
        obtain ⟨l, hl, h⟩ := Logged.ok_of_bind h
        obtain ⟨rfl, rfl⟩ := Prod.mk.inj (Logged.eq_of_pure_ok h)
        have hmem : ∀ q, (none : Option Kind) = some q → q ∈ registered := by
          intro q hq
          cases hq
        obtain ⟨hgrown, hname⟩ := grown_concat hnone (Named.mem_of_find? hd) (Grown.refl _ _) hmem
          hp.symm (defines_of_define hl)
        exact ⟨hgrown, List.mem_append_right _ List.mem_cons_self, hname⟩
      · rename_i p hp
        split at h
        · obtain ⟨⟨parent, mid⟩, hparent, h⟩ := Logged.ok_of_bind h
          obtain ⟨l, hl, h⟩ := Logged.ok_of_bind h
          obtain ⟨rfl, rfl⟩ := Prod.mk.inj (Logged.eq_of_pure_ok h)
          obtain ⟨hmid, hmem, hpname⟩ := resolve_grown hparent
          have hbefore : ∀ q, some parent = some q → q ∈ mid :=
            fun q hq => Option.some.inj hq ▸ hmem
          have hname : (some parent).map Kind.name = d.parent := by
            rw [hp, Option.map_some, hpname]
          obtain ⟨hgrown, hname⟩ := grown_concat hnone (Named.mem_of_find? hd) hmid hbefore hname
            (defines_of_define hl)
          exact ⟨hgrown, List.mem_append_right _ List.mem_cons_self, hname⟩
        · cases h
termination_by available.length

/-- Every declaration is resolved, and nothing is registered but what is declared. -/
theorem resolveAll_grown {capabilities : List Capability} {known : List String}
    {ds rest : List KindDeclaration} {registered registered' : List Kind}
    (h : (resolveAll capabilities known ds rest registered).run.value = .ok registered') :
    Grown (Lineages capabilities) (EntryOf capabilities ds) registered registered' ∧
      ∀ d ∈ rest, d.name ∈ registered'.map Kind.name := by
  induction rest generalizing registered with
  | nil =>
      rw [resolveAll] at h
      exact ⟨Logged.eq_of_pure_ok h ▸ Grown.refl _ registered, nofun⟩
  | cons d rest ih =>
      rw [resolveAll] at h
      obtain ⟨⟨k, mid⟩, hk, h⟩ := Logged.ok_of_bind h
      obtain ⟨hmid, hmem, hname⟩ := resolve_grown hk
      obtain ⟨hlast, hall⟩ := ih h
      refine ⟨hmid.trans hlast, List.forall_mem_cons.mpr ⟨?_, hall⟩⟩
      exact hname ▸ List.mem_map_of_mem (hlast.mem hmem)

end KindDeclaration

/-! ## Catalogs -/

namespace Catalog

open Capability (Hierarchy)
open Kind (Lineages)

structure WellFormed (c : Catalog) : Prop where
  hierarchy : Hierarchy c.capabilities
  lineages : Lineages c.capabilities c.kinds
  missing_reserved : missingKind ∉ c.kinds.map Kind.name

theorem wellFormed_empty : empty.WellFormed where
  hierarchy := Hierarchy.nil
  lineages := ⟨List.nodup_nil, by simp [empty], by simp [empty], by simp [empty]⟩
  missing_reserved := by simp [empty]

theorem wellFormed_builtin : builtin.WellFormed where
  hierarchy :=
    (((Hierarchy.nil.concat (by decide) (by decide)).concat (by decide) (by decide)).concat
      (by decide) (by decide)).concat (by decide) (by decide)
  lineages := by
    have hnil : Lineages builtin.capabilities [] :=
      ⟨List.nodup_nil, by simp, by simp, by simp⟩
    exact (((hnil.concat (by decide) (by decide) (by decide) (by decide)).concat
      (by decide) (by decide) (by decide) (by decide)).concat
      (by decide) (by decide) (by decide) (by decide)).concat
      (by decide) (by decide) (by decide) (by decide)
  missing_reserved := by decide

/-- The names that declarations of the layer can refer to. -/
def knownCapabilities (base : Catalog) (layer : Layer) : List String :=
  Capability.names base.capabilities ++ layer.capabilities.map CapabilityDeclaration.name

def knownKinds (base : Catalog) (layer : Layer) : List String :=
  base.kinds.map Kind.name ++ layer.kinds.map KindDeclaration.name

/-- The error for the first name of the layer that must not be declared. -/
def nameError? (base : Catalog) (layer : Layer) : Option Catalog.Error :=
  ((firstTaken? (Capability.names base.capabilities)
      (layer.capabilities.map CapabilityDeclaration.name)).map .duplicateCapability).or
    (((firstTaken? (base.kinds.map Kind.name)
        (layer.kinds.map KindDeclaration.name)).map .duplicateKind).or
      (if (layer.kinds.map KindDeclaration.name).contains missingKind then
        some (.reservedName missingKind) else none))

theorem nameError?_eq_none_iff {base : Catalog} {layer : Layer} :
    base.nameError? layer = none ↔
      firstTaken? (Capability.names base.capabilities)
          (layer.capabilities.map CapabilityDeclaration.name) = none ∧
        firstTaken? (base.kinds.map Kind.name) (layer.kinds.map KindDeclaration.name) = none ∧
          missingKind ∉ layer.kinds.map KindDeclaration.name := by
  simp [nameError?]

/-- What follows once all names of the layer may be declared. -/
def resolveLayer (base : Catalog) (layer : Layer) : Except Catalog.Error Catalog := do
  let settings := layer.settings.getD base.settings
  let capabilities ← CapabilityDeclaration.resolveAll (base.knownCapabilities layer)
    layer.capabilities layer.capabilities base.capabilities
  let kinds ← (KindDeclaration.resolveAll capabilities (base.knownKinds layer) layer.kinds
    layer.kinds base.kinds).run.value
  if settings.strictPreferred then
    (checkPreferences (kinds.drop base.kinds.length)).run.value
  pure ⟨capabilities, kinds, settings⟩

theorem addLayer_value (base : Catalog) (layer : Layer) :
    (base.addLayer layer).run.value =
      match base.nameError? layer with
      | some e => .error e
      | none => base.resolveLayer layer := by
  unfold addLayer nameError?
  dsimp only
  cases hcapabilities : firstTaken? (Capability.names base.capabilities)
    (layer.capabilities.map CapabilityDeclaration.name) with
  | some n => rfl
  | none =>
      cases hkinds : firstTaken? (base.kinds.map Kind.name)
        (layer.kinds.map KindDeclaration.name) with
      | some n => rfl
      | none =>
          cases hreserved : (layer.kinds.map KindDeclaration.name).contains missingKind with
          | true => rfl
          | false =>
              change _ = base.resolveLayer layer
              rw [if_neg Bool.false_ne_true, Logged.value_run_bind]
              unfold resolveLayer
              dsimp only
              congr 1
              funext capabilities
              rw [Logged.value_run_bind]
              congr 1
              funext kinds
              split
              · rw [Logged.value_run_bind]
                rfl
              · rfl

/-- The catalog lists what the declarations of the layer resolve to over the base. -/
structure Resolved (base : Catalog) (layer : Layer) (c : Catalog) : Prop where
  capability_names : firstTaken? (Capability.names base.capabilities)
    (layer.capabilities.map CapabilityDeclaration.name) = none
  kind_names : firstTaken? (base.kinds.map Kind.name)
    (layer.kinds.map KindDeclaration.name) = none
  missing_reserved : missingKind ∉ layer.kinds.map KindDeclaration.name
  capabilities_resolved : CapabilityDeclaration.resolveAll (base.knownCapabilities layer)
    layer.capabilities layer.capabilities base.capabilities = .ok c.capabilities
  kinds_resolved : (KindDeclaration.resolveAll c.capabilities (base.knownKinds layer)
    layer.kinds layer.kinds base.kinds).run.value = .ok c.kinds

/-- What a layer of declarations that is not refused makes of the base. -/
structure Layered (base : Catalog) (layer : Layer) (c : Catalog) : Prop extends
    Resolved base layer c where
  preferences_checked : c.settings.strictPreferred = true →
    (checkPreferences (c.kinds.drop base.kinds.length)).run.value = .ok ()
  settings_eq : c.settings = layer.settings.getD base.settings

theorem layered_of_addLayer {base c : Catalog} {layer : Layer}
    (h : (base.addLayer layer).run.value = .ok c) : Layered base layer c := by
  rw [addLayer_value] at h
  split at h
  · cases h
  · rename_i hnames
    obtain ⟨hcapabilities, hkinds, hreserved⟩ := nameError?_eq_none_iff.mp hnames
    obtain ⟨capabilities, hcaps, h⟩ := Result.ok_of_bind h
    obtain ⟨kinds, hks, h⟩ := Result.ok_of_bind h
    have hdone : ⟨capabilities, kinds, layer.settings.getD base.settings⟩ = c ∧
        ((layer.settings.getD base.settings).strictPreferred = true →
          (checkPreferences (kinds.drop base.kinds.length)).run.value = .ok ()) := by
      split at h
      · obtain ⟨_, hcheck, h⟩ := Result.ok_of_bind h
        exact ⟨Except.ok.inj h, fun _ => hcheck⟩
      · rename_i hlax
        exact ⟨Except.ok.inj h, fun hstrict => absurd hstrict hlax⟩
    obtain ⟨rfl, hcheck⟩ := hdone
    exact
      { capability_names := hcapabilities
        kind_names := hkinds
        missing_reserved := hreserved
        capabilities_resolved := hcaps
        kinds_resolved := hks
        preferences_checked := hcheck
        settings_eq := rfl }

theorem Resolved.wellFormed {base c : Catalog} {layer : Layer} (h : Resolved base layer c)
    (hbase : base.WellFormed) : c.WellFormed := by
  have hcaps := (CapabilityDeclaration.resolveAll_grown h.capabilities_resolved).1
  have hkinds := (KindDeclaration.resolveAll_grown h.kinds_resolved).1
  refine
    { hierarchy := hcaps.good hbase.hierarchy
      lineages := hkinds.good (hbase.lineages.mono hcaps.kept.subset)
      missing_reserved := hkinds.notMem_names hbase.missing_reserved ?_ }
  intro k hk heq
  have hmem := hk.name_mem KindDeclaration.name fun _ => rfl
  exact h.missing_reserved (heq ▸ hmem)

/-- The catalogs that layers of declarations can build, from nothing or from the builtin one. -/
inductive Built : Catalog → Prop
  | empty : Built Catalog.empty
  | builtin : Built Catalog.builtin
  | layer {base c : Catalog} {layer : Layer} (hbase : Built base)
      (h : (base.addLayer layer).run.value = .ok c) : Built c

theorem Built.wellFormed {c : Catalog} (h : c.Built) : c.WellFormed := by
  induction h with
  | empty => exact wellFormed_empty
  | builtin => exact wellFormed_builtin
  | layer _ h ih => exact (layered_of_addLayer h).wellFormed ih

namespace WellFormed

variable {c : Catalog} (hc : c.WellFormed)
include hc

theorem kind?_eq_some_iff {name : String} {k : Kind} :
    c.kind? name = some k ↔ k ∈ c.kinds ∧ k.name = name :=
  Named.find?_eq_some_iff hc.lineages.nodup_names

theorem name_ne_missingKind {k : Kind} (hk : k ∈ c.kinds) : k.name ≠ missingKind := by
  intro h
  exact hc.missing_reserved (h ▸ List.mem_map_of_mem hk)

theorem discovery_mem {k : Kind} (hk : k ∈ c.kinds) :
    ∀ cap ∈ k.discovery.capabilities, cap ∈ c.capabilities :=
  hc.hierarchy.closure_mem (hc.lineages.implements_of_lineage hk)

theorem preferred_mem {k : Kind} (hk : k ∈ c.kinds) {cap : Capability}
    (hcap : k.preferred = some cap) : cap ∈ c.capabilities :=
  hc.lineages.preferred_of_lineage hk hcap

end WellFormed

end Catalog

end ColumnTypes
