import ColumnTypes.Proofs.Defects
import ColumnTypes.Proofs.Strict

namespace ColumnTypes.Catalog

/-!
# Refused layers

A layer is refused exactly if there is a defect in it, and for one of its
defects. Whichever step refuses it, the error is true of the declarations; and
the catalog built from a layer that passes shows that none of them had a defect.
-/

open Relation (TransGen)

variable {base : Catalog} {layer : Layer}

/-- The step at which a layer is refused. -/
inductive Refused (base : Catalog) (layer : Layer) : Catalog.Error → Prop
  | capabilityName {n : String}
      (h : firstTaken? (Capability.names base.capabilities)
        (layer.capabilities.map CapabilityDeclaration.name) = some n) :
      Refused base layer (.duplicateCapability n)
  | kindName {n : String}
      (h : firstTaken? (base.kinds.map Kind.name) (layer.kinds.map KindDeclaration.name) = some n) :
      Refused base layer (.duplicateKind n)
  | reserved (h : missingKind ∈ layer.kinds.map KindDeclaration.name) :
      Refused base layer (.reservedName missingKind)
  | capability {e : Catalog.Error}
      (h : CapabilityDeclaration.resolveAll (base.knownCapabilities layer) layer.capabilities
        layer.capabilities base.capabilities = .error e) : Refused base layer e
  | kind {capabilities : List Capability} {e : Catalog.Error}
      (hcapabilities : CapabilityDeclaration.resolveAll (base.knownCapabilities layer)
        layer.capabilities layer.capabilities base.capabilities = .ok capabilities)
      (h : (KindDeclaration.resolveAll capabilities (base.knownKinds layer) layer.kinds
        layer.kinds base.kinds).run.value = .error e) : Refused base layer e
  | preference {c : Catalog} {e : Catalog.Error} (hc : Resolved base layer c)
      (hstrict : (layer.settings.getD base.settings).strictPreferred = true)
      (h : (checkPreferences (c.kinds.drop base.kinds.length)).run.value = .error e) :
      Refused base layer e

theorem refused_of_nameError? {e : Catalog.Error} (h : base.nameError? layer = some e) :
    Refused base layer e := by
  rcases Option.or_eq_some_iff.mp h with h | ⟨-, h⟩
  · obtain ⟨n, hn, rfl⟩ := Option.map_eq_some_iff.mp h
    exact Refused.capabilityName hn
  · rcases Option.or_eq_some_iff.mp h with h | ⟨-, h⟩
    · obtain ⟨n, hn, rfl⟩ := Option.map_eq_some_iff.mp h
      exact Refused.kindName hn
    · split at h
      · rename_i hreserved
        obtain rfl := Option.some.inj h
        exact Refused.reserved (by simpa using hreserved)
      · cases h

theorem refused_of_addLayer_error {e : Catalog.Error}
    (h : (base.addLayer layer).run.value = .error e) : Refused base layer e := by
  rw [addLayer_value] at h
  split at h
  · rename_i hnames
    exact refused_of_nameError? (Except.error.inj h ▸ hnames)
  · rename_i hnames
    obtain ⟨hcapabilities, hkinds, hreserved⟩ := nameError?_eq_none_iff.mp hnames
    rcases Result.bind_eq_error_iff.mp h with h | ⟨capabilities, hcaps, h⟩
    · exact Refused.capability h
    rcases Result.bind_eq_error_iff.mp h with h | ⟨kinds, hks, h⟩
    · exact Refused.kind hcaps h
    have hresolved : Resolved base layer
        ⟨capabilities, kinds, layer.settings.getD base.settings⟩ :=
      ⟨hcapabilities, hkinds, hreserved, hcaps, hks⟩
    split at h
    · rename_i hstrict
      rcases Result.bind_eq_error_iff.mp h with h | ⟨_, -, h⟩
      · exact Refused.preference hresolved hstrict h
      · cases h
    · cases h

theorem mem_names_of_resolveAll {capabilities : List Capability}
    (h : CapabilityDeclaration.resolveAll (base.knownCapabilities layer) layer.capabilities
      layer.capabilities base.capabilities = .ok capabilities) {n : String} :
    n ∈ Capability.names capabilities ↔ n ∈ base.knownCapabilities layer := by
  obtain ⟨hgrown, hall⟩ := CapabilityDeclaration.resolveAll_grown h
  exact hgrown.mem_names_iff CapabilityDeclaration.name (fun _ => rfl) hall

theorem Resolved.mem_kind_names_iff {c : Catalog} (h : Resolved base layer c) {n : String} :
    n ∈ c.kinds.map Kind.name ↔ n ∈ base.knownKinds layer := by
  obtain ⟨hgrown, hall⟩ := KindDeclaration.resolveAll_grown h.kinds_resolved
  exact hgrown.mem_names_iff KindDeclaration.name (fun _ => rfl) hall

/-- The kinds behind those of the base are the declared ones. -/
theorem Registers.declares_kind_iff {c : Catalog} (h : Registers base layer c) {n : String} :
    n ∈ layer.kinds.map KindDeclaration.name ↔
      ∃ k ∈ c.kinds.drop base.kinds.length, k.name = n := by
  obtain ⟨new, hnew, hperm⟩ := h.kinds
  rw [hnew, List.drop_left, List.mem_map]
  constructor
  · rintro ⟨d, hd, rfl⟩
    obtain ⟨k, hk, heq⟩ := List.mem_map.mp (hperm.symm.subset (List.mem_map_of_mem hd))
    exact ⟨k, hk, congrArg KindDeclaration.name heq⟩
  · rintro ⟨k, hk, rfl⟩
    obtain ⟨d, hd, heq⟩ := List.mem_map.mp (hperm.subset (List.mem_map_of_mem hk))
    exact ⟨d, hd, congrArg KindDeclaration.name heq⟩

theorem Refused.defect {e : Catalog.Error} (h : Refused base layer e) (hbase : base.WellFormed) :
    Defect base layer e := by
  cases h with
  | capabilityName h => exact clashes_of_firstTaken? h
  | kindName h => exact clashes_of_firstTaken? h
  | reserved h => exact ⟨rfl, h⟩
  | capability h =>
      exact CapabilityDeclaration.defect_of_resolveAll_error (List.Subset.refl _)
        (List.Subset.refl _) h
  | kind hcapabilities h =>
      exact KindDeclaration.defect_of_resolveAll_error
        (fun _ hn => (mem_names_of_resolveAll hcapabilities).mpr hn) (List.Subset.refl _)
        (List.Subset.refl _) h
  | preference hc hstrict h =>
      obtain ⟨k, hk, p, hp, rfl⟩ := exists_of_checkPreferences_error h
      have hregisters := hc.registers hbase
      have hmem := List.mem_of_mem_drop hk
      obtain ⟨hpreferred, hoffers⟩ :=
        ((hc.wellFormed hbase).unimplemented_iff hmem).mpr ⟨p, hp, rfl⟩
      rw [hregisters.preferredFor_eq] at hpreferred
      rw [hregisters.offers_eq] at hoffers
      exact ⟨hstrict, hregisters.declares_kind_iff.mpr ⟨k, hk, rfl⟩, hpreferred, hoffers⟩

theorem Layered.not_defect {c : Catalog} (h : Layered base layer c) (hbase : base.WellFormed)
    (e : Catalog.Error) : ¬Defect base layer e := by
  have hc := h.wellFormed hbase
  have hregisters := h.registers hbase
  cases e with
  | duplicateCapability n => exact not_clashes_of_firstTaken? h.capability_names n
  | duplicateKind n => exact not_clashes_of_firstTaken? h.kind_names n
  | reservedName n =>
      rintro ⟨rfl, hn⟩
      exact h.missing_reserved hn
  | unknownCapability owner n =>
      rintro ⟨hrefers, hunknown⟩
      apply hunknown
      apply (mem_names_of_resolveAll h.capabilities_resolved).mp
      rcases hrefers with hrefers | hrefers
      · exact hc.mem_of_extendsCapability (hregisters.extendsCapability_eq ▸ hrefers.onto base)
      · exact hc.mem_of_implements (hregisters.implements_eq ▸ hrefers.onto base)
  | unknownKind owner n =>
      rintro ⟨hrefers, hunknown⟩
      apply hunknown
      apply h.mem_kind_names_iff.mp
      exact hc.mem_of_extendsKind (hregisters.extendsKind_eq ▸ hrefers.onto base)
  | capabilityCycle n =>
      intro hcycle
      apply hc.capability_acyclic n
      rw [hregisters.extendsCapability_eq]
      exact TransGen.mono (fun _ _ => Layer.ExtendsCapability.onto base) n n hcycle
  | kindCycle n =>
      intro hcycle
      apply hc.kind_acyclic n
      rw [hregisters.extendsKind_eq]
      exact TransGen.mono (fun _ _ => Layer.ExtendsKind.onto base) n n hcycle
  | preferredNotImplemented n p =>
      rintro ⟨hstrict, hn, hpreferred, hoffers⟩
      obtain ⟨k, hk, rfl⟩ := hregisters.declares_kind_iff.mp hn
      have himplemented := checkPreferences_ok_iff.mp
        (h.preferences_checked (h.settings_eq ▸ hstrict)) k hk
      rw [← hregisters.preferredFor_eq] at hpreferred
      rw [← hregisters.offers_eq] at hoffers
      obtain ⟨cap, hcap, -⟩ :=
        (hc.unimplemented_iff (List.mem_of_mem_drop hk)).mp ⟨hpreferred, hoffers⟩
      rw [(Discovery.unimplemented?_eq_none_iff _).mpr himplemented] at hcap
      cases hcap
  | alreadyInstalled => exact id
  | unreadable => exact id
  | malformed => exact id
  | invalid reason => exact id

/-- A layer is refused exactly if there is a defect in it, and the error names one. -/
theorem addLayer_ok_iff_no_defect (hbase : base.Built) (layer : Layer) :
    ((∃ c, (base.addLayer layer).run.value = .ok c) ↔ ∀ e, ¬Defect base layer e) ∧
      ∀ e, (base.addLayer layer).run.value = .error e → Defect base layer e := by
  have herror : ∀ e, (base.addLayer layer).run.value = .error e → Defect base layer e :=
    fun e h => (refused_of_addLayer_error h).defect hbase.wellFormed
  refine ⟨⟨?_, ?_⟩, herror⟩
  · rintro ⟨c, hc⟩ e
    exact (layered_of_addLayer hc).not_defect hbase.wellFormed e
  · intro hnone
    cases hvalue : (base.addLayer layer).run.value with
    | ok c => exact ⟨c, rfl⟩
    | error e => exact absurd (herror e hvalue) (hnone e)

def loopLayer : Layer where
  settings := none
  capabilities :=
    [⟨"Inner", ["Upper"], none⟩, ⟨"Upper", ["Lower"], none⟩, ⟨"Lower", ["Upper"], none⟩]
  kinds := []

/-- The search starts at a name that is not on the cycle, and reports one that is. -/
theorem addLayer_ok_iff_no_defect_loop :
    (builtin.addLayer loopLayer).run.value = .error (.capabilityCycle "Upper") ∧
      TransGen loopLayer.ExtendsCapability "Upper" "Upper" ∧
        ¬∃ c, (builtin.addLayer loopLayer).run.value = .ok c := by
  have h : (builtin.addLayer loopLayer).run.value = .error (.capabilityCycle "Upper") := by cbv
  obtain ⟨hiff, herror⟩ := addLayer_ok_iff_no_defect Built.builtin loopLayer
  have hcycle : TransGen loopLayer.ExtendsCapability "Upper" "Upper" :=
    herror (.capabilityCycle "Upper") h
  refine ⟨h, hcycle, ?_⟩
  rw [hiff]
  intro hnone
  exact hnone (.capabilityCycle "Upper") hcycle

end ColumnTypes.Catalog
