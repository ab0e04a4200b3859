import ColumnTypes.Proofs.Lookups
import ColumnTypes.Proofs.Refusals

namespace ColumnTypes

/-!
# Layers built together

A layer over a catalog that was itself built by a layer gives what both layers
give if their declarations are built together over the first base: the same
catalog in the same order of registration, or the same error.
-/

/-- The declarations of both layers. The later settings are in force. -/
def Layer.append (first second : Layer) : Layer where
  settings := second.settings.or first.settings
  capabilities := first.capabilities ++ second.capabilities
  kinds := first.kinds ++ second.kinds

/-! ## Names -/

theorem firstTaken?_append (taken ns ms : List String) :
    firstTaken? taken (ns ++ ms) =
      (firstTaken? taken ns).or (firstTaken? (ns.reverse ++ taken) ms) := by
  induction ns generalizing taken with
  | nil => rfl
  | cons n ns ih =>
      rw [List.cons_append, firstTaken?, firstTaken?]
      split
      · rfl
      · rw [ih, List.reverse_cons, List.append_assoc]
        rfl

theorem firstTaken?_congr {taken taken' : List String} (h : ∀ n, n ∈ taken ↔ n ∈ taken')
    (ns : List String) : firstTaken? taken ns = firstTaken? taken' ns := by
  induction ns generalizing taken taken' with
  | nil => rfl
  | cons n ns ih =>
      rw [firstTaken?, firstTaken?, contains_congr h]
      split
      · rfl
      · apply ih
        intro m
        rw [List.mem_cons, List.mem_cons, h]

/-- Names that are not taken are taken for the names behind them. -/
theorem firstTaken?_append_of_none {taken taken' ns : List String}
    (hns : firstTaken? taken ns = none) (htaken : ∀ n, n ∈ taken' ↔ n ∈ taken ++ ns)
    (ms : List String) : firstTaken? taken' ms = firstTaken? taken (ns ++ ms) := by
  rw [firstTaken?_append, hns, Option.none_or]
  apply firstTaken?_congr
  intro n
  rw [htaken, List.mem_append, List.mem_append, List.mem_reverse, or_comm]

/-! ## Preferences -/

theorem checkPreferences_append_of_ok {ks : List Kind}
    (h : (checkPreferences ks).run.value = .ok ()) (ls : List Kind) :
    (checkPreferences (ks ++ ls)).run.value = (checkPreferences ls).run.value := by
  induction ks with
  | nil => rfl
  | cons k ks ih =>
      rw [checkPreferences_cons_value] at h
      rw [List.cons_append, checkPreferences_cons_value]
      split at h
      · cases h
      · exact ih h

namespace Catalog

/-! ## One layer over another -/

namespace Layered

variable {base mid : Catalog} {first : Layer} (h : Layered base first mid) (second : Layer)
include h

theorem nameError?_append : mid.nameError? second = base.nameError? (first.append second) := by
  have hmissing : (first.kinds.map KindDeclaration.name).contains missingKind = false := by
    simpa using h.missing_reserved
  rw [nameError?, nameError?, Layer.append]
  simp only [List.map_append]
  rw [firstTaken?_append_of_none h.capability_names
      (fun _ => mem_names_of_resolveAll h.capabilities_resolved),
    firstTaken?_append_of_none h.kind_names (fun _ => h.toResolved.mem_kind_names_iff),
    List.contains_append, hmissing, Bool.false_or]

theorem mem_knownCapabilities_append {n : String} :
    n ∈ base.knownCapabilities (first.append second) ↔ n ∈ mid.knownCapabilities second := by
  have hmid := mem_names_of_resolveAll h.capabilities_resolved (n := n)
  simp only [knownCapabilities, Layer.append, List.map_append, List.mem_append] at hmid ⊢
  rw [hmid, or_assoc]

theorem mem_knownKinds_append {n : String} :
    n ∈ base.knownKinds (first.append second) ↔ n ∈ mid.knownKinds second := by
  have hmid := h.toResolved.mem_kind_names_iff (n := n)
  simp only [knownKinds, Layer.append, List.map_append, List.mem_append] at hmid ⊢
  rw [hmid, or_assoc]

theorem capabilities_append :
    CapabilityDeclaration.resolveAll (mid.knownCapabilities second) second.capabilities
        second.capabilities mid.capabilities =
      CapabilityDeclaration.resolveAll (base.knownCapabilities (first.append second))
        (first.append second).capabilities (first.append second).capabilities
        base.capabilities := by
  have hknown : base.knownCapabilities first ⊆ base.knownCapabilities (first.append second) := by
    simp [knownCapabilities, Layer.append]
  have hfirst := CapabilityDeclaration.resolveAll_mono hknown
    (FoundIn.append first.capabilities second.capabilities) h.capabilities_resolved
  -- the first declarations are all registered by now, so the others are resolved without them
  have hdeclared : first.capabilities.map CapabilityDeclaration.name ⊆
      Capability.names mid.capabilities := by
    intro n hn
    exact (mem_names_of_resolveAll h.capabilities_resolved).mpr (List.mem_append_right _ hn)
  rw [Layer.append] at hfirst ⊢
  rw [CapabilityDeclaration.resolveAll_append, hfirst]
  exact (CapabilityDeclaration.resolveAll_congr (fun _ => h.mem_knownCapabilities_append second)
    (SameBut.append hdeclared second.capabilities) second.capabilities).symm

theorem kinds_append {capabilities : List Capability}
    (hcapabilities : mid.capabilities <+: capabilities)
    (hpreferred : ∀ d ∈ first.kinds, ∀ p, d.preferred = some p →
      p ∈ Capability.names mid.capabilities) :
    (KindDeclaration.resolveAll capabilities (mid.knownKinds second) second.kinds second.kinds
        mid.kinds).run.value =
      (KindDeclaration.resolveAll capabilities (base.knownKinds (first.append second))
        (first.append second).kinds (first.append second).kinds base.kinds).run.value := by
  obtain ⟨new, rfl⟩ := hcapabilities
  have hknown : base.knownKinds first ⊆ base.knownKinds (first.append second) := by
    simp [knownKinds, Layer.append]
  have hfirst := KindDeclaration.resolveAll_mono (FoundIn.append mid.capabilities new) hknown
    (FoundIn.append first.kinds second.kinds) hpreferred h.kinds_resolved
  have hdeclared : first.kinds.map KindDeclaration.name ⊆ mid.kinds.map Kind.name := by
    intro n hn
    exact h.toResolved.mem_kind_names_iff.mpr (List.mem_append_right _ hn)
  rw [Layer.append] at hfirst ⊢
  rw [KindDeclaration.resolveAll_append, hfirst]
  exact (KindDeclaration.resolveAll_congr (fun _ => h.mem_knownKinds_append second)
    (SameBut.append hdeclared second.kinds) second.kinds).symm

/-- If the settings stay the same, the first kinds were checked before. -/
theorem checkPreferences_append (hstrict : mid.settings.strictPreferred = true)
    (kinds : List Kind) (hkinds : mid.kinds <+: kinds) :
    (checkPreferences (kinds.drop mid.kinds.length)).run.value =
      (checkPreferences (kinds.drop base.kinds.length)).run.value := by
  obtain ⟨new, rfl⟩ := hkinds
  have hlength : base.kinds.length ≤ mid.kinds.length := by
    have hkept := (KindDeclaration.resolveAll_grown h.kinds_resolved).1.kept
    exact hkept.length_le
  rw [List.drop_left, List.drop_append_of_le_length hlength,
    checkPreferences_append_of_ok (h.preferences_checked hstrict)]

theorem resolveLayer_append (hsettings : second.settings.getD mid.settings = mid.settings)
    (hpreferred : ∀ d ∈ first.kinds, ∀ p, d.preferred = some p →
      p ∈ Capability.names mid.capabilities) :
    mid.resolveLayer second = base.resolveLayer (first.append second) := by
  have hsame : (first.append second).settings.getD base.settings = mid.settings := by
    rw [← hsettings, h.settings_eq, Layer.append]
    cases second.settings <;> rfl
  rw [resolveLayer, resolveLayer, hsettings, hsame, ← h.capabilities_append second]
  apply Result.bind_congr
  intro capabilities hcapabilities
  have hkept := (CapabilityDeclaration.resolveAll_grown hcapabilities).1.kept
  rw [← h.kinds_append second hkept hpreferred]
  apply Result.bind_congr
  intro kinds hkinds
  have hgrown := (KindDeclaration.resolveAll_grown hkinds).1.kept
  split
  · rename_i hstrict
    rw [h.checkPreferences_append hstrict kinds hgrown]
  · rfl

end Layered

/-- Building a layer over a catalog built by a layer under the same settings comes to the same as
building both in one step, down to the order of registration and the error, if no preference of
the first was dropped. -/
theorem addLayer_append {base mid : Catalog} {first second : Layer}
    (hfirst : (base.addLayer first).run.value = .ok mid)
    (hsettings : second.settings.getD mid.settings = mid.settings)
    (hpreferred : ∀ d ∈ first.kinds, ∀ p, d.preferred = some p →
      p ∈ Capability.names mid.capabilities) :
    (mid.addLayer second).run.value = (base.addLayer (first.append second)).run.value := by
  have hmid := layered_of_addLayer hfirst
  rw [addLayer_value, addLayer_value, hmid.nameError?_append,
    hmid.resolveLayer_append second hsettings hpreferred]

def toneLayer : Layer where
  settings := some ⟨true, false⟩
  capabilities := [⟨"Shaded", ["Toned"], none⟩, ⟨"Toned", ["Comparable"], none⟩]
  kinds := [⟨"Tone", none, ["Shaded"], some "Toned", none⟩]

def tintLayer : Layer where
  settings := none
  capabilities := [⟨"Tinted", ["Shaded"], none⟩]
  kinds := [⟨"Tint", some "Tone", ["Tinted"], some "Toned", none⟩]

def toned : Catalog :=
  let toned := Capability.mk "Toned" none [.comparable]
  let shaded := Capability.mk "Shaded" none [toned]
  { capabilities := builtin.capabilities ++ [toned, shaded]
    kinds := builtin.kinds ++ [⟨⟨"Tone", .catalog, [shaded], some toned, none⟩, []⟩]
    settings := ⟨true, false⟩ }

theorem addLayer_append_tint :
    (builtin.addLayer toneLayer).run.value = .ok toned ∧
      (toned.addLayer tintLayer).run.value =
        (builtin.addLayer (toneLayer.append tintLayer)).run.value ∧
      (toned.addLayer tintLayer).run.value.map (fun c => c.kinds.map Kind.name) =
        .ok ["Whole", "Real", "Text", "Flag", "Tone", "Tint"] := by
  have hfirst : (builtin.addLayer toneLayer).run.value = .ok toned := by cbv
  have hpreferred : ∀ d ∈ toneLayer.kinds, ∀ p, d.preferred = some p →
      p ∈ Capability.names toned.capabilities := by
    simp [toneLayer, toned, Capability.names, Capability.name]
  exact ⟨hfirst, addLayer_append hfirst rfl hpreferred, by cbv⟩

end Catalog

end ColumnTypes
