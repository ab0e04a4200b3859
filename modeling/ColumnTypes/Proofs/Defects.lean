import ColumnTypes.Proofs.References
import Mathlib.Data.List.Duplicate

namespace ColumnTypes

/-!
# Defects

What can be wrong with the declarations of a layer, error by error. Where
resolution fails, the error it fails with describes a defect: a search that
comes back to an open name has found a cycle, due to the path that led there.
-/

open Relation (TransGen)

namespace Catalog

/-- The name is declared although it is taken, or more than once. -/
def Clashes (taken declared : List String) (n : String) : Prop :=
  n ∈ declared ∧ n ∈ taken ∨ declared.Duplicate n

/-- What an error says of a layer over the base, in terms of the declarations. -/
def Defect (base : Catalog) (layer : Layer) : Catalog.Error → Prop
  | .duplicateCapability n =>
      Clashes (Capability.names base.capabilities)
        (layer.capabilities.map CapabilityDeclaration.name) n
  | .duplicateKind n =>
      Clashes (base.kinds.map Kind.name) (layer.kinds.map KindDeclaration.name) n
  | .reservedName n => n = missingKind ∧ n ∈ layer.kinds.map KindDeclaration.name
  | .unknownCapability owner n =>
      (layer.ExtendsCapability owner n ∨ layer.Implements owner n) ∧
        n ∉ base.knownCapabilities layer
  | .unknownKind owner n => layer.ExtendsKind owner n ∧ n ∉ base.knownKinds layer
  | .capabilityCycle n => TransGen layer.ExtendsCapability n n
  | .kindCycle n => TransGen layer.ExtendsKind n n
  | .preferredNotImplemented k p =>
      (layer.settings.getD base.settings).strictPreferred = true ∧
        k ∈ layer.kinds.map KindDeclaration.name ∧
          (layer.onto base).PreferredFor k p ∧ ¬(layer.onto base).Offers k p
  | .alreadyInstalled | .unreadable | .malformed | .invalid _ => False

end Catalog

/-! ## Names -/

theorem clashes_of_firstTaken? {taken ns : List String} {n : String}
    (h : firstTaken? taken ns = some n) : Catalog.Clashes taken ns n := by
  induction ns generalizing taken with
  | nil => cases h
  | cons m ns ih =>
      rw [firstTaken?] at h
      split at h
      · rename_i hm
        obtain rfl := Option.some.inj h
        exact Or.inl ⟨List.mem_cons_self, by simpa using hm⟩
      · rcases ih h with ⟨hn, htaken⟩ | hn
        · rcases List.mem_cons.mp htaken with rfl | htaken
          · exact Or.inr (List.Mem.duplicate_cons_self hn)
          · exact Or.inl ⟨List.mem_cons_of_mem m hn, htaken⟩
        · exact Or.inr (hn.duplicate_cons m)

theorem not_clashes_of_firstTaken? {taken ns : List String} (h : firstTaken? taken ns = none)
    (n : String) : ¬Catalog.Clashes taken ns n := by
  obtain ⟨hnodup, hfresh⟩ := firstTaken?_eq_none_iff.mp h
  rintro (⟨hn, htaken⟩ | hn)
  · exact hfresh n hn htaken
  · exact hn.not_nodup hnodup

/-- A known name that is neither registered nor available is being resolved, and so leads to the
name that is looked up. -/
def Pending (r : String → String → Prop) (known registered available : List String)
    (name : String) : Prop :=
  ∀ n ∈ known, n ∈ registered ∨ n ∈ available ∨ TransGen r n name

namespace Pending

variable {r : String → String → Prop} {known registered available : List String} {name : String}

/-- At first nothing is being resolved. -/
theorem of_subset {taken : List String} (h : taken ⊆ registered) :
    Pending r (taken ++ available) registered available name := by
  intro n hn
  rcases List.mem_append.mp hn with hn | hn
  · exact Or.inl (h hn)
  · exact Or.inr (Or.inl hn)

theorem step (h : Pending r known registered available name) {registered' available' : List String}
    (hregistered : registered ⊆ registered')
    (havailable : ∀ n ∈ available, n = name ∨ n ∈ available') {p : String} (hp : r name p) :
    Pending r known registered' available' p := by
  intro n hn
  rcases h n hn with hn | hn | hn
  · exact Or.inl (hregistered hn)
  · rcases havailable n hn with rfl | hn
    · exact Or.inr (Or.inr (TransGen.single hp))
    · exact Or.inr (Or.inl hn)
  · exact Or.inr (Or.inr (hn.tail hp))

theorem cycle (h : Pending r known registered available name) (hname : name ∈ known)
    (hregistered : name ∉ registered) (havailable : name ∉ available) : TransGen r name name :=
  ((h name hname).resolve_left hregistered).resolve_left havailable

end Pending

/-! ## Capabilities -/

namespace CapabilityDeclaration

open Capability (names)
open Catalog (Defect)

/-- If the parents cannot be resolved, one of them is unknown or cannot be resolved after those
before it. -/
theorem exists_of_resolveParents_error {known : List String}
    {f : List Capability → String → Except Catalog.Error (Capability × List Capability)}
    (hf : ∀ {registered registered' name c}, f registered name = .ok (c, registered') →
      registered ⊆ registered')
    {owner : String} {ps : List String} {parents registered : List Capability}
    {e : Catalog.Error} (h : resolveParents known f owner ps parents registered = .error e) :
    ∃ p ∈ ps, p ∉ known ∧ e = .unknownCapability owner p ∨
      p ∈ known ∧ ∃ mid, registered ⊆ mid ∧ f mid p = .error e := by
  induction ps generalizing parents registered with
  | nil => cases h
  | cons p ps ih =>
      rw [resolveParents] at h
      split at h
      · rename_i hknown
        split at h
        · rename_i e' he
          obtain rfl := Except.error.inj h
          exact ⟨p, List.mem_cons_self, Or.inr ⟨by simpa using hknown, registered,
            List.Subset.refl registered, he⟩⟩
        · rename_i c mid hc
          obtain ⟨q, hq, hunknown | ⟨hq', mid', hmid, he⟩⟩ := ih h
          · exact ⟨q, List.mem_cons_of_mem p hq, Or.inl hunknown⟩
          · exact ⟨q, List.mem_cons_of_mem p hq,
              Or.inr ⟨hq', mid', List.Subset.trans (hf hc) hmid, he⟩⟩
      · rename_i hknown
        exact ⟨p, List.mem_cons_self, Or.inl ⟨by simpa using hknown, (Except.error.inj h).symm⟩⟩

variable {base : Catalog} {layer : Layer}

/-- Each name that is being resolved leads to the one looked up now, and from there to its parents.
So one that is looked up again while it is being resolved leads to itself. -/
theorem defect_of_resolve_error {available : List CapabilityDeclaration}
    {registered : List Capability} {name : String} {e : Catalog.Error}
    (havailable : available ⊆ layer.capabilities) (hname : name ∈ base.knownCapabilities layer)
    (hpending : Pending layer.ExtendsCapability (base.knownCapabilities layer) (names registered)
      (available.map CapabilityDeclaration.name) name)
    (h : resolve (base.knownCapabilities layer) available registered name = .error e) :
    Defect base layer e := by
  rw [resolve] at h
  split at h
  · cases h
  · rename_i hregistered
    split at h
    · rename_i hnone
      rw [if_pos (by simpa using hname)] at h
      obtain rfl := Except.error.inj h
      exact hpending.cycle hname (Named.find?_eq_none_iff.mp hregistered)
        (Named.find?_eq_none_iff.mp hnone)
    · rename_i d hd
      have hlt := Named.length_without_lt hd
      have hmem := havailable (Named.mem_of_find? hd)
      obtain rfl := Named.name_of_find? hd
      split at h
      · rename_i e' he
        obtain rfl := Except.error.inj h
        obtain ⟨p, hp, ⟨hunknown, rfl⟩ | ⟨hknown, mid, hmid, he⟩⟩ :=
          exists_of_resolveParents_error
            (fun hok => (resolve_grown hok).1.kept.subset) he
        · exact ⟨Or.inl ⟨d, hmem, rfl, hp⟩, hunknown⟩
        · -- the parent is resolved with the name taken off the available ones: it is open now
          have hsub := List.Subset.trans
            (Named.without_subset CapabilityDeclaration.name available d.name) havailable
          have hnext := hpending.step (List.map_subset Capability.name hmid)
            (fun n hn => Named.eq_or_mem_names_without hn _) ⟨d, hmem, rfl, hp⟩
          exact defect_of_resolve_error hsub hknown hnext he
      · cases h
termination_by available.length

theorem defect_of_resolveAll_error {rest : List CapabilityDeclaration}
    {registered : List Capability} {e : Catalog.Error} (hrest : rest ⊆ layer.capabilities)
    (hbase : base.capabilities ⊆ registered)
    (h : resolveAll (base.knownCapabilities layer) layer.capabilities rest registered = .error e) :
    Defect base layer e := by
  induction rest generalizing registered with
  | nil => cases h
  | cons d rest ih =>
      obtain ⟨hd, hrest⟩ := List.cons_subset.mp hrest
      rw [resolveAll] at h
      split at h
      · rename_i e' he
        obtain rfl := Except.error.inj h
        have hname : d.name ∈ base.knownCapabilities layer :=
          List.mem_append_right _ (List.mem_map_of_mem hd)
        exact defect_of_resolve_error (List.Subset.refl _) hname
          (Pending.of_subset (List.map_subset Capability.name hbase)) he
      · rename_i c mid hc
        have hmid := (resolve_grown hc).1.kept.subset
        exact ih hrest (List.Subset.trans hbase hmid) h

end CapabilityDeclaration

/-! ## Kinds -/

namespace KindDeclaration

open Capability (names)
open Catalog (Defect)

theorem exists_of_resolveImplements_error {capabilities : List Capability} {owner : String}
    {ns : List String} {e : Catalog.Error}
    (h : resolveImplements capabilities owner ns = .error e) :
    ∃ n ∈ ns, n ∉ names capabilities ∧ e = .unknownCapability owner n := by
  induction ns with
  | nil => cases h
  | cons n ns ih =>
      rw [resolveImplements] at h
      split at h
      · rename_i hnone
        exact ⟨n, List.mem_cons_self, Named.find?_eq_none_iff.mp hnone,
          (Except.error.inj h).symm⟩
      · obtain ⟨m, hm, hunknown⟩ := ih (Result.error_of_map h)
        exact ⟨m, List.mem_cons_of_mem n hm, hunknown⟩

variable {base : Catalog} {layer : Layer} {capabilities : List Capability}
  (hcapabilities : base.knownCapabilities layer ⊆ names capabilities)
include hcapabilities

/-- Only an unknown capability keeps a kind from being defined. -/
theorem defect_of_define_error {d : KindDeclaration} {parent : Option Kind} {e : Catalog.Error}
    (hd : d ∈ layer.kinds) (h : (define capabilities d parent).run.value = .error e) :
    Defect base layer e := by
  rcases Logged.error_of_bind h with h | ⟨cs, -, h⟩
  · obtain ⟨n, hn, hunknown, rfl⟩ := exists_of_resolveImplements_error h
    exact ⟨Or.inr ⟨d, hd, rfl, hn⟩, fun hknown => hunknown (hcapabilities hknown)⟩
  · rcases Logged.error_of_bind h with h | ⟨preferred, -, h⟩
    · cases h
    · cases h

theorem defect_of_resolve_error {available : List KindDeclaration} {registered : List Kind}
    {name : String} {e : Catalog.Error} (havailable : available ⊆ layer.kinds)
    (hname : name ∈ base.knownKinds layer)
    (hpending : Pending layer.ExtendsKind (base.knownKinds layer) (registered.map Kind.name)
      (available.map KindDeclaration.name) name)
    (h : (resolve capabilities (base.knownKinds layer) available registered name).run.value =
      .error e) :
    Defect base layer e := by
  rw [resolve] at h
  split at h
  · cases h
  · rename_i hregistered
    split at h
    · rename_i hnone
      rw [if_pos (by simpa using hname)] at h
      obtain rfl := Except.error.inj h
      exact hpending.cycle hname (Named.find?_eq_none_iff.mp hregistered)
        (Named.find?_eq_none_iff.mp hnone)
    · rename_i d hd
      have hlt := Named.length_without_lt hd
      have hmem := havailable (Named.mem_of_find? hd)
      obtain rfl := Named.name_of_find? hd
      split at h
      · rcases Logged.error_of_bind h with h | ⟨l, -, h⟩
        · exact defect_of_define_error hcapabilities hmem h
        · cases h
      · rename_i p hp
        split at h
        · rename_i hknown
          rcases Logged.error_of_bind h with h | ⟨⟨parent, mid⟩, -, h⟩
          · have hsub := List.Subset.trans
              (Named.without_subset KindDeclaration.name available d.name) havailable
            have hnext := hpending.step (List.Subset.refl _)
              (fun n hn => Named.eq_or_mem_names_without hn _) ⟨d, hmem, rfl, hp⟩
            exact defect_of_resolve_error hsub (by simpa using hknown) hnext h
          · rcases Logged.error_of_bind h with h | ⟨l, -, h⟩
            · exact defect_of_define_error hcapabilities hmem h
            · cases h
        · rename_i hunknown
          obtain rfl := Except.error.inj h
          exact ⟨⟨d, hmem, rfl, hp⟩, by simpa using hunknown⟩
termination_by available.length

theorem defect_of_resolveAll_error {rest : List KindDeclaration} {registered : List Kind}
    {e : Catalog.Error} (hrest : rest ⊆ layer.kinds) (hbase : base.kinds ⊆ registered)
    (h : (resolveAll capabilities (base.knownKinds layer) layer.kinds rest registered).run.value =
      .error e) :
    Defect base layer e := by
  induction rest generalizing registered with
  | nil => cases h
  | cons d rest ih =>
      obtain ⟨hd, hrest⟩ := List.cons_subset.mp hrest
      rw [resolveAll] at h
      rcases Logged.error_of_bind h with h | ⟨⟨k, mid⟩, hk, h⟩
      · have hname : d.name ∈ base.knownKinds layer :=
          List.mem_append_right _ (List.mem_map_of_mem hd)
        exact defect_of_resolve_error hcapabilities (List.Subset.refl _) hname
          (Pending.of_subset (List.map_subset Kind.name hbase)) h
      · have hmid := (resolve_grown hk).1.kept.subset
        exact ih hrest (List.Subset.trans hbase hmid) h

end KindDeclaration

end ColumnTypes
