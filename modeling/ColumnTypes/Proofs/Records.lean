import ColumnTypes.Proofs.Obtainable
import ColumnTypes.Proofs.Registration

namespace ColumnTypes

/-!
# Records of descriptors

The record of a descriptor is what saving puts into a tree. What is loaded from
a tree is on record there, and a descriptor of which the catalog knows all parts
is loaded from any tree with its record, whatever else the tree holds.
-/

/-! ## Saving -/

namespace Descriptor

open Capability (names)

def record (t : Descriptor) : List Entry :=
  match t.binding with
  | .kind k => [(kindKey, .text k.name)]
  | .missing => [(kindKey, .text missingKind)]
  | .none =>
      [(kindKey, .null), (preferenceKey, .flag t.hasPreferred),
        (capabilitiesKey, .texts (names t.capabilities))]

theorem nodup_keys_record (t : Descriptor) : (t.record.map Prod.fst).Nodup := by
  obtain ⟨binding, capabilities, hasPreferred⟩ := t
  have hkeys : [kindKey, preferenceKey, capabilitiesKey].Nodup := by decide
  cases binding with
  | kind k => exact List.nodup_singleton kindKey
  | missing => exact List.nodup_singleton kindKey
  | none => exact hkeys

/-- Saving puts the record into the tree. -/
theorem save_eq (t : Descriptor) (tree : Config) : t.save tree = tree.putAll t.record := by
  obtain ⟨binding, capabilities, hasPreferred⟩ := t
  cases binding <;> rfl

theorem holds_save (t : Descriptor) (tree : Config) : (t.save tree).Holds t.record :=
  t.save_eq tree ▸ Config.holds_putAll tree t.nodup_keys_record

theorem leaf?_save_of_ne (t : Descriptor) (tree : Config) {key : String} (hkind : key ≠ kindKey)
    (hpreference : key ≠ preferenceKey) (hcapabilities : key ≠ capabilitiesKey) :
    (t.save tree).leaf? key = tree.leaf? key := by
  have hnone : t.record.lookup key = none := by
    obtain ⟨binding, capabilities, hasPreferred⟩ := t
    cases binding <;>
      simp [record, Entry.lookup_cons_eq, hkind, hpreference, hcapabilities]
  rw [save_eq, Config.leaf?_putAll tree t.nodup_keys_record, hnone]
  rfl

/-- Only describing a kind binds a descriptor to it. -/
theorem Obtainable.eq_ofKind {kinds : Kind → Prop} {capabilities : Capability → Prop}
    {catalogs : Catalog → Prop} (hkinds : ∀ c, catalogs c → ∀ k ∈ c.kinds, kinds k)
    (hcapabilities : ∀ c, catalogs c → ∀ cap ∈ c.capabilities, capabilities cap) {t : Descriptor}
    (ht : Obtainable kinds capabilities catalogs t) {k : Kind} (hk : t.kind? = some k) :
    kinds k ∧ t = Descriptor.ofKind k := by
  refine Obtainable.induction
    (P := fun t => ∀ k, t.kind? = some k → kinds k ∧ t = Descriptor.ofKind k)
    hkinds hcapabilities ?_ ?_ ?_ ?_ ?_ ht k hk
  · nofun
  · exact fun l hl k hk => Option.some.inj hk ▸ ⟨hl, rfl⟩
  · intro flag cs t _ h
    obtain ⟨rfl, -⟩ := ofList_eq_ok_iff.mp h
    nofun
  · intro t u c _ _ h
    obtain ⟨-, rfl⟩ := preferring_eq_ok_iff.mp h
    nofun
  · intro t u ht hu
    exact merge_induction (P := fun v => ∀ k, v.kind? = some k → kinds k ∧ v = Descriptor.ofKind k)
      ht hu nofun

theorem Constructible.eq_ofKind {t : Descriptor} (ht : t.Constructible) {k : Kind}
    (hk : t.kind? = some k) : t = ofKind k :=
  (Obtainable.eq_ofKind (fun _ _ _ _ => trivial) (fun _ _ _ _ => trivial) ht hk).2

end Descriptor

/-! ## Loading -/

namespace Catalog

open Capability (names)
open Descriptor (leaf?_save_of_ne)

variable {c : Catalog} {tree : Config} {t : Descriptor}

/-- What is loaded is on record in the tree. -/
theorem holds_record_of_loaded (h : c.loaded tree = .ok t) : tree.Holds t.record := by
  rcases loaded_eq_ok_iff.mp h with ⟨hkind, h⟩ | ⟨name, hkind, h⟩
  · obtain ⟨flag, hflag, ns, hns, cs, hcs, h⟩ := loadList_eq_ok_iff.mp h
    obtain ⟨rfl, -⟩ := Descriptor.ofList_eq_ok_iff.mp h
    obtain rfl := names_of_resolveNames hcs
    simp only [Config.Holds, Descriptor.record, Descriptor.unbound, List.forall_mem_cons]
    exact ⟨hkind, hflag, hns, List.forall_mem_nil _⟩
  · rcases named_eq_ok_iff.mp h with ⟨rfl, rfl⟩ | ⟨-, k, hk, rfl⟩
    · exact List.forall_mem_singleton.mpr hkind
    · obtain rfl := Named.name_of_find? hk
      exact List.forall_mem_singleton.mpr hkind

/-- The descriptor is bound to a registered kind, or lists registered capabilities. -/
structure Recognizes (c : Catalog) (t : Descriptor) : Prop where
  kind_mem : ∀ k, t.kind? = some k → k ∈ c.kinds
  capabilities_subset : t.isBound = false → t.capabilities ⊆ c.capabilities

theorem WellFormed.resolveNames_names (hc : c.WellFormed) {cs : List Capability}
    (hcs : cs ⊆ c.capabilities) : c.resolveNames (names cs) = .ok cs := by
  rw [resolveNames_eq_ok_iff, names, List.forall₂_map_left_iff, List.forall₂_same]
  exact fun cap hcap => hc.capability?_name (hcs hcap)

theorem WellFormed.loaded_of_holds_record (hc : c.WellFormed) (ht : t.Constructible)
    (hknown : c.Recognizes t) (h : tree.Holds t.record) : c.loaded tree = .ok t := by
  rw [loaded_eq_ok_iff]
  cases hbinding : t.binding with
  | kind k =>
      have hk : t.kind? = some k := by simp [Descriptor.kind?, hbinding]
      have hmem := hknown.kind_mem k hk
      simp only [Config.Holds, Descriptor.record, hbinding, List.forall_mem_singleton] at h
      exact Or.inr ⟨k.name, h, named_eq_ok_iff.mpr (Or.inr
        ⟨hc.name_ne_missingKind hmem, k, hc.kind?_name hmem, ht.eq_ofKind hk⟩)⟩
  | missing =>
      have hmissing : t.isMissing = true := by simp [Descriptor.isMissing, hbinding]
      simp only [Config.Holds, Descriptor.record, hbinding, List.forall_mem_singleton] at h
      exact Or.inr ⟨missingKind, h, named_eq_ok_iff.mpr (Or.inl
        ⟨rfl, ht.wellShaped.missing_unique hmissing⟩)⟩
  | none =>
      have hbare : t.isBound = false := by simp [Descriptor.isBound, hbinding]
      have hresolved := hc.resolveNames_names (hknown.capabilities_subset hbare)
      have hlist : Descriptor.ofList t.hasPreferred t.capabilities = .ok t :=
        Descriptor.ofList_eq_ok_iff.mpr ⟨by simp [Descriptor.unbound, ← hbinding],
          ht.wellShaped.nodup_names, fun h => ht.wellShaped.nonempty h.1 h.2⟩
      simp only [Config.Holds, Descriptor.record, hbinding, List.forall_mem_cons] at h
      obtain ⟨hkind, hflag, hns, -⟩ := h
      exact Or.inl ⟨hkind, loadList_eq_ok_iff.mpr ⟨_, hflag, _, hns, _, hresolved, hlist⟩⟩

/-- Whatever stood in the tree and whatever the registry was asked before, a descriptor that was
saved is loaded as it was, and no other key is touched. -/
theorem load_save (hc : c.Built) (ht : t.Constructible) (hknown : c.Recognizes t)
    (calls : List Call) (tree : Config) :
    c.loadedAfter calls (t.save tree) = .ok t ∧
      ∀ key, key ≠ kindKey → key ≠ preferenceKey → key ≠ capabilitiesKey →
        (t.save tree).leaf? key = tree.leaf? key := by
  constructor
  · rw [loadedAfter_eq]
    exact hc.wellFormed.loaded_of_holds_record ht hknown (t.holds_save tree)
  · exact fun key => leaf?_save_of_ne t tree

/-- All three keys hold leaves of an earlier use that are of no use for a descriptor. -/
def staleTree : Config :=
  (((Config.empty.putFlag kindKey true).putText preferenceKey (some "yes")).putText
    capabilitiesKey none).putTexts "widths" ["80", "12"]

theorem load_save_stale :
    (Descriptor.unbound [.logical, .numeric] true).Constructible ∧
      builtin.Recognizes (Descriptor.unbound [.logical, .numeric] true) ∧
      builtin.loadedAfter [.load staleTree]
        ((Descriptor.unbound [.logical, .numeric] true).save staleTree) =
          .ok (Descriptor.unbound [.logical, .numeric] true) ∧
      ((Descriptor.unbound [.logical, .numeric] true).save staleTree).leaf? "widths" =
        some (.texts ["80", "12"]) ∧
      builtin.loadedAfter [] ((Descriptor.ofKind .flag).save staleTree) =
        .ok (Descriptor.ofKind .flag) := by
  have hlist : Descriptor.ofList true [.logical, .numeric] =
      .ok (Descriptor.unbound [.logical, .numeric] true) := rfl
  have hbare : (Descriptor.unbound [.logical, .numeric] true).Constructible :=
    .ofList (fun _ _ => trivial) hlist
  have hknown : builtin.Recognizes (Descriptor.unbound [.logical, .numeric] true) :=
    ⟨nofun, fun _ => by decide⟩
  have hflag : builtin.Recognizes (Descriptor.ofKind .flag) :=
    ⟨fun k hk => Option.some.inj hk ▸ by decide, nofun⟩
  obtain ⟨hload, hother⟩ := load_save Built.builtin hbare hknown [.load staleTree] staleTree
  refine ⟨hbare, hknown, hload, ?_, ?_⟩
  · rw [hother "widths" (by decide) (by decide) (by decide)]
    exact Config.leaf?_put _ _ _
  · exact (load_save Built.builtin (Descriptor.constructible_ofKind .flag) hflag [] staleTree).1

end Catalog

end ColumnTypes
