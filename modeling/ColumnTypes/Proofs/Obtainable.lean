import ColumnTypes.Proofs.Loading

namespace ColumnTypes

/-!
# The descriptors that can be obtained

A descriptor comes from a registry that describes a kind or loads a saved one,
from a list of capabilities, or from other descriptors. The registry may have
answered any calls before.
-/

namespace Descriptor

/-- Obtained from the given kinds and capabilities and from registries over the given catalogs. -/
inductive Obtainable (kinds : Kind → Prop) (capabilities : Capability → Prop)
    (catalogs : Catalog → Prop) : Descriptor → Prop
  | missing : Obtainable kinds capabilities catalogs Descriptor.missing
  | described {c : Catalog} (hc : catalogs c) (calls : List Catalog.Call) {k : Kind}
      (hk : kinds k) :
      Obtainable kinds capabilities catalogs (c.descriptorOf k (c.memoAfter calls)).value.1
  | loaded {c : Catalog} (hc : catalogs c) (calls : List Catalog.Call) {tree : Config}
      {t : Descriptor} (h : ((c.load tree).run (c.memoAfter calls)).value.1 = .ok t) :
      Obtainable kinds capabilities catalogs t
  | ofList {cs : List Capability} (hcs : ∀ cap ∈ cs, capabilities cap) {flag : Bool}
      {t : Descriptor} (h : Descriptor.ofList flag cs = .ok t) :
      Obtainable kinds capabilities catalogs t
  | preferring {t u : Descriptor} (ht : Obtainable kinds capabilities catalogs t)
      {cap : Capability} (hcap : capabilities cap) (h : t.preferring cap = .ok u) :
      Obtainable kinds capabilities catalogs u
  | merge {t u : Descriptor} (ht : Obtainable kinds capabilities catalogs t)
      (hu : Obtainable kinds capabilities catalogs u) :
      Obtainable kinds capabilities catalogs (t.merge u)

/-- Obtained from any kinds and capabilities, registered or not. -/
def Constructible (t : Descriptor) : Prop :=
  Obtainable (fun _ => True) (fun _ => True) (fun _ => True) t

end Descriptor

namespace Catalog

/-- Obtained from what the catalog registers alone. -/
def Describes (c : Catalog) (t : Descriptor) : Prop :=
  Descriptor.Obtainable (· ∈ c.kinds) (· ∈ c.capabilities) (· = c) t

theorem loaded_cases {c : Catalog} {tree : Config} {t : Descriptor} (h : c.loaded tree = .ok t) :
    t = Descriptor.missing ∨ (∃ k ∈ c.kinds, t = Descriptor.ofKind k) ∨
      ∃ flag cs, (∀ cap ∈ cs, cap ∈ c.capabilities) ∧ Descriptor.ofList flag cs = .ok t := by
  rcases loaded_eq_ok_iff.mp h with ⟨-, h⟩ | ⟨name, -, h⟩
  · obtain ⟨flag, -, ns, -, cs, hcs, h⟩ := loadList_eq_ok_iff.mp h
    exact Or.inr (Or.inr ⟨flag, cs, mem_of_resolveNames hcs, h⟩)
  · rcases named_eq_ok_iff.mp h with ⟨-, rfl⟩ | ⟨-, k, hk, rfl⟩
    · exact Or.inl rfl
    · exact Or.inr (Or.inl ⟨k, Named.mem_of_find? hk, rfl⟩)

end Catalog

namespace Descriptor

/-- Induction over the ways to obtain a descriptor, where a registry only contributes the
descriptors of kinds and lists of capabilities. -/
theorem Obtainable.induction {kinds : Kind → Prop} {capabilities : Capability → Prop}
    {catalogs : Catalog → Prop} {P : Descriptor → Prop}
    (hkinds : ∀ c, catalogs c → ∀ k ∈ c.kinds, kinds k)
    (hcapabilities : ∀ c, catalogs c → ∀ cap ∈ c.capabilities, capabilities cap)
    (missing : P Descriptor.missing)
    (ofKind : ∀ k, kinds k → P (Descriptor.ofKind k))
    (ofList : ∀ flag cs t, (∀ cap ∈ cs, capabilities cap) → Descriptor.ofList flag cs = .ok t → P t)
    (preferring : ∀ t u cap, P t → capabilities cap → t.preferring cap = .ok u → P u)
    (merge : ∀ t u, P t → P u → P (t.merge u))
    {t : Descriptor} (ht : Obtainable kinds capabilities catalogs t) : P t := by
  induction ht with
  | missing => exact missing
  | described hc calls hk =>
      rw [(Catalog.descriptorOf_spec (Catalog.faithful_memoAfter _ calls) _).1]
      exact ofKind _ hk
  | loaded hc calls h =>
      rw [(Catalog.load_spec (Catalog.faithful_memoAfter _ calls) _).1] at h
      rcases Catalog.loaded_cases h with rfl | ⟨k, hk, rfl⟩ | ⟨flag, cs, hcs, h⟩
      · exact missing
      · exact ofKind k (hkinds _ hc k hk)
      · exact ofList flag cs _ (fun cap hcap => hcapabilities _ hc cap (hcs cap hcap)) h
  | ofList hcs h => exact ofList _ _ _ hcs h
  | preferring _ hcap h ih => exact preferring _ _ _ ih hcap h
  | merge _ _ iht ihu => exact merge _ _ iht ihu

theorem Obtainable.ofKind {kinds : Kind → Prop} {capabilities : Capability → Prop}
    {catalogs : Catalog → Prop} {c : Catalog} (hc : catalogs c) {k : Kind} (hk : kinds k) :
    Obtainable kinds capabilities catalogs (Descriptor.ofKind k) := by
  have h : Obtainable kinds capabilities catalogs _ := Obtainable.described hc [] hk
  rwa [(Catalog.descriptorOf_spec (Catalog.faithful_memoAfter c []) k).1] at h

theorem Obtainable.constructible {kinds : Kind → Prop} {capabilities : Capability → Prop}
    {catalogs : Catalog → Prop} {t : Descriptor} (ht : Obtainable kinds capabilities catalogs t) :
    t.Constructible := by
  induction ht with
  | missing => exact .missing
  | described _ calls _ => exact .described trivial calls trivial
  | loaded _ calls h => exact .loaded trivial calls h
  | ofList _ h => exact .ofList (fun _ _ => trivial) h
  | preferring _ _ h ih => exact .preferring ih trivial h
  | merge _ _ iht ihu => exact .merge iht ihu

theorem constructible_ofKind (k : Kind) : (Descriptor.ofKind k).Constructible :=
  Obtainable.ofKind (c := Catalog.builtin) trivial trivial

theorem Constructible.wellShaped {t : Descriptor} (ht : t.Constructible) : t.WellShaped := by
  refine Obtainable.induction (fun _ _ _ _ => trivial) (fun _ _ _ _ => trivial) ?_ ?_ ?_ ?_ ?_ ht
  · exact wellShaped_missing
  · exact fun k _ => wellShaped_ofKind k
  · exact fun _ _ _ _ h => wellShaped_ofList h
  · exact fun _ _ _ ht _ h => wellShaped_preferring ht h
  · exact fun _ _ ht hu => wellShaped_merge ht hu

end Descriptor

namespace Catalog

variable {c : Catalog}

theorem Describes.ofKind {k : Kind} (hk : k ∈ c.kinds) : c.Describes (Descriptor.ofKind k) :=
  @Descriptor.Obtainable.ofKind (· ∈ c.kinds) (· ∈ c.capabilities) (· = c) c rfl k hk

theorem Describes.single {cap : Capability} (hcap : cap ∈ c.capabilities) :
    c.Describes (Descriptor.unbound [cap] false) := by
  have hlist : Descriptor.ofList false [cap] = .ok (Descriptor.unbound [cap] false) := rfl
  exact Descriptor.Obtainable.ofList (List.forall_mem_singleton.mpr hcap) hlist

end Catalog

end ColumnTypes
