import ColumnTypes.Proofs.MostSpecific

namespace ColumnTypes

/-!
# Closed descriptors

A descriptor is closed if it lists everything above what it lists. Reading it
through a capability is listing that name, and the merge of closed descriptors
is closed and intersects the names. Kinds that implement what they prefer are
described by closed descriptors.
-/

namespace Descriptor

open Capability (Hierarchy ParentClosed isListed_iff isListed_of_mem names)

structure Closed (cs : List Capability) (t : Descriptor) : Prop where
  present : t.isMissing = false
  shaped : t.WellShaped
  subset : t.capabilities ⊆ cs
  parents_listed : ParentClosed t.capabilities

namespace Closed

variable {cs : List Capability} (hcs : Hierarchy cs) {t u : Descriptor}
include hcs

theorem supports_iff_isListed (ht : t.Closed cs) {c : Capability} :
    t.supports c = true ↔ c.isListed t.capabilities = true := by
  constructor
  · intro hc
    obtain ⟨d, hd, hcd⟩ := (supports_iff ht.present).mp hc
    obtain ⟨e, hde, hname⟩ := Capability.covers_iff.mp hcd
    have he := hcs.mem_of_under_of_parentClosed (fun x hx => ht.subset hx) ht.parents_listed hd hde
    exact isListed_iff.mpr (hname ▸ List.mem_map_of_mem he)
  · exact supports_of_isListed

theorem generalizes_iff_names (hu : u.Closed cs) :
    t.generalizes u = true ↔ names t.capabilities ⊆ names u.capabilities := by
  rw [generalizes_iff]
  constructor
  · intro h n hn
    obtain ⟨c, hc, rfl⟩ := List.mem_map.mp hn
    have hlisted := (hu.supports_iff_isListed hcs).mp (h c hc)
    exact isListed_iff.mp hlisted
  · intro h c hc
    have hname : c.name ∈ names u.capabilities := h (List.mem_map_of_mem hc)
    exact supports_of_isListed (isListed_iff.mpr hname)

/-- A parent of a common capability is listed on both sides. -/
theorem intersection (ht : t.Closed cs) (hu : u.Closed cs) : (t.intersection u).Closed cs where
  present := rfl
  shaped := wellShaped_intersection ht.shaped u
  subset _ hc := ht.subset (mem_of_mem_intersection hc).1
  parents_listed := by
    intro c hc p hp
    obtain ⟨hct, hlisted⟩ := mem_of_mem_intersection hc
    have hcu : c ∈ u.capabilities := (hcs.isListed_iff_mem (ht.subset hct) hu.subset).mp hlisted
    have hpcs := hcs.parent_mem (ht.subset hct) hp
    have hpt := (hcs.isListed_iff_mem hpcs ht.subset).mp (ht.parents_listed c hct p hp)
    exact isListed_of_mem (List.mem_filter.mpr ⟨hpt, hu.parents_listed c hcu p hp⟩)

theorem merge (ht : t.Closed cs) (hu : u.Closed cs) : (t.merge u).Closed cs :=
  merge_induction ht hu (ht.intersection hcs hu)

theorem names_merge (ht : t.Closed cs) (hu : u.Closed cs) (n : String) :
    n ∈ names (t.merge u).capabilities ↔ n ∈ names t.capabilities ∧ n ∈ names u.capabilities := by
  cases mergeCase ht.present hu.present with
  | left hle _ heq =>
      have hsub := (hu.generalizes_iff_names hcs).mp hle
      rw [heq]
      exact ⟨fun h => ⟨h, hsub h⟩, And.left⟩
  | right _ hle heq =>
      have hsub := (ht.generalizes_iff_names hcs).mp hle
      rw [heq]
      exact ⟨fun h => ⟨hsub h, h⟩, And.right⟩
  | intersect _ _ heq =>
      rw [heq]
      exact names_intersection t u n

end Closed

/-! ## The preference of a merge -/

/-- Fewer names, strictly. -/
def Narrower (t u : Descriptor) : Prop :=
  names t.capabilities ⊆ names u.capabilities ∧ ¬names u.capabilities ⊆ names t.capabilities

namespace Closed

variable {cs : List Capability} (hcs : Hierarchy cs) {t u : Descriptor} (ht : t.Closed cs)
  (hu : u.Closed cs)
include hcs ht hu

theorem merge_of_narrower (h : t.Narrower u) : t.merge u = t := by
  have htu : t.generalizes u = true := (hu.generalizes_iff_names hcs).mpr h.1
  have hut : u.generalizes t = false := by
    rw [Bool.eq_false_iff]
    exact fun hut => h.2 ((ht.generalizes_iff_names hcs).mp hut)
  simp [Descriptor.merge, ht.present, hu.present, htu, hut]

theorem merge_of_narrower_right (h : u.Narrower t) : t.merge u = u := by
  have hut : u.generalizes t = true := (ht.generalizes_iff_names hcs).mpr h.1
  have htu : t.generalizes u = false := by
    rw [Bool.eq_false_iff]
    exact fun htu => h.2 ((hu.generalizes_iff_names hcs).mp htu)
  simp [Descriptor.merge, ht.present, hu.present, htu, hut]

/-- With neither side narrower, only a preference of both is kept. -/
theorem preferredName?_merge (htu : ¬t.Narrower u) (hut : ¬u.Narrower t) :
    (t.merge u).preferredName? =
      if t.preferredName? = u.preferredName? then t.preferredName? else none := by
  cases mergeCase ht.present hu.present with
  | left hle hstop heq =>
      rcases hstop with hnot | hagree
      · have hnames : ¬names u.capabilities ⊆ names t.capabilities := by
          rw [← ht.generalizes_iff_names hcs, hnot]
          exact Bool.false_ne_true
        exact absurd ⟨(hu.generalizes_iff_names hcs).mp hle, hnames⟩ htu
      · rw [heq, if_pos ((agrees_iff ht.shaped hu.shaped).mp hagree).1]
  | right hnot hle heq =>
      have hnames : ¬names t.capabilities ⊆ names u.capabilities := by
        rw [← hu.generalizes_iff_names hcs, hnot]
        exact Bool.false_ne_true
      exact absurd ⟨(ht.generalizes_iff_names hcs).mp hle, hnames⟩ hut
  | intersect _ _ heq =>
      rw [heq]
      exact preferredName?_intersection t u

end Closed

/-! ## Descriptors of kinds -/

theorem names_ofKind {k : Kind} (hk : k.discovery.prefersImplemented = true) (n : String) :
    n ∈ names (ofKind k).capabilities ↔ n ∈ names k.discovery.capabilities := by
  unfold ofKind bound
  unfold Discovery.prefersImplemented at hk
  cases hpreferred : k.discovery.preferred with
  | none => exact Iff.rfl
  | some p =>
      rw [hpreferred] at hk
      have hp : p.name ∈ names k.discovery.capabilities := isListed_iff.mp hk
      simp only [names, List.map_cons, List.mem_cons, List.mem_map, List.mem_filter,
        bne_iff_ne] at hp ⊢
      constructor
      · rintro (rfl | ⟨c, ⟨hc, -⟩, rfl⟩)
        · exact hp
        · exact ⟨c, hc, rfl⟩
      · rintro ⟨c, hc, rfl⟩
        by_cases heq : c.name = p.name
        · exact Or.inl heq
        · exact Or.inr ⟨c, ⟨hc, heq⟩, rfl⟩

end Descriptor

namespace Catalog

open Descriptor (Closed)

variable {c : Catalog} (hc : c.WellFormed)
include hc

theorem WellFormed.closed_ofKind {k : Kind} (hk : k ∈ c.kinds)
    (hclosed : Capability.ParentClosed (Descriptor.ofKind k).capabilities) :
    (Descriptor.ofKind k).Closed c.capabilities where
  present := rfl
  shaped := Descriptor.wellShaped_ofKind k
  subset := hc.capabilities_ofKind hk
  parents_listed := hclosed

/-- An implemented preference is one of the discovered capabilities, which are closed. -/
theorem WellFormed.parentClosed_ofKind {k : Kind} (hk : k ∈ c.kinds)
    (hprefers : k.discovery.prefersImplemented = true) :
    Capability.ParentClosed (Descriptor.ofKind k).capabilities := by
  have hdiscovered : Capability.ParentClosed k.discovery.capabilities :=
    Capability.parentClosed_closure _
  intro cap hcap p hp
  have hmem : cap ∈ k.discovery.capabilities := by
    have hname := (Descriptor.names_ofKind hprefers cap.name).mp (List.mem_map_of_mem hcap)
    have hlisted : cap.isListed k.discovery.capabilities = true :=
      Capability.isListed_iff.mpr hname
    have hregistered := hc.capabilities_ofKind hk hcap
    exact (hc.hierarchy.isListed_iff_mem hregistered (hc.discovery_mem hk)).mp hlisted
  have hlisted := hdiscovered cap hmem p hp
  rw [Capability.isListed_iff, Descriptor.names_ofKind hprefers]
  exact Capability.isListed_iff.mp hlisted

end Catalog

end ColumnTypes
