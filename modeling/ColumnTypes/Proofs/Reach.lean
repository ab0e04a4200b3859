import ColumnTypes.Proofs.Obtainable

namespace ColumnTypes

/-!
# Reading through the hierarchy

A descriptor can be read through what it lists and through everything above.
Over a hierarchy, being a supertype is being readable through less.
-/

namespace Descriptor

open Capability (Hierarchy covers_iff isListed_iff names)

theorem supports_iff {t : Descriptor} (htm : t.isMissing = false) {c : Capability} :
    t.supports c = true ↔ ∃ d ∈ t.capabilities, c.covers d = true := by
  simp [supports, htm]

theorem supports_of_isMissing {t : Descriptor} (htm : t.isMissing = true) (c : Capability) :
    t.supports c = true := by
  simp [supports, htm]

/-- A name in the list is enough, because capabilities are compared by name. -/
theorem supports_of_isListed {t : Descriptor} {c : Capability}
    (hc : c.isListed t.capabilities = true) : t.supports c = true := by
  obtain ⟨d, hd, hname⟩ := List.mem_map.mp (isListed_iff.mp hc)
  rw [supports, Bool.or_eq_true, List.any_eq_true]
  exact Or.inr ⟨d, hd, covers_iff.mpr ⟨d, Capability.Under.refl d, hname⟩⟩

theorem supports_of_mem {t : Descriptor} {c : Capability} (hc : c ∈ t.capabilities) :
    t.supports c = true :=
  supports_of_isListed (Capability.isListed_of_mem hc)

theorem generalizes_iff {t u : Descriptor} :
    t.generalizes u = true ↔ ∀ c ∈ t.capabilities, u.supports c = true := by
  rw [generalizes, List.all_eq_true]

theorem generalizes_of_subset {t u : Descriptor} (h : t.capabilities ⊆ u.capabilities) :
    t.generalizes u = true :=
  generalizes_iff.mpr fun _ hc => supports_of_mem (h hc)

theorem generalizes_refl (t : Descriptor) : t.generalizes t = true :=
  generalizes_of_subset (List.Subset.refl _)

theorem supports_of_generalizes {cs : List Capability} (hcs : Hierarchy cs) {t u : Descriptor}
    (ht : t.capabilities ⊆ cs) (hu : u.capabilities ⊆ cs) (htm : t.isMissing = false)
    (htu : t.generalizes u = true) {c : Capability} (hc : t.supports c = true) :
    u.supports c = true := by
  cases hum : u.isMissing with
  | true => exact supports_of_isMissing hum c
  | false =>
      obtain ⟨d, hd, hcd⟩ := (supports_iff htm).mp hc
      have hdu := generalizes_iff.mp htu d hd
      obtain ⟨e, he, hde⟩ := (supports_iff hum).mp hdu
      have hce := hcs.covers_trans (ht hd) (hu he) hcd hde
      exact (supports_iff hum).mpr ⟨e, he, hce⟩

theorem generalizes_trans {cs : List Capability} (hcs : Hierarchy cs) {t u v : Descriptor}
    (hu : u.capabilities ⊆ cs) (hv : v.capabilities ⊆ cs) (hum : u.isMissing = false)
    (htu : t.generalizes u = true) (huv : u.generalizes v = true) : t.generalizes v = true := by
  rw [generalizes_iff] at htu ⊢
  intro c hc
  exact supports_of_generalizes hcs hu hv hum huv (htu c hc)

theorem supports_eq_of_name_eq {c d : Capability} (h : c.name = d.name) (t : Descriptor) :
    t.supports c = t.supports d := by
  have hcovers : c.covers = d.covers := by
    funext e
    rw [Capability.covers, Capability.covers, h]
  rw [supports, supports, hcovers]

theorem exists_mem_of_supports {cs : List Capability} (hcs : Hierarchy cs) {t : Descriptor}
    (ht : t.capabilities ⊆ cs) (htm : t.isMissing = false) {c : Capability}
    (hc : t.supports c = true) : ∃ d ∈ cs, c.name = d.name := by
  obtain ⟨e, he, hce⟩ := (supports_iff htm).mp hc
  obtain ⟨d, hed, hname⟩ := covers_iff.mp hce
  exact ⟨d, hcs.mem_of_under (ht he) hed, hname.symm⟩

/-! ## The merge as a common supertype -/

theorem mem_of_mem_intersection {t u : Descriptor} {c : Capability}
    (hc : c ∈ (t.intersection u).capabilities) :
    c ∈ t.capabilities ∧ c.isListed u.capabilities = true :=
  List.mem_filter.mp hc

theorem capabilities_merge_subset {cs : List Capability} {t u : Descriptor}
    (ht : t.capabilities ⊆ cs) (hu : u.capabilities ⊆ cs) : (t.merge u).capabilities ⊆ cs :=
  merge_induction (P := fun v => v.capabilities ⊆ cs) ht hu
    fun _ hc => ht (mem_of_mem_intersection hc).1

theorem merge_generalizes_left {t u : Descriptor} (htm : t.isMissing = false)
    (hum : u.isMissing = false) : (t.merge u).generalizes t = true := by
  cases mergeCase htm hum with
  | left _ _ heq =>
      rw [heq]
      exact generalizes_refl t
  | right _ hle heq =>
      rw [heq]
      exact hle
  | intersect _ _ heq =>
      rw [heq]
      exact generalizes_of_subset fun c hc => (mem_of_mem_intersection hc).1

theorem merge_generalizes_right {t u : Descriptor} (htm : t.isMissing = false)
    (hum : u.isMissing = false) : (t.merge u).generalizes u = true := by
  cases mergeCase htm hum with
  | left hle _ heq =>
      rw [heq]
      exact hle
  | right _ _ heq =>
      rw [heq]
      exact generalizes_refl u
  | intersect _ _ heq =>
      rw [heq, generalizes_iff]
      exact fun c hc => supports_of_isListed (mem_of_mem_intersection hc).2

/-! ## Over a catalog -/

theorem mem_bound {k : Kind} {d : Discovery} {c : Capability}
    (hc : c ∈ (bound k d).capabilities) : c ∈ d.capabilities ∨ d.preferred = some c := by
  unfold bound at hc
  cases hpreferred : d.preferred with
  | none =>
      rw [hpreferred] at hc
      exact Or.inl hc
  | some p =>
      rw [hpreferred] at hc
      rcases List.mem_cons.mp hc with rfl | hc
      · exact Or.inr rfl
      · exact Or.inl (List.mem_filter.mp hc).1

theorem capabilities_subset_of_preferring {t u : Descriptor} {c : Capability}
    (h : t.preferring c = .ok u) : u.capabilities ⊆ c :: t.capabilities := by
  obtain ⟨-, rfl⟩ := preferring_eq_ok_iff.mp h
  exact List.cons_subset_cons c (List.filter_subset_self _)

theorem capabilities_of_ofList {flag : Bool} {cs : List Capability} {t : Descriptor}
    (h : ofList flag cs = .ok t) : t.capabilities = cs ∧ t.isMissing = false := by
  obtain ⟨rfl, -, -⟩ := ofList_eq_ok_iff.mp h
  exact ⟨rfl, rfl⟩

end Descriptor

namespace Catalog

variable {c : Catalog}

theorem WellFormed.capabilities_ofKind (hc : c.WellFormed) {k : Kind} (hk : k ∈ c.kinds) :
    (Descriptor.ofKind k).capabilities ⊆ c.capabilities := by
  intro cap hcap
  rcases Descriptor.mem_bound hcap with hcap | hcap
  · exact hc.discovery_mem hk cap hcap
  · exact hc.preferred_mem hk hcap

theorem Describes.capabilities_subset (hc : c.WellFormed) {t : Descriptor}
    (ht : c.Describes t) : t.capabilities ⊆ c.capabilities := by
  refine Descriptor.Obtainable.induction (P := fun t => t.capabilities ⊆ c.capabilities)
    ?_ ?_ ?_ ?_ ?_ ?_ ?_ ht
  · rintro _ rfl k hk
    exact hk
  · rintro _ rfl cap hcap
    exact hcap
  · exact List.nil_subset _
  · exact fun k hk => hc.capabilities_ofKind hk
  · intro flag cs t hcs h
    exact (Descriptor.capabilities_of_ofList h).1 ▸ hcs
  · intro t u cap ht hcap h
    exact List.Subset.trans (Descriptor.capabilities_subset_of_preferring h)
      (List.cons_subset.mpr ⟨hcap, ht⟩)
  · exact fun t u ht hu => Descriptor.capabilities_merge_subset ht hu

end Catalog

end ColumnTypes
