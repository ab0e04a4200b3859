import ColumnTypes.Proofs.Preference
import ColumnTypes.Proofs.Rescan

namespace ColumnTypes

/-!
# Preferences along a merge

A preference that all descriptors share is the preference of their merge. The
merge makes up no preference of its own: what it prefers is preferred by one of
the descriptors and can be read in all of them.
-/

namespace Descriptor

theorem preferredName?_mergeAll_of_shared {ts : List Descriptor} {n : String}
    (hpresent : ∃ t ∈ ts, t.isMissing = false)
    (hts : ∀ t ∈ ts, t.isMissing = false → t.preferredName? = some n) :
    (mergeAll ts).preferredName? = some n := by
  apply mergeAll_of_present hts
  · intro t u ht hu
    rw [preferredName?_intersection, if_pos (ht.trans hu.symm), ht]
  · obtain ⟨t, ht, htm⟩ := hpresent
    rw [Bool.eq_false_iff, Ne, isMissing_mergeAll_iff]
    exact fun hmissing => Bool.false_ne_true (htm.symm.trans (hmissing t ht))

/-- The left side of an intersection already had the preference. -/
theorem exists_preferring_of_mergeAll {ts : List Descriptor}
    (hpresent : (mergeAll ts).isMissing = false) {p : Capability}
    (hp : (mergeAll ts).preferred? = some p) :
    ∃ t ∈ ts, t.isMissing = false ∧ t.preferred? = some p := by
  revert hp
  apply mergeAll_of_present (P := fun v => v.preferred? = some p →
    ∃ t ∈ ts, t.isMissing = false ∧ t.preferred? = some p) _ _ hpresent
  · exact fun t ht htm hp => ⟨t, ht, htm, hp⟩
  · intro t u ht _ hp
    rw [preferred?_intersection] at hp
    split at hp
    · exact ht hp
    · cases hp

theorem Over.isMissing_of_preferred? {cs : List Capability} {t : Descriptor} (ht : t.Over cs)
    {p : Capability} (hp : t.preferred? = some p) : t.isMissing = false := by
  rw [Bool.eq_false_iff]
  intro htm
  rw [ht.shaped.missing_unique htm] at hp
  cases hp

end Descriptor

namespace Catalog

open Descriptor (Over mergeAll)

/-- What every descriptor prefers that is not missing, their merge prefers. Over a catalog, what the
merge prefers is preferred by one of them, and all can be read through it. -/
theorem mergeAll_keeps_preference (ts : List Descriptor) :
    (∀ n, (∃ t ∈ ts, t.isMissing = false) →
        (∀ t ∈ ts, t.isMissing = false → t.preferredName? = some n) →
        (mergeAll ts).preferredName? = some n) ∧
      ∀ c : Catalog, c.Built → (∀ t ∈ ts, t.Over c.capabilities) →
        ∀ p, (mergeAll ts).preferred? = some p →
          (∃ t ∈ ts, t.isMissing = false ∧ t.preferred? = some p) ∧
            ∀ t ∈ ts, t.isMissing = false → t.supports p = true := by
  constructor
  · exact fun n hpresent hts => Descriptor.preferredName?_mergeAll_of_shared hpresent hts
  · intro c hc hts p hp
    have hpresent := (Descriptor.over_mergeAll hts).isMissing_of_preferred? hp
    refine ⟨Descriptor.exists_preferring_of_mergeAll hpresent hp, ?_⟩
    intro t ht htm
    obtain ⟨-, htaken⟩ := Descriptor.takenIn_mergeAll hc.wellFormed.hierarchy hts t ht htm
    exact Descriptor.generalizes_iff.mp htaken.generalizes p (Descriptor.mem_of_preferred? hp)

/-- The shared preference is kept across a missing value. That of a list is kept too, because the
other one reaches it without listing it. -/
theorem mergeAll_keeps_preference_comparable :
    (∀ t ∈ [Descriptor.ofKind .whole, Descriptor.missing, Descriptor.ofKind .real],
        t.isMissing = false → t.preferredName? = some "Numeric") ∧
      (mergeAll [Descriptor.ofKind .whole, Descriptor.missing,
        Descriptor.ofKind .real]).preferredName? = some "Numeric" ∧
      builtin.Built ∧
      (∀ t ∈ [Descriptor.unbound [.comparable] true, Descriptor.unbound [.logical] false],
        t.Over builtin.capabilities) ∧
      (mergeAll [Descriptor.unbound [.comparable] true,
        Descriptor.unbound [.logical] false]).preferred? = some .comparable ∧
      (Descriptor.unbound [.logical] false).supports .comparable = true := by
  have hshared : ∀ t ∈ [Descriptor.ofKind .whole, Descriptor.missing, Descriptor.ofKind .real],
      t.isMissing = false → t.preferredName? = some "Numeric" := by decide
  have hlist : Descriptor.ofList true [.comparable] =
      .ok (Descriptor.unbound [.comparable] true) := rfl
  have hcomparable : builtin.Describes (Descriptor.unbound [.comparable] true) :=
    Descriptor.Obtainable.ofList (List.forall_mem_singleton.mpr (by decide)) hlist
  have hlogical : builtin.Describes (Descriptor.unbound [.logical] false) :=
    Describes.single (by decide)
  have hover : ∀ t ∈ [Descriptor.unbound [.comparable] true, Descriptor.unbound [.logical] false],
      t.Over builtin.capabilities :=
    List.forall_mem_cons.mpr ⟨hcomparable.over Built.builtin.wellFormed,
      List.forall_mem_singleton.mpr (hlogical.over Built.builtin.wellFormed)⟩
  have hpreferred : (mergeAll [Descriptor.unbound [.comparable] true,
      Descriptor.unbound [.logical] false]).preferred? = some .comparable := by decide
  have hkept := (mergeAll_keeps_preference _).2 builtin Built.builtin hover _ hpreferred
  exact ⟨hshared,
    (mergeAll_keeps_preference _).1 _ ⟨_, List.mem_cons_self, rfl⟩ hshared,
    Built.builtin, hover, hpreferred,
    hkept.2 _ (List.mem_cons_of_mem _ List.mem_cons_self) rfl⟩

end Catalog

end ColumnTypes
