import ColumnTypes.Proofs.Supertypes

namespace ColumnTypes

/-!
# Descriptors that agree

Agreement forgets the binding and the order of a descriptor, and a merge keeps
both of its left side. Over a catalog nothing depends on what is forgotten:
descriptors that agree list the same capabilities, so each can take the place of
the other, on either side of a comparison or a merge. The missing descriptor is
the exception, because it agrees with a list that is empty.
-/

namespace Descriptor

open Capability (Hierarchy names)

theorem agrees_congr_left {t t' u : Descriptor} (ht : t.WellShaped) (ht' : t'.WellShaped)
    (hu : u.WellShaped) (h : t.agrees t' = true) : t.agrees u = t'.agrees u := by
  rw [Bool.eq_iff_iff]
  constructor
  · exact agrees_trans ht' ht hu (agrees_comm t t' ▸ h)
  · exact agrees_trans ht ht' hu h

theorem agrees_intersection_congr {t t' : Descriptor} (ht : t.WellShaped) (ht' : t'.WellShaped)
    (h : t.agrees t' = true) (u : Descriptor) :
    (t.intersection u).agrees (t'.intersection u) = true := by
  obtain ⟨hpreferred, hnames⟩ := (agrees_iff ht ht').mp h
  rw [agrees_iff (wellShaped_intersection ht u) (wellShaped_intersection ht' u)]
  constructor
  · rw [preferredName?_intersection, preferredName?_intersection, hpreferred]
  · intro n
    rw [names_intersection, names_intersection, hnames n]

variable {cs : List Capability} (hcs : Hierarchy cs) {t t' u : Descriptor} (ht : t.Over cs)
  (ht' : t'.Over cs) (hu : u.Over cs)

section

include hcs ht ht'

/-- Over a hierarchy the names tell the capabilities. -/
theorem mem_iff_of_agrees (h : t.agrees t' = true) (c : Capability) :
    c ∈ t.capabilities ↔ c ∈ t'.capabilities := by
  obtain ⟨-, hnames⟩ := (agrees_iff ht.shaped ht'.shaped).mp h
  have hmem : ∀ {v : Descriptor}, v.capabilities ⊆ cs → c ∈ cs →
      (c ∈ v.capabilities ↔ c.name ∈ names v.capabilities) := by
    intro v hv hc
    rw [← hcs.isListed_iff_mem hc hv, Capability.isListed_iff]
  constructor
  · intro hc
    have hcs := ht.subset hc
    rwa [hmem ht'.subset hcs, ← hnames, ← hmem ht.subset hcs]
  · intro hc
    have hcs := ht'.subset hc
    rwa [hmem ht.subset hcs, hnames, ← hmem ht'.subset hcs]

theorem supports_congr (htm : t.isMissing = false) (htm' : t'.isMissing = false)
    (h : t.agrees t' = true) (c : Capability) : t.supports c = t'.supports c := by
  rw [Bool.eq_iff_iff, supports_iff htm, supports_iff htm']
  simp only [mem_iff_of_agrees hcs ht ht' h]

theorem generalizes_congr_left (h : t.agrees t' = true) (u : Descriptor) :
    t.generalizes u = t'.generalizes u := by
  rw [Bool.eq_iff_iff, generalizes_iff, generalizes_iff]
  simp only [mem_iff_of_agrees hcs ht ht' h]

theorem generalizes_congr_right (htm : t.isMissing = false) (htm' : t'.isMissing = false)
    (h : t.agrees t' = true) (u : Descriptor) : u.generalizes t = u.generalizes t' := by
  rw [Bool.eq_iff_iff, generalizes_iff, generalizes_iff]
  simp only [supports_congr hcs ht ht' htm htm' h]

end

include hcs ht ht' hu

/-- Both sides take the same branch, because all that is tested is the same. -/
theorem agrees_merge_congr_left (htm : t.isMissing = false) (htm' : t'.isMissing = false)
    (h : t.agrees t' = true) : (t.merge u).agrees (t'.merge u) = true := by
  cases hum : u.isMissing with
  | true => rwa [merge_of_isMissing_right htm hum, merge_of_isMissing_right htm' hum]
  | false =>
      have hboth := agrees_intersection_congr ht.shaped ht'.shaped h u
      have hleft := generalizes_congr_left hcs ht ht' h u
      have hright := generalizes_congr_right hcs ht ht' htm htm' h u
      have hagree := agrees_congr_left ht.shaped ht'.shaped hu.shaped h
      rw [merge, merge, htm, htm', hum, ← hleft, ← hright, ← hagree]
      simp only [Bool.false_eq_true, if_false]
      cases t.generalizes u with
      | true =>
          cases u.generalizes t with
          | true =>
              cases t.agrees u with
              | true => exact h
              | false => exact hboth
          | false => exact h
      | false =>
          cases u.generalizes t with
          | true => exact agrees_refl u
          | false => exact hboth

theorem agrees_merge_congr_right (htm : t.isMissing = false) (htm' : t'.isMissing = false)
    (h : t.agrees t' = true) : (u.merge t).agrees (u.merge t') = true := by
  have hcomm := agrees_merge_comm hu.shaped ht.shaped
  have hcomm' := agrees_merge_comm ht'.shaped hu.shaped
  have hleft := agrees_merge_congr_left hcs ht ht' hu htm htm' h
  have hmerge := (ht.merge hu).shaped
  have hmerge' := (ht'.merge hu).shaped
  exact agrees_trans (hu.merge ht).shaped hmerge (hu.merge ht').shaped hcomm
    (agrees_trans hmerge hmerge' (hu.merge ht').shaped hleft hcomm')

end Descriptor

/-! ## In memory -/

namespace Memory

/-- The merge of what is stored, by the comparison that sees shared lists. -/
def merge (m : Memory) (a b : Nat) : Descriptor :=
  if (m.read a).isMissing then m.read b
  else if (m.read b).isMissing then m.read a
  else
    match m.generalizes a b, m.generalizes b a with
    | true, false => m.read a
    | false, true => m.read b
    | true, true =>
        if (m.read a).agrees (m.read b) then m.read a else (m.read a).intersection (m.read b)
    | false, false => (m.read a).intersection (m.read b)

theorem merge_eq_read (m : Memory) (a b : Nat) : m.merge a b = (m.read a).merge (m.read b) := by
  rw [merge, generalizes_eq_read, generalizes_eq_read]
  rfl

end Memory

/-! ## Over a catalog -/

namespace Catalog

open Descriptor (Over)

variable {c : Catalog}

/-- Of two descriptors that agree, whatever they are bound to and wherever they are stored, each can
be read through the same, is above and below the same, and gives merges that agree. -/
theorem agrees_interchangeable (hc : c.Built) {t t' u : Descriptor} (ht : t.Over c.capabilities)
    (ht' : t'.Over c.capabilities) (hu : u.Over c.capabilities) (htm : t.isMissing = false)
    (htm' : t'.isMissing = false) (h : t.agrees t' = true) :
    (∀ cap, t.supports cap = t'.supports cap) ∧
      t.generalizes u = t'.generalizes u ∧ u.generalizes t = u.generalizes t' ∧
      (t.merge u).agrees (t'.merge u) = true ∧ (u.merge t).agrees (u.merge t') = true ∧
      ∀ (m : Memory) (a a' b : Nat), m.read a = t → m.read a' = t' → m.read b = u →
        m.generalizes a b = m.generalizes a' b ∧ m.generalizes b a = m.generalizes b a' ∧
          (m.merge a b).agrees (m.merge a' b) = true ∧
          (m.merge b a).agrees (m.merge b a') = true := by
  have hcs := hc.wellFormed.hierarchy
  have hbelow := Descriptor.generalizes_congr_left hcs ht ht' h u
  have habove := Descriptor.generalizes_congr_right hcs ht ht' htm htm' h u
  have hleft := Descriptor.agrees_merge_congr_left hcs ht ht' hu htm htm' h
  have hright := Descriptor.agrees_merge_congr_right hcs ht ht' hu htm htm' h
  refine ⟨Descriptor.supports_congr hcs ht ht' htm htm' h, hbelow, habove, hleft, hright, ?_⟩
  rintro m a a' b rfl rfl rfl
  simp only [Memory.generalizes_eq_read, Memory.merge_eq_read]
  exact ⟨hbelow, habove, hleft, hright⟩

/-- Two orders of one list are left in two orders by a merge, which agree as well. -/
theorem agrees_interchangeable_numeric :
    (∀ t ∈ [Descriptor.unbound [.comparable, .logical, .numeric] false,
        Descriptor.unbound [.numeric, .comparable, .logical] false,
        Descriptor.unbound [.textual, .comparable, .numeric] false],
        t.Over builtin.capabilities ∧ t.isMissing = false) ∧
      (Descriptor.unbound [.comparable, .logical, .numeric] false).agrees
        (Descriptor.unbound [.numeric, .comparable, .logical] false) = true ∧
      (Descriptor.unbound [.comparable, .logical, .numeric] false).merge
          (Descriptor.unbound [.textual, .comparable, .numeric] false) =
        Descriptor.unbound [.comparable, .numeric] false ∧
      (Descriptor.unbound [.numeric, .comparable, .logical] false).merge
          (Descriptor.unbound [.textual, .comparable, .numeric] false) =
        Descriptor.unbound [.numeric, .comparable] false ∧
      ((Descriptor.unbound [.comparable, .logical, .numeric] false).merge
          (Descriptor.unbound [.textual, .comparable, .numeric] false)).agrees
        ((Descriptor.unbound [.numeric, .comparable, .logical] false).merge
          (Descriptor.unbound [.textual, .comparable, .numeric] false)) = true := by
  have hover : ∀ cs : List Capability, (Capability.names cs).Nodup → cs ⊆ builtin.capabilities →
      (Descriptor.unbound cs false).Over builtin.capabilities :=
    fun cs hnodup hcs => ⟨⟨hnodup, nofun, nofun⟩, hcs⟩
  have hleft := hover [.comparable, .logical, .numeric] (by decide) (by decide)
  have hright := hover [.numeric, .comparable, .logical] (by decide) (by decide)
  have hother := hover [.textual, .comparable, .numeric] (by decide) (by decide)
  have hagree : (Descriptor.unbound [.comparable, .logical, .numeric] false).agrees
      (Descriptor.unbound [.numeric, .comparable, .logical] false) = true := by decide
  have hmerge :=
    (agrees_interchangeable Built.builtin hleft hright hother rfl rfl hagree).2.2.2.1
  refine ⟨?_, hagree, by decide, by decide, hmerge⟩
  exact List.forall_mem_cons.mpr ⟨⟨hleft, rfl⟩, List.forall_mem_cons.mpr
    ⟨⟨hright, rfl⟩, List.forall_mem_singleton.mpr ⟨hother, rfl⟩⟩⟩

end Catalog

end ColumnTypes
