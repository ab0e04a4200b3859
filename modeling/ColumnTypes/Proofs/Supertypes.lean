import ColumnTypes.Proofs.Preference
import ColumnTypes.Proofs.Rescan

namespace ColumnTypes

/-!
# Supertypes

Over a catalog, a descriptor is a supertype of another one exactly if whatever it
can be read through, the other can be read through too. Merging it with that other
one then changes nothing of what it can be read through. Only where each is above
the other, and they do not agree, can the preference be lost.
-/

namespace Descriptor

open Capability (Hierarchy)

theorem merge_eq_or_mutual {t u : Descriptor} (htm : t.isMissing = false)
    (htu : t.generalizes u = true) :
    t.merge u = t ∨ u.isMissing = false ∧ u.generalizes t = true ∧ u.agrees t = false := by
  cases hum : u.isMissing with
  | true => exact Or.inl (merge_of_isMissing_right htm hum)
  | false =>
      cases mergeCase htm hum with
      | left _ _ heq => exact Or.inl heq
      | right hnot _ _ => exact absurd (hnot.symm.trans htu) Bool.false_ne_true
      | intersect hiff hdiff _ =>
          have hne := hdiff.resolve_left fun hnot => Bool.false_ne_true (hnot.symm.trans htu)
          exact Or.inr ⟨rfl, hiff ▸ htu, agrees_comm u t ▸ hne⟩

variable {cs : List Capability} (hcs : Hierarchy cs)
include hcs

/-- What is listed decides about everything above it. -/
theorem generalizes_iff_registered {t u : Descriptor} (ht : t.capabilities ⊆ cs)
    (hu : u.capabilities ⊆ cs) (htm : t.isMissing = false) :
    t.generalizes u = true ↔ ∀ c ∈ cs, t.supports c = true → u.supports c = true := by
  constructor
  · intro htu c _ hc
    exact supports_of_generalizes hcs ht hu htm htu hc
  · intro h
    rw [generalizes_iff]
    intro c hc
    exact h c (ht hc) (supports_of_mem hc)

theorem supports_eq_of_mutual {t u : Descriptor} (ht : t.capabilities ⊆ cs)
    (hu : u.capabilities ⊆ cs) (htm : t.isMissing = false) (hum : u.isMissing = false)
    (htu : t.generalizes u = true) (hut : u.generalizes t = true) (c : Capability) :
    t.supports c = u.supports c := by
  rw [Bool.eq_iff_iff]
  constructor
  · exact supports_of_generalizes hcs ht hu htm htu
  · exact supports_of_generalizes hcs hu ht hum hut

/-- All that is listed is shared, and with one side above the other the merge keeps what is
shared. -/
theorem generalizes_merge_of_generalizes {t u : Descriptor} (ht : t.capabilities ⊆ cs)
    (hu : u.capabilities ⊆ cs) (htm : t.isMissing = false) (hum : u.isMissing = false)
    (htu : t.generalizes u = true) : t.generalizes (t.merge u) = true := by
  have hkeeps := (supports_merge_iff hcs ht hu htm hum).mpr (Or.inl htu)
  rw [generalizes_iff] at htu ⊢
  intro c hc
  exact hkeeps c (ht hc) (supports_of_mem hc) (htu c hc)

/-- Over a hierarchy the name of the preferred capability tells which one it is. -/
theorem preferredName?_eq_some_iff {t : Descriptor} (ht : t.capabilities ⊆ cs) {p : Capability}
    (hp : p ∈ cs) : t.preferredName? = some p.name ↔ t.preferred? = some p := by
  rw [preferredName?, Option.map_eq_some_iff]
  constructor
  · rintro ⟨q, hq, hname⟩
    rw [hq, hcs.eq_of_name_eq (ht (mem_of_preferred? hq)) hp hname]
  · intro h
    exact ⟨p, h, rfl⟩

end Descriptor

/-! ## Descriptors in memory -/

/-- A descriptor refers to its list, which its copies share. -/
structure StoredDescriptor where
  binding : Binding
  list : Nat
  hasPreferred : Bool

/-- What the addresses of descriptors and of lists hold. -/
structure Memory where
  descriptorAt : Nat → StoredDescriptor
  listAt : Nat → List Capability

namespace Memory

def read (m : Memory) (a : Nat) : Descriptor :=
  ⟨(m.descriptorAt a).binding, m.listAt (m.descriptorAt a).list, (m.descriptorAt a).hasPreferred⟩

/-- A descriptor is above itself and above those that share its list, without a look inside. -/
def generalizes (m : Memory) (a b : Nat) : Bool :=
  if a = b ∨ (m.descriptorAt a).list = (m.descriptorAt b).list then true
  else (m.read a).generalizes (m.read b)

theorem generalizes_eq_read (m : Memory) (a b : Nat) :
    m.generalizes a b = (m.read a).generalizes (m.read b) := by
  unfold generalizes
  split
  · rename_i hshared
    have hlist : (m.descriptorAt a).list = (m.descriptorAt b).list := by
      rcases hshared with rfl | hlist
      · rfl
      · exact hlist
    have hlists : (m.read a).capabilities = (m.read b).capabilities := congrArg m.listAt hlist
    exact (Descriptor.generalizes_of_subset fun _ hc => hlists ▸ hc).symm
  · rfl

end Memory

/-! ## Over a catalog -/

namespace Catalog

open Descriptor (Over Undecided)

variable {c : Catalog}

/-- To be a supertype is to be readable through less, wherever the two are stored, and so it is a
preorder on the descriptors that are not missing. -/
theorem generalizes_iff_forall_supports (hc : c.Built) {t u : Descriptor}
    (ht : t.Over c.capabilities) (hu : u.Over c.capabilities) (htm : t.isMissing = false) :
    (t.generalizes u = true ↔
        ∀ cap ∈ c.capabilities, t.supports cap = true → u.supports cap = true) ∧
      (∀ (m : Memory) (a b : Nat), m.generalizes a b = (m.read a).generalizes (m.read b)) ∧
      t.generalizes t = true ∧
      ∀ v : Descriptor, v.Over c.capabilities → u.isMissing = false →
        t.generalizes u = true → u.generalizes v = true → t.generalizes v = true := by
  have hcs := hc.wellFormed.hierarchy
  refine ⟨Descriptor.generalizes_iff_registered hcs ht.subset hu.subset htm,
    Memory.generalizes_eq_read, Descriptor.generalizes_refl t, ?_⟩
  intro v hv hum htu huv
  exact Descriptor.generalizes_trans hcs hu.subset hv.subset hum htu huv

/-- `Logical` extends `Comparable`, so it need not be listed with it. -/
theorem generalizes_iff_forall_supports_logical :
    (Descriptor.unbound [.comparable] false).Over builtin.capabilities ∧
      (Descriptor.unbound [.logical] false).Over builtin.capabilities ∧
      (Descriptor.ofKind .flag).Over builtin.capabilities ∧
      (Descriptor.unbound [.comparable] false).isMissing = false ∧
      (Descriptor.unbound [.logical] false).isMissing = false ∧
      (∀ cap ∈ builtin.capabilities,
        (Descriptor.unbound [.comparable] false).supports cap = true →
          (Descriptor.unbound [.logical] false).supports cap = true) ∧
      (Descriptor.unbound [.comparable] false).generalizes (Descriptor.ofKind .flag) = true := by
  have hwf := Built.builtin.wellFormed
  have hcomparable : builtin.Describes (Descriptor.unbound [.comparable] false) :=
    Describes.single (by decide)
  have hlogical : builtin.Describes (Descriptor.unbound [.logical] false) :=
    Describes.single (by decide)
  have hflag : builtin.Describes (Descriptor.ofKind .flag) := Describes.ofKind (by decide)
  obtain ⟨hiff, -, -, htrans⟩ :=
    generalizes_iff_forall_supports Built.builtin (hcomparable.over hwf) (hlogical.over hwf) rfl
  exact ⟨hcomparable.over hwf, hlogical.over hwf, hflag.over hwf, rfl, rfl, hiff.mp (by decide),
    htrans _ (hflag.over hwf) rfl (by decide) (by decide)⟩

/-- A supertype that is merged with what is below it can be read through the same as before. It is
not even changed, unless the other side is present, above it as well and does not agree with it;
then a preference is left exactly if both have it. -/
theorem merge_of_generalizes (hc : c.Built) {t u : Descriptor} (ht : t.Over c.capabilities)
    (hu : u.Over c.capabilities) (htm : t.isMissing = false) (htu : t.generalizes u = true) :
    (∀ cap, (t.merge u).supports cap = t.supports cap) ∧
      (t.merge u = t ∨
        u.isMissing = false ∧ u.generalizes t = true ∧ u.agrees t = false) ∧
      (u.isMissing = false → u.generalizes t = true → u.agrees t = false →
        ∀ p, (t.merge u).preferred? = some p ↔
          t.preferred? = some p ∧ u.preferred? = some p) := by
  have hcs := hc.wellFormed.hierarchy
  refine ⟨?_, Descriptor.merge_eq_or_mutual htm htu, ?_⟩
  · intro cap
    cases hum : u.isMissing with
    | true => rw [Descriptor.merge_of_isMissing_right htm hum]
    | false =>
        apply Descriptor.supports_eq_of_mutual hcs (ht.merge hu).subset ht.subset
          (Descriptor.isMissing_merge htm hum) htm
        · exact Descriptor.merge_generalizes_left htm hum
        · exact Descriptor.generalizes_merge_of_generalizes hcs ht.subset hu.subset htm hum htu
  · intro hum hut hdiffer p
    have hundecided : Undecided t u :=
      ⟨htm, hum, htu.trans hut.symm, fun _ => Descriptor.agrees_comm t u ▸ hdiffer⟩
    rw [hundecided.preferred?_merge_iff]
    refine and_congr_right fun hp => ?_
    exact Descriptor.preferredName?_eq_some_iff hcs hu.subset
      (ht.subset (Descriptor.mem_of_preferred? hp))

/-- Each list reaches as much as the other, but only the first one has a preference. -/
theorem merge_of_generalizes_logical :
    (Descriptor.unbound [.logical, .comparable] true).Over builtin.capabilities ∧
      (Descriptor.unbound [.logical] false).Over builtin.capabilities ∧
      (Descriptor.unbound [.logical, .comparable] true).isMissing = false ∧
      (Descriptor.unbound [.logical, .comparable] true).generalizes
        (Descriptor.unbound [.logical] false) = true ∧
      (∀ cap, ((Descriptor.unbound [.logical, .comparable] true).merge
          (Descriptor.unbound [.logical] false)).supports cap =
        (Descriptor.unbound [.logical, .comparable] true).supports cap) ∧
      ((Descriptor.unbound [.logical, .comparable] true).merge
        (Descriptor.unbound [.logical] false)).preferred? = none := by
  have hwf := Built.builtin.wellFormed
  have hlist : Descriptor.ofList true [.logical, .comparable] =
      .ok (Descriptor.unbound [.logical, .comparable] true) := rfl
  have hmem : ∀ cap ∈ [Capability.logical, .comparable], cap ∈ builtin.capabilities := by decide
  have hpair : builtin.Describes (Descriptor.unbound [.logical, .comparable] true) :=
    Descriptor.Obtainable.ofList hmem hlist
  have hsingle : builtin.Describes (Descriptor.unbound [.logical] false) :=
    Describes.single (by decide)
  have habove : (Descriptor.unbound [.logical, .comparable] true).generalizes
      (Descriptor.unbound [.logical] false) = true := by decide
  obtain ⟨hsupports, -, hpreferred⟩ :=
    merge_of_generalizes Built.builtin (hpair.over hwf) (hsingle.over hwf) rfl habove
  refine ⟨hpair.over hwf, hsingle.over hwf, rfl, habove, hsupports, ?_⟩
  rw [Option.eq_none_iff_forall_ne_some]
  intro p hp
  cases ((hpreferred rfl (by decide) (by decide) p).mp hp).2

/-- Missing is above everything, prefers nothing and takes no preference away. -/
theorem merge_missing_keeps_preference :
    builtin.Built ∧ builtin.Describes (Descriptor.ofKind .whole) ∧
      builtin.Describes Descriptor.missing ∧
      (Descriptor.ofKind .whole).isMissing = false ∧
      (Descriptor.ofKind .whole).generalizes Descriptor.missing = true ∧
      Descriptor.missing.generalizes (Descriptor.ofKind .whole) = true ∧
      Descriptor.missing.agrees (Descriptor.ofKind .whole) = false ∧
      Descriptor.missing.preferred? = none ∧
      ((Descriptor.ofKind .whole).merge Descriptor.missing).preferred? = some .numeric :=
  ⟨Built.builtin, Describes.ofKind (by decide), Descriptor.Obtainable.missing, rfl, by decide,
    by decide, by decide, rfl, by decide⟩

end Catalog

end ColumnTypes
