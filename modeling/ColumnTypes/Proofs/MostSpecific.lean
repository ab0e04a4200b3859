import ColumnTypes.Proofs.Reach
import Mathlib.Data.Finset.Max
import Mathlib.Data.Finset.Dedup

namespace ColumnTypes

/-!
# How specific the merge is

The merge is a supertype of both sides. It intersects the lists, not what lies
above them, so it is the most specific supertype only under a condition: one
side is a supertype of the other, or both list the most specific capabilities
that they share.
-/

namespace Descriptor

open Capability (Hierarchy)

/-! ## Shared capabilities -/

/-- A capability that both can be read through, with no other such capability under it. -/
structure Sharpest (cs : List Capability) (t u : Descriptor) (c : Capability) : Prop where
  mem : c ∈ cs
  left : t.supports c = true
  right : u.supports c = true
  under : ∀ d ∈ cs, t.supports d = true → u.supports d = true → c.covers d = true → d = c

/-- The condition for the merge to keep everything that both can be read through. -/
def KeepsShared (cs : List Capability) (t u : Descriptor) : Prop :=
  t.generalizes u = true ∨ u.generalizes t = true ∨
    ∀ c, Sharpest cs t u c → c ∈ t.capabilities ∧ c ∈ u.capabilities

namespace Sharpest

variable {cs : List Capability} {t u : Descriptor} {c : Capability}

theorem symm (hc : Sharpest cs t u c) : Sharpest cs u t c :=
  ⟨hc.mem, hc.right, hc.left, fun d hd hdu hdt => hc.under d hd hdt hdu⟩

/-- What a supertype lists is shared, so it lists the sharpest shared capabilities itself. -/
theorem mem_of_generalizes (hc : Sharpest cs t u c) (ht : t.capabilities ⊆ cs)
    (htm : t.isMissing = false) (htu : t.generalizes u = true) : c ∈ t.capabilities := by
  obtain ⟨d, hd, hcd⟩ := (supports_iff htm).mp hc.left
  have heq := hc.under d (ht hd) (supports_of_mem hd) (generalizes_iff.mp htu d hd) hcd
  exact heq ▸ hd

end Sharpest

variable {cs : List Capability} (hcs : Hierarchy cs)
include hcs

/-- Going down from a shared capability ends, because what extends another capability is larger. -/
theorem exists_sharpest {t u : Descriptor} {c : Capability} (hc : c ∈ cs)
    (hct : t.supports c = true) (hcu : u.supports c = true) :
    ∃ d, Sharpest cs t u d ∧ c.covers d = true := by
  let shared := (cs.filter fun d => t.supports d && u.supports d && c.covers d).toFinset
  have hmem : ∀ d, d ∈ shared ↔
      d ∈ cs ∧ t.supports d = true ∧ u.supports d = true ∧ c.covers d = true := by
    intro d
    simp [shared, and_assoc]
  have hne : shared.Nonempty := ⟨c, (hmem c).mpr ⟨hc, hct, hcu, c.covers_self⟩⟩
  obtain ⟨d, hd, hmax⟩ := shared.exists_max_image sizeOf hne
  obtain ⟨hdcs, hdt, hdu, hcd⟩ := (hmem d).mp hd
  refine ⟨d, ⟨hdcs, hdt, hdu, ?_⟩, hcd⟩
  intro e he het heu hde
  have hce := hcs.covers_trans hdcs he hcd hde
  have hle := hmax e ((hmem e).mpr ⟨he, het, heu, hce⟩)
  rcases ((hcs.covers_iff_under hdcs he).mp hde).eq_or_sizeOf_lt with heq | hlt
  · exact heq
  · exact absurd hlt hle.not_gt

/-! ## What the merge keeps -/

variable {t u : Descriptor} (ht : t.capabilities ⊆ cs) (hu : u.capabilities ⊆ cs)
include ht hu

theorem supports_intersection_iff :
    (∀ c ∈ cs, t.supports c = true → u.supports c = true →
        (t.intersection u).supports c = true) ↔
      ∀ c, Sharpest cs t u c → c ∈ t.capabilities ∧ c ∈ u.capabilities := by
  constructor
  · intro hkeeps c hc
    obtain ⟨d, hd, hcd⟩ := (supports_iff rfl).mp (hkeeps c hc.mem hc.left hc.right)
    obtain ⟨hdt, hlisted⟩ := mem_of_mem_intersection hd
    have hdu : d ∈ u.capabilities := (hcs.isListed_iff_mem (ht hdt) hu).mp hlisted
    have heq := hc.under d (ht hdt) (supports_of_mem hdt) (supports_of_mem hdu) hcd
    exact heq ▸ ⟨hdt, hdu⟩
  · intro hsharpest c hc hct hcu
    obtain ⟨d, hd, hcd⟩ := exists_sharpest hcs hc hct hcu
    obtain ⟨hdt, hdu⟩ := hsharpest d hd
    have hboth : d ∈ (t.intersection u).capabilities :=
      List.mem_filter.mpr ⟨hdt, Capability.isListed_of_mem hdu⟩
    exact (supports_iff rfl).mpr ⟨d, hboth, hcd⟩

theorem supports_merge_iff (htm : t.isMissing = false) (hum : u.isMissing = false) :
    (∀ c ∈ cs, t.supports c = true → u.supports c = true → (t.merge u).supports c = true) ↔
      KeepsShared cs t u := by
  cases mergeCase htm hum with
  | left hle _ heq =>
      rw [heq]
      exact ⟨fun _ => Or.inl hle, fun _ _ _ hct _ => hct⟩
  | right _ hle heq =>
      rw [heq]
      exact ⟨fun _ => Or.inr (Or.inl hle), fun _ _ _ _ hcu => hcu⟩
  | intersect hiff _ heq =>
      rw [heq, supports_intersection_iff hcs ht hu]
      constructor
      · exact fun hsharpest => Or.inr (Or.inr hsharpest)
      · -- One side above the other puts both above each other here.
        intro hkeeps c hc
        have hmutual : t.generalizes u = true → u.generalizes t = true →
            c ∈ t.capabilities ∧ c ∈ u.capabilities := by
          intro htu hut
          exact ⟨hc.mem_of_generalizes ht htm htu, hc.symm.mem_of_generalizes hu hum hut⟩
        rcases hkeeps with htu | hut | hsharpest
        · exact hmutual htu (hiff ▸ htu)
        · exact hmutual (hiff.trans hut) hut
        · exact hsharpest c hc

end Descriptor

/-! ## Over a catalog -/

namespace Catalog

open Descriptor (KeepsShared)

variable {c : Catalog}

/-- Below every described common supertype is to keep every registered shared capability, because
a single capability is described too. -/
theorem generalizes_merge_iff (hc : c.WellFormed) {t u : Descriptor} :
    (∀ v, c.Describes v → v.isMissing = false → v.generalizes t = true →
        v.generalizes u = true → v.generalizes (t.merge u) = true) ↔
      ∀ cap ∈ c.capabilities, t.supports cap = true → u.supports cap = true →
        (t.merge u).supports cap = true := by
  constructor
  · intro hbelow cap hcap hcapt hcapu
    have hsingle : ∀ w : Descriptor, w.supports cap = true →
        (Descriptor.unbound [cap] false).generalizes w = true := by
      intro w hw
      rw [Descriptor.generalizes_iff]
      exact List.forall_mem_singleton.mpr hw
    have hmerge := hbelow _ (Describes.single hcap) rfl (hsingle t hcapt) (hsingle u hcapu)
    exact Descriptor.generalizes_iff.mp hmerge cap List.mem_cons_self
  · intro hkeeps v hv _ hvt hvu
    rw [Descriptor.generalizes_iff] at hvt hvu ⊢
    intro cap hcap
    exact hkeeps cap (hv.capabilities_subset hc hcap) (hvt cap hcap) (hvu cap hcap)

/-- The merge is a common supertype. It is the most specific one that is described, and keeps every
capability that both can be read through, exactly if the sharpest shared capabilities are listed. -/
theorem merge_most_specific_iff (hc : c.Built) {t u : Descriptor} (ht : c.Describes t)
    (hu : c.Describes u) (htm : t.isMissing = false) (hum : u.isMissing = false) :
    (t.merge u).generalizes t = true ∧ (t.merge u).generalizes u = true ∧
      ((∀ v, c.Describes v → v.isMissing = false → v.generalizes t = true →
          v.generalizes u = true → v.generalizes (t.merge u) = true) ↔
        KeepsShared c.capabilities t u) ∧
      ((∀ cap, t.supports cap = true → u.supports cap = true →
          (t.merge u).supports cap = true) ↔ KeepsShared c.capabilities t u) := by
  have hwf := hc.wellFormed
  have htc := ht.capabilities_subset hwf
  have huc := hu.capabilities_subset hwf
  have hregistered := Descriptor.supports_merge_iff hwf.hierarchy htc huc htm hum
  refine ⟨Descriptor.merge_generalizes_left htm hum, Descriptor.merge_generalizes_right htm hum,
    (generalizes_merge_iff hwf).trans hregistered, ?_⟩
  rw [← hregistered]
  constructor
  · exact fun hkeeps cap _ => hkeeps cap
  · intro hkeeps cap hcapt hcapu
    obtain ⟨d, hd, hname⟩ := Descriptor.exists_mem_of_supports hwf.hierarchy htc htm hcapt
    rw [Descriptor.supports_eq_of_name_eq hname] at hcapt hcapu ⊢
    exact hkeeps d hd hcapt hcapu

theorem merge_most_specific_comparable_flag :
    builtin.Describes (Descriptor.unbound [.comparable] false) ∧
      builtin.Describes (Descriptor.ofKind .flag) ∧
      KeepsShared builtin.capabilities (Descriptor.unbound [.comparable] false)
        (Descriptor.ofKind .flag) ∧
      ∀ cap, (Descriptor.unbound [.comparable] false).supports cap = true →
        (Descriptor.ofKind .flag).supports cap = true →
        ((Descriptor.unbound [.comparable] false).merge (Descriptor.ofKind .flag)).supports cap =
          true := by
  have hcomparable : builtin.Describes (Descriptor.unbound [.comparable] false) :=
    Describes.single (by decide)
  have hflag : builtin.Describes (Descriptor.ofKind .flag) := Describes.ofKind (by decide)
  have hkeeps : KeepsShared builtin.capabilities (Descriptor.unbound [.comparable] false)
      (Descriptor.ofKind .flag) := Or.inl (by decide)
  have hmerge := merge_most_specific_iff Built.builtin hcomparable hflag rfl rfl
  exact ⟨hcomparable, hflag, hkeeps, hmerge.2.2.2.mpr hkeeps⟩

/-- Both can be compared, the first because `Logical` extends `Comparable`, the second because it
lists `Comparable`. -/
theorem merge_logical_whole_loses_comparable :
    builtin.Built ∧ builtin.Describes (Descriptor.unbound [.logical] false) ∧
      builtin.Describes (Descriptor.ofKind .whole) ∧
      builtin.Describes (Descriptor.unbound [.comparable] false) ∧
      (Descriptor.unbound [.logical] false).isMissing = false ∧
      (Descriptor.ofKind .whole).isMissing = false ∧
      (Descriptor.unbound [.comparable] false).isMissing = false ∧
      (Descriptor.unbound [.comparable] false).generalizes (Descriptor.unbound [.logical] false) =
        true ∧
      (Descriptor.unbound [.comparable] false).generalizes (Descriptor.ofKind .whole) = true ∧
      (Descriptor.unbound [.comparable] false).generalizes
        ((Descriptor.unbound [.logical] false).merge (Descriptor.ofKind .whole)) = false :=
  ⟨Built.builtin, Describes.single (by decide), Describes.ofKind (by decide),
    Describes.single (by decide), rfl, rfl, rfl, by decide, by decide, by decide⟩

end Catalog

end ColumnTypes
