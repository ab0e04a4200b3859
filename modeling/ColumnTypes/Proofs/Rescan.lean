import ColumnTypes.Proofs.Columns

namespace ColumnTypes

/-!
# Scanning a column again

The merge is not associative, so that a value which was merged before changes
nothing more needs an invariant: the merge stays above everything it has taken
in, and as long as it is not strictly above, it lists and prefers no more.
-/

namespace Descriptor

open Capability (Hierarchy names)

/-- The descriptor `v` is above `t`. If it reaches as much, all it lists is listed by `t`, and its
preference was dropped or is that of `t`. -/
structure TakenIn (t v : Descriptor) : Prop where
  generalizes : v.generalizes t = true
  mutual_case : t.generalizes v = true → names v.capabilities ⊆ names t.capabilities ∧
    (v.preferredName? = none ∨ v.preferredName? = t.preferredName?)

namespace TakenIn

theorem refl (t : Descriptor) : TakenIn t t where
  generalizes := generalizes_refl t
  mutual_case _ := ⟨List.Subset.refl _, Or.inr rfl⟩

/-- Where the other side wins, it is strictly above what was taken in. -/
theorem merge {cs : List Capability} (hcs : Hierarchy cs) {t u v : Descriptor} (h : TakenIn t v)
    (htm : t.isMissing = false) (hvm : v.isMissing = false) (hum : u.isMissing = false)
    (ht : t.capabilities ⊆ cs) (hv : v.capabilities ⊆ cs) (hu : u.capabilities ⊆ cs) :
    TakenIn t (v.merge u) := by
  cases mergeCase hvm hum with
  | left _ _ heq =>
      rw [heq]
      exact h
  | right hnot hle heq =>
      rw [heq]
      refine ⟨generalizes_trans hcs hv ht hvm hle h.generalizes, ?_⟩
      intro htu
      have hvu := generalizes_trans hcs ht hu htm h.generalizes htu
      exact absurd (hnot.symm.trans hvu) Bool.false_ne_true
  | intersect _ _ heq =>
      have hboth : (v.intersection u).generalizes v = true :=
        generalizes_of_subset fun c hc => (mem_of_mem_intersection hc).1
      have hsub : (v.intersection u).capabilities ⊆ cs :=
        fun c hc => hv (mem_of_mem_intersection hc).1
      rw [heq]
      refine ⟨generalizes_trans hcs hv ht hvm hboth h.generalizes, ?_⟩
      intro htvu
      have htv := generalizes_trans hcs hsub hv rfl htvu hboth
      obtain ⟨hnames, hpreferred⟩ := h.mutual_case htv
      constructor
      · intro n hn
        exact hnames ((names_intersection v u n).mp hn).1
      · rw [preferredName?_intersection]
        split
        · exact hpreferred
        · exact Or.inl rfl

theorem merge_right {u v : Descriptor} (hv : v.WellShaped) (hu : u.WellShaped)
    (hvm : v.isMissing = false) (hum : u.isMissing = false) : TakenIn u (v.merge u) := by
  refine ⟨merge_generalizes_right hvm hum, ?_⟩
  cases mergeCase hvm hum with
  | left _ hstop heq =>
      rw [heq]
      intro huv
      have hagree := hstop.resolve_left fun hnot => Bool.false_ne_true (hnot.symm.trans huv)
      obtain ⟨hpreferred, hnames⟩ := (agrees_iff hv hu).mp hagree
      exact ⟨fun n hn => (hnames n).mp hn, Or.inr hpreferred⟩
  | right _ _ heq =>
      rw [heq]
      exact (refl u).mutual_case
  | intersect _ _ heq =>
      rw [heq]
      intro _
      refine ⟨fun n hn => ((names_intersection v u n).mp hn).2, ?_⟩
      rw [preferredName?_intersection]
      split
      · rename_i hpreferred
        exact Or.inr hpreferred
      · exact Or.inl rfl

/-- What was taken in changes nothing more: even if the two lists are intersected, they have the
names of the merge in common and the preference that was left. -/
theorem agrees_merge {t v : Descriptor} (h : TakenIn t v) (hv : v.WellShaped)
    (htm : t.isMissing = false) (hvm : v.isMissing = false) : (v.merge t).agrees v = true := by
  cases mergeCase hvm htm with
  | left _ _ heq =>
      rw [heq]
      exact agrees_refl v
  | right hnot _ _ => exact absurd (hnot.symm.trans h.generalizes) Bool.false_ne_true
  | intersect hiff _ heq =>
      obtain ⟨hnames, hpreferred⟩ := h.mutual_case (hiff ▸ h.generalizes)
      rw [heq, agrees_iff (wellShaped_intersection hv t) hv]
      constructor
      · rw [preferredName?_intersection]
        rcases hpreferred with hnone | hsame
        · rw [hnone]
          exact ite_self none
        · rw [if_pos hsame]
      · intro n
        rw [names_intersection]
        exact ⟨And.left, fun hn => ⟨hn, hnames hn⟩⟩

end TakenIn

/-! ## Along the fold -/

/-- A descriptor over the capabilities, missing or not, closed under parents or not. -/
structure Over (cs : List Capability) (t : Descriptor) : Prop where
  shaped : t.WellShaped
  subset : t.capabilities ⊆ cs

theorem Over.merge {cs : List Capability} {t u : Descriptor} (ht : t.Over cs) (hu : u.Over cs) :
    (t.merge u).Over cs where
  shaped := wellShaped_merge ht.shaped hu.shaped
  subset := capabilities_merge_subset ht.subset hu.subset

theorem over_mergeAll {cs : List Capability} {ts : List Descriptor} (hts : ∀ t ∈ ts, t.Over cs) :
    (mergeAll ts).Over cs := by
  induction ts using List.reverseRecOn with
  | nil => exact ⟨wellShaped_missing, List.nil_subset cs⟩
  | append_singleton ts t ih =>
      obtain ⟨hts, ht⟩ := List.forall_mem_append.mp hts
      rw [mergeAll_concat]
      exact (ih hts).merge (ht t List.mem_cons_self)

variable {cs : List Capability} (hcs : Hierarchy cs)
include hcs

/-- Each step keeps what was taken in before and takes in one more descriptor. -/
theorem takenIn_mergeAll {ts : List Descriptor} (hts : ∀ t ∈ ts, t.Over cs) :
    ∀ t ∈ ts, t.isMissing = false → (mergeAll ts).isMissing = false ∧ TakenIn t (mergeAll ts) := by
  induction ts using List.reverseRecOn with
  | nil => exact nofun
  | append_singleton ts u ih =>
      obtain ⟨hts, hu⟩ := List.forall_mem_append.mp hts
      have hu := hu u List.mem_cons_self
      have hacc := over_mergeAll hts
      rw [mergeAll_concat]
      intro t ht htm
      rcases List.mem_append.mp ht with ht | ht
      · obtain ⟨haccm, htaken⟩ := ih hts t ht htm
        cases hum : u.isMissing with
        | true =>
            rw [merge_of_isMissing_right haccm hum]
            exact ⟨haccm, htaken⟩
        | false =>
            exact ⟨isMissing_merge haccm hum,
              htaken.merge hcs htm haccm hum (hts t ht).subset hacc.subset hu.subset⟩
      · obtain rfl := List.mem_singleton.mp ht
        cases haccm : (mergeAll ts).isMissing with
        | true =>
            rw [merge_of_isMissing_left haccm]
            exact ⟨htm, TakenIn.refl t⟩
        | false =>
            exact ⟨isMissing_merge haccm htm,
              TakenIn.merge_right hacc.shaped hu.shaped haccm htm⟩

theorem agrees_mergeAll_merge {ts : List Descriptor} (hts : ∀ t ∈ ts, t.Over cs)
    {t : Descriptor} (ht : t ∈ ts) : ((mergeAll ts).merge t).agrees (mergeAll ts) = true := by
  have hacc := over_mergeAll hts
  cases htm : t.isMissing with
  | true =>
      rw [(hts t ht).shaped.missing_unique htm, merge_missing hacc.shaped]
      exact agrees_refl _
  | false =>
      obtain ⟨haccm, htaken⟩ := takenIn_mergeAll hcs hts t ht htm
      exact htaken.agrees_merge hacc.shaped htm haccm

/-- The merge may be replaced by one that only agrees with it, so the next repeated descriptor is
seen as repeated in the longer list. -/
theorem agrees_mergeAll_append {ts us : List Descriptor} (hts : ∀ t ∈ ts, t.Over cs)
    (hus : us ⊆ ts) : (mergeAll (ts ++ us)).agrees (mergeAll ts) = true := by
  induction us using List.reverseRecOn with
  | nil =>
      rw [List.append_nil]
      exact agrees_refl _
  | append_singleton us u ih =>
      obtain ⟨hus, hu⟩ := List.append_subset.mp hus
      have hlong : ∀ t ∈ ts ++ us, t.Over cs :=
        List.forall_mem_append.mpr ⟨hts, fun t ht => hts t (hus ht)⟩
      have hmem : u ∈ ts ++ us := List.mem_append_left us (hu List.mem_cons_self)
      have hstep := agrees_mergeAll_merge hcs hlong hmem
      rw [← List.append_assoc, mergeAll_concat]
      exact agrees_trans ((over_mergeAll hlong).merge (hlong u hmem)).shaped
        (over_mergeAll hlong).shaped (over_mergeAll hts).shaped hstep (ih hus)

end Descriptor

namespace Catalog

open Descriptor (mergeAll)

variable {c : Catalog}

theorem Describes.over (hc : c.WellFormed) {t : Descriptor} (ht : c.Describes t) :
    t.Over c.capabilities where
  shaped := ht.constructible.wellShaped
  subset := ht.capabilities_subset hc

/-- Whatever descriptors over one catalog a column was typed from, seeing any of them again, and in
any number, leaves its type as it is. -/
theorem rescan_agrees (hc : c.Built) {ts : List Descriptor} (hts : ∀ t ∈ ts, c.Describes t) :
    (∀ t ∈ ts, ((mergeAll ts).merge t).agrees (mergeAll ts) = true) ∧
      ∀ us : List Descriptor, us ⊆ ts → (mergeAll (ts ++ us)).agrees (mergeAll ts) = true := by
  have hwf := hc.wellFormed
  have hover : ∀ t ∈ ts, t.Over c.capabilities := fun t ht => (hts t ht).over hwf
  exact ⟨fun _ => Descriptor.agrees_mergeAll_merge hwf.hierarchy hover,
    fun _ => Descriptor.agrees_mergeAll_append hwf.hierarchy hover⟩

/-- The two lists reach the same capabilities, so they are intersected and the preference is lost.
Neither of them brings it back. -/
theorem rescan_agrees_logical :
    builtin.Built ∧
      (∀ t ∈ [Descriptor.unbound [.logical, .comparable] true, Descriptor.unbound [.logical] false],
        builtin.Describes t) ∧
      mergeAll [Descriptor.unbound [.logical, .comparable] true,
        Descriptor.unbound [.logical] false] = Descriptor.unbound [.logical] false ∧
      ((Descriptor.unbound [.logical] false).merge
        (Descriptor.unbound [.logical, .comparable] true)).agrees
          (Descriptor.unbound [.logical] false) = true := by
  have hlist : Descriptor.ofList true [.logical, .comparable] =
      .ok (Descriptor.unbound [.logical, .comparable] true) := rfl
  have hmem : ∀ cap ∈ [Capability.logical, .comparable], cap ∈ builtin.capabilities := by decide
  have hts : ∀ t ∈ [Descriptor.unbound [.logical, .comparable] true,
      Descriptor.unbound [.logical] false], builtin.Describes t :=
    List.forall_mem_cons.mpr ⟨Descriptor.Obtainable.ofList hmem hlist,
      List.forall_mem_singleton.mpr (Describes.single (by decide))⟩
  have hmerge : mergeAll [Descriptor.unbound [.logical, .comparable] true,
      Descriptor.unbound [.logical] false] = Descriptor.unbound [.logical] false := by decide
  have hagain := (rescan_agrees Built.builtin hts).1 _ List.mem_cons_self
  rw [hmerge] at hagain
  exact ⟨Built.builtin, hts, hmerge, hagain⟩

end Catalog

end ColumnTypes
