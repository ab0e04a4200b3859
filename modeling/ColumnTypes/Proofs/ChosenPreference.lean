import ColumnTypes.Proofs.Supertypes

namespace ColumnTypes

/-!
# Choosing the preferred capability

A choice puts one capability of a descriptor in front of the others and drops the
binding. The capabilities stay the same, so the next choice overrides it. Merging
two choices changes the capabilities no more than that, and only if both choices
are the same is there a preference left.
-/

namespace Descriptor

open Capability (Hierarchy names)

/-! ## Moving to the front -/

/-- A name stands for one place in the list, so what is left are the parts around that place. -/
theorem filter_name_ne {before after : List Capability} {c : Capability}
    (h : (names (before ++ c :: after)).Nodup) :
    (before ++ c :: after).filter (fun d => d.name != c.name) = before ++ after := by
  have hnew : c.name ∉ names (before ++ after) := by
    rw [names, List.map_append, List.map_cons, List.nodup_middle, List.nodup_cons] at h
    rw [names, List.map_append]
    exact h.1
  have hkept : ∀ d ∈ before ++ after, (d.name != c.name) = true := by
    intro d hd
    rw [bne_iff_ne]
    exact fun heq => hnew (heq ▸ List.mem_map_of_mem hd)
  obtain ⟨hbefore, hafter⟩ := List.forall_mem_append.mp hkept
  rw [List.filter_append, List.filter_cons_of_neg (by simp), List.filter_eq_self.mpr hbefore,
    List.filter_eq_self.mpr hafter]

theorem Over.exists_preferring_iff {cs : List Capability} (hcs : Hierarchy cs) {t : Descriptor}
    (ht : t.Over cs) {c : Capability} (hc : c ∈ cs) :
    (∃ u, t.preferring c = .ok u) ↔ c ∈ t.capabilities := by
  simp only [preferring_eq_ok_iff, exists_and_left, exists_eq, and_true]
  exact hcs.isListed_iff_mem hc ht.subset

theorem preferring_eq_ok_iff_split {cs : List Capability} (hcs : Hierarchy cs) {t u : Descriptor}
    (ht : t.Over cs) {c : Capability} (hc : c ∈ cs) :
    t.preferring c = .ok u ↔ ∃ before after, t.capabilities = before ++ c :: after ∧
      u = unbound (c :: (before ++ after)) true := by
  rw [preferring_eq_ok_iff, hcs.isListed_iff_mem hc ht.subset, List.mem_iff_append]
  constructor
  · rintro ⟨⟨before, after, heq⟩, rfl⟩
    refine ⟨before, after, heq, ?_⟩
    rw [heq, filter_name_ne (heq ▸ ht.shaped.nodup_names)]
  · rintro ⟨before, after, heq, rfl⟩
    refine ⟨⟨before, after, heq⟩, ?_⟩
    rw [heq, filter_name_ne (heq ▸ ht.shaped.nodup_names)]

/-! ## Descriptors that list the same -/

theorem agrees_of_perm {t u : Descriptor} (ht : t.WellShaped) (hu : u.WellShaped)
    (hperm : t.capabilities.Perm u.capabilities)
    (hpreferred : t.preferredName? = u.preferredName?) : t.agrees u = true :=
  (agrees_iff ht hu).mpr ⟨hpreferred, fun _ => (hperm.map Capability.name).mem_iff⟩

/-- Each of two descriptors that list the same is above the other, so agreement decides. -/
theorem merge_of_perm {t u : Descriptor} (htm : t.isMissing = false) (hum : u.isMissing = false)
    (hperm : t.capabilities.Perm u.capabilities) :
    t.merge u = if t.agrees u then t else t.intersection u := by
  have htu : t.generalizes u = true := generalizes_of_subset hperm.subset
  have hut : u.generalizes t = true := generalizes_of_subset hperm.symm.subset
  simp [merge, htm, hum, htu, hut]

/-- Nothing is left out of their intersection. -/
theorem capabilities_merge_of_perm {t u : Descriptor} (htm : t.isMissing = false)
    (hum : u.isMissing = false) (hperm : t.capabilities.Perm u.capabilities) :
    (t.merge u).capabilities = t.capabilities := by
  rw [merge_of_perm htm hum hperm]
  split
  · rfl
  · exact List.filter_eq_self.mpr fun c hc => Capability.isListed_of_mem (hperm.subset hc)

theorem preferred?_merge_of_perm {t u : Descriptor} (ht : t.WellShaped) (hu : u.WellShaped)
    (htm : t.isMissing = false) (hum : u.isMissing = false)
    (hperm : t.capabilities.Perm u.capabilities) :
    (t.merge u).preferred? =
      if t.preferredName? = u.preferredName? then t.preferred? else none := by
  rw [merge_of_perm htm hum hperm]
  split
  · rename_i hagree
    rw [if_pos ((agrees_iff ht hu).mp hagree).1]
  · exact preferred?_intersection t u

/-! ## Choices -/

/-- The descriptor lists what `t` lists, is bound to nothing and prefers `c`. -/
structure ChoiceOf (t : Descriptor) (c : Capability) (u : Descriptor) : Prop where
  shaped : u.WellShaped
  unbound : u.isBound = false
  preferred : u.preferred? = some c
  perm : u.capabilities.Perm t.capabilities

theorem Over.choiceOf {cs : List Capability} (hcs : Hierarchy cs) {t u : Descriptor}
    (ht : t.Over cs) {c : Capability} (hc : c ∈ cs) (h : t.preferring c = .ok u) :
    ChoiceOf t c u where
  shaped := wellShaped_preferring ht.shaped h
  unbound := by
    obtain ⟨-, rfl⟩ := preferring_eq_ok_iff.mp h
    rfl
  preferred := preferred?_preferring h
  perm := by
    obtain ⟨before, after, heq, rfl⟩ := (preferring_eq_ok_iff_split hcs ht hc).mp h
    rw [heq]
    exact List.perm_middle.symm

namespace ChoiceOf

variable {t u v : Descriptor} {a b : Capability}

theorem present (hu : ChoiceOf t a u) : u.isMissing = false := by
  cases hm : u.isMissing with
  | false => rfl
  | true =>
      have hbound := hu.unbound
      rw [hu.shaped.missing_unique hm] at hbound
      cases hbound

theorem preferredName (hu : ChoiceOf t a u) : u.preferredName? = some a.name := by
  rw [preferredName?, hu.preferred]
  rfl

theorem trans (hu : ChoiceOf t a u) (hv : ChoiceOf u b v) : ChoiceOf t b v where
  shaped := hv.shaped
  unbound := hv.unbound
  preferred := hv.preferred
  perm := hv.perm.trans hu.perm

theorem agrees (hu : ChoiceOf t a u) (hv : ChoiceOf t a v) : u.agrees v = true :=
  agrees_of_perm hu.shaped hv.shaped (hu.perm.trans hv.perm.symm)
    (hu.preferredName.trans hv.preferredName.symm)

theorem mem_merge_iff (hu : ChoiceOf t a u) (hv : ChoiceOf t b v) (x : Capability) :
    x ∈ (u.merge v).capabilities ↔ x ∈ t.capabilities := by
  rw [capabilities_merge_of_perm hu.present hv.present (hu.perm.trans hv.perm.symm)]
  exact hu.perm.mem_iff

theorem preferred?_merge (hu : ChoiceOf t a u) (hv : ChoiceOf t b v) :
    (u.merge v).preferred? = if a.name = b.name then some a else none := by
  rw [preferred?_merge_of_perm hu.shaped hv.shaped hu.present hv.present
    (hu.perm.trans hv.perm.symm), hu.preferredName, hv.preferredName, hu.preferred]
  simp only [Option.some.injEq]

end ChoiceOf

end Descriptor

/-! ## Over a catalog -/

namespace Catalog

open Descriptor (Over)

variable {c : Catalog}

/-- Any listed capability can be chosen, and no other one. The choice goes to the front, the others
stay in order, and the result and the descriptor are above each other. A second choice overrides the
first, and two choices merge to the same capabilities without a preference, unless they are one. -/
theorem preferring_keeps_capabilities (hc : c.Built) {t : Descriptor} (ht : t.Over c.capabilities)
    {a b : Capability} (ha : a ∈ c.capabilities) (hb : b ∈ c.capabilities) :
    ((∃ u, t.preferring a = .ok u) ↔ a ∈ t.capabilities) ∧
      (t.isMissing = true → ∀ u, t.preferring a ≠ .ok u) ∧
      (∀ u, t.preferring a = .ok u →
        u.isBound = false ∧ u.preferred? = some a ∧
          (∃ before after, t.capabilities = before ++ a :: after ∧
            u.capabilities = a :: (before ++ after)) ∧
          u.generalizes t = true ∧ t.generalizes u = true) ∧
      (a ∈ t.capabilities → b ∈ t.capabilities →
        ∃ u v w, t.preferring a = .ok u ∧ t.preferring b = .ok v ∧ u.preferring b = .ok w ∧
          w.agrees v = true ∧
          (∀ x, x ∈ (u.merge v).capabilities ↔ x ∈ t.capabilities) ∧
          (u.merge v).preferred? = if a = b then some a else none) := by
  have hcs := hc.wellFormed.hierarchy
  refine ⟨ht.exists_preferring_iff hcs ha, ?_, ?_, ?_⟩
  · intro htm u hu
    have hmem := (ht.exists_preferring_iff hcs ha).mp ⟨u, hu⟩
    rw [ht.shaped.missing_unique htm] at hmem
    cases hmem
  · intro u hu
    have hchoice := ht.choiceOf hcs ha hu
    obtain ⟨before, after, heq, rfl⟩ := (Descriptor.preferring_eq_ok_iff_split hcs ht ha).mp hu
    exact ⟨hchoice.unbound, hchoice.preferred, ⟨before, after, heq, rfl⟩,
      Descriptor.generalizes_of_subset hchoice.perm.subset,
      Descriptor.generalizes_of_subset hchoice.perm.symm.subset⟩
  · intro hat hbt
    obtain ⟨u, hu⟩ := (ht.exists_preferring_iff hcs ha).mpr hat
    obtain ⟨v, hv⟩ := (ht.exists_preferring_iff hcs hb).mpr hbt
    have hua := ht.choiceOf hcs ha hu
    have hvb := ht.choiceOf hcs hb hv
    have hover : u.Over c.capabilities := ⟨hua.shaped, fun x hx => ht.subset (hua.perm.subset hx)⟩
    obtain ⟨w, hw⟩ := (hover.exists_preferring_iff hcs hb).mpr (hua.perm.symm.subset hbt)
    have hwb := hua.trans (hover.choiceOf hcs hb hw)
    have hsame : a.name = b.name ↔ a = b :=
      ⟨hcs.eq_of_name_eq ha hb, congrArg Capability.name⟩
    refine ⟨u, v, w, hu, hv, hw, hwb.agrees hvb, hua.mem_merge_iff hvb, ?_⟩
    rw [hua.preferred?_merge hvb]
    simp only [hsame]

def threeViews : Descriptor := .unbound [.numeric, .comparable, .logical] true

/-- The two choices leave the numeric view in different places, and merge without a preference. -/
theorem preferring_keeps_capabilities_threeViews :
    threeViews.Over builtin.capabilities ∧
      Capability.logical ∈ builtin.capabilities ∧ Capability.comparable ∈ builtin.capabilities ∧
      threeViews.preferring .logical = .ok (.unbound [.logical, .numeric, .comparable] true) ∧
      threeViews.preferring .comparable = .ok (.unbound [.comparable, .numeric, .logical] true) ∧
      (∃ w, (Descriptor.unbound [.logical, .numeric, .comparable] true).preferring .comparable =
          .ok w ∧ w.agrees (.unbound [.comparable, .numeric, .logical] true) = true) ∧
      ((Descriptor.unbound [.logical, .numeric, .comparable] true).merge
        (.unbound [.comparable, .numeric, .logical] true)).preferred? = none := by
  have hover : threeViews.Over builtin.capabilities :=
    ⟨⟨by decide, nofun, nofun⟩, by decide⟩
  have hlogical : Capability.logical ∈ builtin.capabilities := by decide
  have hcomparable : Capability.comparable ∈ builtin.capabilities := by decide
  have hfirst : threeViews.preferring .logical =
      .ok (.unbound [.logical, .numeric, .comparable] true) := rfl
  have hsecond : threeViews.preferring .comparable =
      .ok (.unbound [.comparable, .numeric, .logical] true) := rfl
  obtain ⟨-, -, -, hboth⟩ :=
    preferring_keeps_capabilities Built.builtin hover hlogical hcomparable
  obtain ⟨u, v, w, hu, hv, hw, hagree, -, hpreferred⟩ := hboth (by decide) (by decide)
  obtain rfl := Except.ok.inj (hfirst.symm.trans hu)
  obtain rfl := Except.ok.inj (hsecond.symm.trans hv)
  exact ⟨hover, hlogical, hcomparable, hfirst, hsecond, ⟨w, hw, hagree⟩, hpreferred⟩

end Catalog

end ColumnTypes
