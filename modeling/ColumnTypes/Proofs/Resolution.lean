import ColumnTypes.Proofs.Closure
import ColumnTypes.Proofs.Declared
import ColumnTypes.Proofs.Results

namespace ColumnTypes

/-!
# What resolution registers

Resolving a name adds capabilities, or kinds, behind the registered ones. Each
new one is as one of the declarations still available says, and the parents of a
new one stand before it.
-/

/-! ## Growing lists -/

/-- The list `after` has grown out of `before` by new entries of the given sort, and it is as good
as `before` was. -/
structure Grown {α : Type} (Good : List α → Prop) (Entry : α → Prop) (before after : List α) :
    Prop where
  kept : before <+: after
  good : Good before → Good after
  new_entry : ∀ x ∈ after, x ∈ before ∨ Entry x

namespace Grown

variable {α : Type} {Good : List α → Prop} {Entry : α → Prop} {before mid after : List α}

theorem refl (Entry : α → Prop) (xs : List α) : Grown Good Entry xs xs where
  kept := List.prefix_refl xs
  good := id
  new_entry _ hx := Or.inl hx

theorem trans (hmid : Grown Good Entry before mid) (hafter : Grown Good Entry mid after) :
    Grown Good Entry before after where
  kept := hmid.kept.trans hafter.kept
  good h := hafter.good (hmid.good h)
  new_entry := by
    intro x hx
    rcases hafter.new_entry x hx with hx | hx
    · exact hmid.new_entry x hx
    · exact Or.inr hx

theorem mem (h : Grown Good Entry before after) {x : α} (hx : x ∈ before) : x ∈ after :=
  h.kept.subset hx

theorem mono {Entry' : α → Prop} (hsub : ∀ x, Entry x → Entry' x)
    (h : Grown Good Entry before after) : Grown Good Entry' before after where
  kept := h.kept
  good := h.good
  new_entry x hx := (h.new_entry x hx).imp_right (hsub x)

theorem concat (h : Grown Good Entry before mid) {x : α} (hx : Entry x)
    (hgood : Good mid → Good (mid ++ [x])) : Grown Good Entry before (mid ++ [x]) where
  kept := h.kept.trans (List.prefix_append mid [x])
  good hbefore := hgood (h.good hbefore)
  new_entry := by
    intro y hy
    rcases List.mem_append.mp hy with hy | hy
    · exact h.new_entry y hy
    · exact Or.inr (List.mem_singleton.mp hy ▸ hx)

theorem notMem_names (h : Grown Good Entry before after) {name : α → String} {n : String}
    (hbefore : n ∉ before.map name) (hentry : ∀ x, Entry x → name x ≠ n) :
    n ∉ after.map name := by
  rw [List.mem_map]
  rintro ⟨x, hx, rfl⟩
  rcases h.new_entry x hx with hx | hx
  · exact hbefore (List.mem_map_of_mem hx)
  · exact hentry x hx rfl

end Grown

/-! ## Lookup -/

/-- Where names are unique, the first entry of a name is the entry of that name. -/
theorem Named.find?_eq_some_iff {α : Type} {name : α → String} {xs : List α}
    (hxs : (xs.map name).Nodup) {n : String} {x : α} :
    find? name xs n = some x ↔ x ∈ xs ∧ name x = n := by
  constructor
  · intro h
    exact ⟨mem_of_find? h, name_of_find? h⟩
  · rintro ⟨hx, rfl⟩
    cases hfound : find? name xs (name x) with
    | none => exact absurd (List.mem_map_of_mem hx) (find?_eq_none_iff.mp hfound)
    | some y =>
        rw [List.inj_on_of_nodup_map hxs (mem_of_find? hfound) hx (name_of_find? hfound)]

/-! ## Capabilities -/

namespace Capability

/-- A list that takes up a capability only under a new name holds nothing else besides. -/
theorem mem_or_eq_of_mem_ite {cs : List Capability} {c d : Capability}
    (h : c ∈ if d.isListed cs then cs else cs ++ [d]) : c ∈ cs ∨ c = d := by
  split at h
  · exact Or.inl h
  · exact (List.mem_append.mp h).imp_right List.mem_singleton.mp

theorem mem_of_mem_distinct {cs : List Capability} {c : Capability} (h : c ∈ distinct cs) :
    c ∈ cs := by
  have hfold : ∀ acc : List Capability,
      c ∈ cs.foldl (fun acc c => if c.isListed acc then acc else acc ++ [c]) acc →
        c ∈ acc ∨ c ∈ cs := by
    clear h
    induction cs with
    | nil => exact fun acc h => Or.inl h
    | cons d ds ih =>
        intro acc h
        rcases ih _ h with hacc | hds
        · rcases mem_or_eq_of_mem_ite hacc with hacc | rfl
          · exact Or.inl hacc
          · exact Or.inr List.mem_cons_self
        · exact Or.inr (List.mem_cons_of_mem d hds)
  exact (hfold [] h).resolve_left List.not_mem_nil

end Capability

namespace CapabilityDeclaration

open Capability (Hierarchy names)

/-- Parents are resolved one after the other, so what holds of each resolution holds of all. The
names that were looked up before are `done`. -/
theorem resolveParents_grown {Entry : Capability → Prop} {known : List String}
    {f : List Capability → String → Except Catalog.Error (Capability × List Capability)}
    (hf : ∀ {registered registered' name c}, f registered name = .ok (c, registered') →
      Grown Hierarchy Entry registered registered' ∧ c ∈ registered' ∧ c.name = name)
    {owner : String} {ps done : List String} {parents parents' registered registered' :
      List Capability}
    (hparents : ∀ p ∈ parents, p ∈ registered) (hdone : names parents = done.eraseDups)
    (h : resolveParents known f owner ps parents registered = .ok (parents', registered')) :
    Grown Hierarchy Entry registered registered' ∧ (∀ p ∈ parents', p ∈ registered') ∧
      names parents' = (done ++ ps).eraseDups := by
  induction ps generalizing parents registered done with
  | nil =>
      rw [resolveParents] at h
      obtain ⟨rfl, rfl⟩ := Prod.mk.inj (Except.ok.inj h)
      exact ⟨Grown.refl Entry registered, hparents, by rw [List.append_nil, hdone]⟩
  | cons p ps ih =>
      rw [resolveParents] at h
      split at h
      · split at h
        · cases h
        · rename_i c mid hc
          obtain ⟨hmid, hcmid, hname⟩ := hf hc
          have hnext : ∀ q ∈ (if c.isListed parents then parents else parents ++ [c]), q ∈ mid := by
            intro q hq
            rcases Capability.mem_or_eq_of_mem_ite hq with hq | rfl
            · exact hmid.mem (hparents q hq)
            · exact hcmid
          have hnames := Capability.names_ite_isListed hdone c
          obtain ⟨hlast, hmem, hall⟩ := ih hnext hnames h
          refine ⟨hmid.trans hlast, hmem, ?_⟩
          rw [hall, hname, List.append_assoc, List.singleton_append]
      · cases h

/-- A capability is registered after its parents and as it was declared. Its name is new, because
it was looked up before and is not available to the parents. -/
theorem resolve_grown {known : List String} {available : List CapabilityDeclaration}
    {registered registered' : List Capability} {name : String} {c : Capability}
    (h : resolve known available registered name = .ok (c, registered')) :
    Grown Hierarchy (EntryOf available) registered registered' ∧ c ∈ registered' ∧
      c.name = name := by
  rw [resolve] at h
  split at h
  · rename_i d hd
    obtain ⟨rfl, rfl⟩ := Prod.mk.inj (Except.ok.inj h)
    exact ⟨Grown.refl _ _, Named.mem_of_find? hd, Named.name_of_find? hd⟩
  · rename_i hnone
    split at h
    · split at h <;> cases h
    · rename_i d hd
      have hlt := Named.length_without_lt hd
      split at h
      · cases h
      · rename_i parents mid hps
        obtain ⟨rfl, rfl⟩ := Prod.mk.inj (Except.ok.inj h)
        obtain rfl := Named.name_of_find? hd
        obtain ⟨hmid, hparents, hnames⟩ := resolveParents_grown resolve_grown (by simp)
          (by rw [List.eraseDups_nil]; rfl) hps
        have hnew : d.name ∉ names mid := by
          apply hmid.notMem_names (Named.find?_eq_none_iff.mp hnone)
          intro x hx heq
          have hmem := hx.name_mem CapabilityDeclaration.name fun _ => rfl
          exact Named.notMem_names_without CapabilityDeclaration.name available d.name (heq ▸ hmem)
        have hdeclared : EntryOf available (Capability.mk d.name d.bundle parents) := by
          refine ⟨d, Named.mem_of_find? hd, ?_⟩
          rw [List.nil_append] at hnames
          rw [effective, ← hnames]
          rfl
        refine ⟨?_, List.mem_append_right mid List.mem_cons_self, rfl⟩
        have hsub := Named.without_subset CapabilityDeclaration.name available d.name
        apply (hmid.mono fun _ => Declared.mono hsub).concat hdeclared
        exact fun hgood => hgood.concat hnew hparents
termination_by available.length

/-- Every declaration is resolved, and nothing is registered but what is declared. -/
theorem resolveAll_grown {known : List String} {ds rest : List CapabilityDeclaration}
    {registered registered' : List Capability}
    (h : resolveAll known ds rest registered = .ok registered') :
    Grown Hierarchy (EntryOf ds) registered registered' ∧
      ∀ d ∈ rest, d.name ∈ names registered' := by
  induction rest generalizing registered with
  | nil =>
      rw [resolveAll] at h
      exact ⟨Except.ok.inj h ▸ Grown.refl _ registered, nofun⟩
  | cons d rest ih =>
      rw [resolveAll] at h
      split at h
      · cases h
      · rename_i c mid hc
        obtain ⟨hmid, hmem, hname⟩ := resolve_grown hc
        obtain ⟨hlast, hall⟩ := ih h
        refine ⟨hmid.trans hlast, List.forall_mem_cons.mpr ⟨?_, hall⟩⟩
        exact hname ▸ List.mem_map_of_mem (hlast.mem hmem)

end CapabilityDeclaration

end ColumnTypes
