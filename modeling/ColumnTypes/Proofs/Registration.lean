import ColumnTypes.Proofs.WellFormed

namespace ColumnTypes

/-!
# Registration

A layer that is accepted registers each of its declarations once, behind what
the base lists, and a catalog built so is coherent: whatever an entry refers to
is the listed entry of its name.
-/

/-- Names are unique, so the new entries are the declarations, each once. -/
theorem Grown.perm_declarations {α δ : Type} {Good : List α → Prop} {form : α → δ}
    {effective : δ → δ} {ds : List δ} {before after : List α}
    (h : Grown Good (Declared form effective ds) before after) (name : δ → String)
    (hname : ∀ d, name (effective d) = name d)
    (hafter : (after.map fun x => name (form x)).Nodup) (hds : (ds.map name).Nodup)
    (hfresh : ∀ d ∈ ds, name d ∉ before.map fun x => name (form x))
    (hall : ∀ d ∈ ds, name d ∈ after.map fun x => name (form x)) :
    ∃ new, after = before ++ new ∧ (new.map form).Perm (ds.map effective) := by
  obtain ⟨new, rfl⟩ := h.kept
  rw [List.map_append, List.nodup_append'] at hafter
  obtain ⟨-, hnew, hdisjoint⟩ := hafter
  have hforms : (new.map form).Nodup := by
    apply List.Nodup.of_map name
    rwa [List.map_map]
  have heffective : (ds.map effective).Nodup := by
    apply List.Nodup.of_map name
    rw [List.map_map]
    exact (List.map_congr_left fun d _ => hname d) ▸ hds
  have hdeclared : ∀ x ∈ new, Declared form effective ds x := by
    intro x hx
    refine (h.new_entry x (List.mem_append_right before hx)).resolve_left fun hbefore => ?_
    exact hdisjoint (List.mem_map_of_mem hbefore) (List.mem_map_of_mem hx)
  refine ⟨new, rfl, (List.perm_ext_iff_of_nodup hforms heffective).mpr fun e => ?_⟩
  simp only [List.mem_map]
  constructor
  · rintro ⟨x, hx, rfl⟩
    obtain ⟨d, hd, heq⟩ := hdeclared x hx
    exact ⟨d, hd, heq.symm⟩
  · rintro ⟨d, hd, rfl⟩
    have hmem := hall d hd
    rw [List.map_append, List.mem_append] at hmem
    obtain ⟨x, hx, hxd⟩ := List.mem_map.mp (hmem.resolve_left (hfresh d hd))
    obtain ⟨d', hd', heq⟩ := hdeclared x hx
    have hsame : name d' = name d := by rw [← hname d', ← heq, hxd]
    obtain rfl := List.inj_on_of_nodup_map hds hd' hd hsame
    exact ⟨x, hx, heq⟩

/-- If each declaration has its entry, the names are those of before and the declared ones. -/
theorem Grown.mem_names_iff {α δ : Type} {Good : List α → Prop} {form : α → δ}
    {effective : δ → δ} {ds : List δ} {before after : List α}
    (h : Grown Good (Declared form effective ds) before after) (name : δ → String)
    (hname : ∀ d, name (effective d) = name d)
    (hall : ∀ d ∈ ds, name d ∈ after.map fun x => name (form x)) {n : String} :
    n ∈ after.map (fun x => name (form x)) ↔
      n ∈ before.map (fun x => name (form x)) ++ ds.map name := by
  rw [List.mem_append]
  constructor
  · intro hn
    obtain ⟨x, hx, rfl⟩ := List.mem_map.mp hn
    rcases h.new_entry x hx with hx | hx
    · exact Or.inl (List.mem_map_of_mem hx)
    · exact Or.inr (hx.name_mem name hname)
  · rintro (hn | hn)
    · exact List.map_subset _ h.kept.subset hn
    · obtain ⟨d, hd, rfl⟩ := List.mem_map.mp hn
      exact hall d hd

namespace Catalog

/-! ## One layer -/

/-- The base is kept, and behind it stands one entry for each declaration, as it was declared:
with its parents in order, each once, and with its preference if that is known. -/
structure Registers (base : Catalog) (layer : Layer) (c : Catalog) : Prop where
  capabilities : ∃ new, c.capabilities = base.capabilities ++ new ∧
    (new.map Capability.declaration).Perm
      (layer.capabilities.map CapabilityDeclaration.effective)
  kinds : ∃ new, c.kinds = base.kinds ++ new ∧
    (new.map Kind.declaration).Perm
      (layer.kinds.map (KindDeclaration.effective (Capability.names c.capabilities)))

theorem Resolved.registers {base c : Catalog} {layer : Layer} (h : Resolved base layer c)
    (hbase : base.WellFormed) : Registers base layer c := by
  have hc := h.wellFormed hbase
  obtain ⟨hcaps, hallCaps⟩ := CapabilityDeclaration.resolveAll_grown h.capabilities_resolved
  obtain ⟨hkinds, hallKinds⟩ := KindDeclaration.resolveAll_grown h.kinds_resolved
  obtain ⟨hcapNames, hcapFresh⟩ := firstTaken?_eq_none_iff.mp h.capability_names
  obtain ⟨hkindNames, hkindFresh⟩ := firstTaken?_eq_none_iff.mp h.kind_names
  exact
    { capabilities := hcaps.perm_declarations CapabilityDeclaration.name (fun _ => rfl)
        hc.hierarchy.nodup_names hcapNames
        (fun d hd => hcapFresh d.name (List.mem_map_of_mem hd)) hallCaps
      kinds := hkinds.perm_declarations KindDeclaration.name (fun _ => rfl)
        hc.lineages.nodup_names hkindNames
        (fun d hd => hkindFresh d.name (List.mem_map_of_mem hd)) hallKinds }

/-! ## Built catalogs -/

/-- A name stands for one listed entry, and what an entry refers to is listed, parents before it. -/
structure Coherent (c : Catalog) : Prop where
  capability_names : (Capability.names c.capabilities).Nodup
  kind_names : (c.kinds.map Kind.name).Nodup
  missing_reserved : missingKind ∉ c.kinds.map Kind.name
  capability?_eq_some_iff : ∀ name cap,
    c.capability? name = some cap ↔ cap ∈ c.capabilities ∧ cap.name = name
  kind?_eq_some_iff : ∀ name k, c.kind? name = some k ↔ k ∈ c.kinds ∧ k.name = name
  parents_before : ∀ before cap after, c.capabilities = before ++ cap :: after →
    ∀ p ∈ cap.parents, p ∈ before ∧ c.capability? p.name = some p
  parent_before : ∀ before k after, c.kinds = before ++ k :: after →
    ∀ p, k.parent? = some p → p ∈ before ∧ c.kind? p.name = some p
  implements_listed : ∀ k ∈ c.kinds, ∀ cap ∈ k.implements, c.capability? cap.name = some cap
  preferred_listed : ∀ k ∈ c.kinds, ∀ cap, k.declaredPreferred = some cap →
    c.capability? cap.name = some cap

namespace WellFormed

variable {c : Catalog} (hc : c.WellFormed)
include hc

theorem capability?_eq_some_iff {name : String} {cap : Capability} :
    c.capability? name = some cap ↔ cap ∈ c.capabilities ∧ cap.name = name :=
  Named.find?_eq_some_iff hc.hierarchy.nodup_names

theorem capability?_name {cap : Capability} (hcap : cap ∈ c.capabilities) :
    c.capability? cap.name = some cap :=
  hc.capability?_eq_some_iff.mpr ⟨hcap, rfl⟩

theorem kind?_name {k : Kind} (hk : k ∈ c.kinds) : c.kind? k.name = some k :=
  hc.kind?_eq_some_iff.mpr ⟨hk, rfl⟩

theorem coherent : c.Coherent where
  capability_names := hc.hierarchy.nodup_names
  kind_names := hc.lineages.nodup_names
  missing_reserved := hc.missing_reserved
  capability?_eq_some_iff _ _ := hc.capability?_eq_some_iff
  kind?_eq_some_iff _ _ := hc.kind?_eq_some_iff
  parents_before := by
    intro before cap after heq p hp
    have hbefore := hc.hierarchy.parents_before heq p hp
    exact ⟨hbefore, hc.capability?_name (heq ▸ List.mem_append_left _ hbefore)⟩
  parent_before := by
    intro before k after heq p hp
    have hbefore := hc.lineages.parent_before heq p hp
    exact ⟨hbefore, hc.kind?_name (heq ▸ List.mem_append_left _ hbefore)⟩
  implements_listed k hk cap hcap := hc.capability?_name (hc.lineages.implements_mem k hk cap hcap)
  preferred_listed k hk cap hcap := hc.capability?_name (hc.lineages.preferred_mem k hk cap hcap)

end WellFormed

/-- However a catalog was built, it is coherent, and what is built over it keeps it and registers
the declarations. -/
theorem built_coherent {c : Catalog} (hc : c.Built) :
    c.Coherent ∧ ∀ layer c', (c.addLayer layer).run.value = .ok c' → Registers c layer c' :=
  ⟨hc.wellFormed.coherent, fun _ _ h => (layered_of_addLayer h).registers hc.wellFormed⟩

def gradeLayer : Layer where
  settings := none
  capabilities :=
    [⟨"Ranked", ["Graded", "Comparable", "Graded"], none⟩, ⟨"Graded", ["Comparable"], none⟩]
  kinds := [⟨"Grade", some "Score", ["Graded"], some "Absent", none⟩,
    ⟨"Score", some "Whole", ["Ranked"], some "Ranked", none⟩]

def graded : Catalog :=
  let graded := Capability.mk "Graded" none [.comparable]
  let ranked := Capability.mk "Ranked" none [graded, .comparable]
  let score : KindDefinition := ⟨"Score", .catalog, [ranked], some ranked, none⟩
  { capabilities := builtin.capabilities ++ [graded, ranked]
    kinds := builtin.kinds ++ [⟨score, Kind.whole.lineage⟩,
      ⟨⟨"Grade", .catalog, [graded], none, none⟩, score :: Kind.whole.lineage⟩]
    settings := builtin.settings }

/-- What is referred to before it is declared is registered first. -/
theorem built_coherent_graded :
    (builtin.addLayer gradeLayer).run.value = .ok graded ∧
      Registers builtin gradeLayer graded ∧ graded.Coherent := by
  have h : (builtin.addLayer gradeLayer).run.value = .ok graded := by cbv
  exact ⟨h, (built_coherent Built.builtin).2 gradeLayer graded h,
    (built_coherent (Built.builtin.layer h)).1⟩

end Catalog

end ColumnTypes
