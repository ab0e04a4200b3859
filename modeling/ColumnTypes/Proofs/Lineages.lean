import ColumnTypes.Proofs.Resolution

namespace ColumnTypes.Kind

/-!
# Lineages

A kind extends at most one other. In a list of kinds over a hierarchy of
capabilities, names are unique, parents come first, and everything that a kind
refers to, itself or through the kinds above it, is in the hierarchy.
-/

/-- The kind is `l` or extends it, directly or further up. -/
def Under (k l : Kind) : Prop :=
  Relation.ReflTransGen (fun x p => x.parent? = some p) k l

theorem inherited_of_parent? {k p : Kind} (hp : k.parent? = some p) : k.inherited = p.lineage := by
  obtain ⟨own, inherited⟩ := k
  cases inherited with
  | nil => cases hp
  | cons next rest =>
      obtain rfl := Option.some.inj hp
      rfl

theorem inherited_of_parent?_eq_none {k : Kind} (hp : k.parent? = none) : k.inherited = [] := by
  obtain ⟨own, inherited⟩ := k
  cases inherited with
  | nil => rfl
  | cons next rest => cases hp

/-- What holds of a kind whenever it holds of its parent holds of all. -/
theorem induction_on_parent {P : Kind → Prop}
    (step : ∀ k : Kind, (∀ p, k.parent? = some p → P p) → P k) (k : Kind) : P k := by
  obtain ⟨own, inherited⟩ := k
  induction inherited generalizing own with
  | nil => exact step ⟨own, []⟩ nofun
  | cons next rest ih => exact step ⟨own, next :: rest⟩ fun p hp => Option.some.inj hp ▸ ih next

/-- What a kind consists of are the definitions of the kinds above it. -/
theorem mem_lineage_iff {k : Kind} {d : KindDefinition} :
    d ∈ k.lineage ↔ ∃ l, k.Under l ∧ l.own = d := by
  constructor
  · induction k using induction_on_parent with
    | step k ih =>
        intro hd
        rcases List.mem_cons.mp hd with rfl | hd
        · exact ⟨k, Relation.ReflTransGen.refl, rfl⟩
        · cases hp : k.parent? with
          | none => simp [inherited_of_parent?_eq_none hp] at hd
          | some p =>
              obtain ⟨l, hl, hown⟩ := ih p hp (inherited_of_parent? hp ▸ hd)
              exact ⟨l, hl.head hp, hown⟩
  · rintro ⟨l, hl, rfl⟩
    induction hl using Relation.ReflTransGen.head_induction_on with
    | refl => exact List.mem_cons_self
    | head hp _ ih => exact List.mem_cons_of_mem _ (inherited_of_parent? hp ▸ ih)

/-- A kind without a preference of its own has that of its parent. -/
theorem preferred_eq (k : Kind) :
    k.preferred = k.declaredPreferred.or (k.parent?.bind Kind.preferred) := by
  obtain ⟨⟨name, provenance, implements, preferred, codec⟩, inherited⟩ := k
  cases preferred <;> cases inherited <;> rfl

/-- Kinds with unique names, whose parents stand before them and which refer to the given
capabilities only. -/
structure Lineages (capabilities : List Capability) (ks : List Kind) : Prop where
  nodup_names : (ks.map Kind.name).Nodup
  parent_before : ∀ {before after : List Kind} {k : Kind},
    ks = before ++ k :: after → ∀ p, k.parent? = some p → p ∈ before
  implements_mem : ∀ k ∈ ks, ∀ c ∈ k.implements, c ∈ capabilities
  preferred_mem : ∀ k ∈ ks, ∀ c, k.declaredPreferred = some c → c ∈ capabilities

namespace Lineages

theorem concat {capabilities : List Capability} {ks : List Kind} (hks : Lineages capabilities ks)
    {k : Kind} (hname : k.name ∉ ks.map Kind.name) (hparent : ∀ p, k.parent? = some p → p ∈ ks)
    (himplements : ∀ c ∈ k.implements, c ∈ capabilities)
    (hpreferred : ∀ c, k.declaredPreferred = some c → c ∈ capabilities) :
    Lineages capabilities (ks ++ [k]) where
  nodup_names := by
    rw [List.map_append, List.nodup_append_comm]
    exact List.nodup_cons.mpr ⟨hname, hks.nodup_names⟩
  parent_before := by
    intro before after d heq p hp
    rcases split_concat heq with ⟨rfl, rfl⟩ | ⟨rest, heq⟩
    · exact hparent p hp
    · exact hks.parent_before heq p hp
  implements_mem := by
    intro d hd
    rcases List.mem_append.mp hd with hd | hd
    · exact hks.implements_mem d hd
    · exact List.mem_singleton.mp hd ▸ himplements
  preferred_mem := by
    intro d hd
    rcases List.mem_append.mp hd with hd | hd
    · exact hks.preferred_mem d hd
    · exact List.mem_singleton.mp hd ▸ hpreferred

theorem mono {capabilities capabilities' : List Capability} {ks : List Kind}
    (hks : Lineages capabilities ks) (hsub : capabilities ⊆ capabilities') :
    Lineages capabilities' ks where
  nodup_names := hks.nodup_names
  parent_before := hks.parent_before
  implements_mem k hk c hc := hsub (hks.implements_mem k hk c hc)
  preferred_mem k hk c hc := hsub (hks.preferred_mem k hk c hc)

variable {capabilities : List Capability} {ks : List Kind} (hks : Lineages capabilities ks)
include hks

theorem parent_mem {k p : Kind} (hk : k ∈ ks) (hp : k.parent? = some p) : p ∈ ks := by
  obtain ⟨before, after, rfl⟩ := List.append_of_mem hk
  exact List.mem_append_left _ (hks.parent_before rfl p hp)

theorem mem_of_under {k l : Kind} (hk : k ∈ ks) (h : k.Under l) : l ∈ ks := by
  induction h with
  | refl => exact hk
  | tail _ hp ih => exact hks.parent_mem ih hp

theorem definition_mem {k : Kind} (hk : k ∈ ks) {d : KindDefinition} (hd : d ∈ k.lineage) :
    ∃ l ∈ ks, l.own = d := by
  obtain ⟨l, hl, hown⟩ := mem_lineage_iff.mp hd
  exact ⟨l, hks.mem_of_under hk hl, hown⟩

theorem implements_of_lineage {k : Kind} (hk : k ∈ ks) :
    ∀ c ∈ k.lineage.flatMap KindDefinition.implements, c ∈ capabilities := by
  intro c hc
  obtain ⟨d, hd, hc⟩ := List.mem_flatMap.mp hc
  obtain ⟨l, hl, rfl⟩ := hks.definition_mem hk hd
  exact hks.implements_mem l hl c hc

theorem preferred_of_lineage {k : Kind} (hk : k ∈ ks) {c : Capability}
    (hc : k.preferred = some c) : c ∈ capabilities := by
  obtain ⟨d, hd, hc⟩ := List.exists_of_findSome?_eq_some hc
  obtain ⟨l, hl, rfl⟩ := hks.definition_mem hk hd
  exact hks.preferred_mem l hl c hc

end Lineages

end ColumnTypes.Kind
