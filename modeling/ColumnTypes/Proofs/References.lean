import ColumnTypes.Proofs.Registration

namespace ColumnTypes

/-!
# References by name

Declarations refer to each other by name. What such references lead to is read
off the declarations of a layer together with those that its base comes from,
and it is what the capabilities and kinds of the built catalog show.
-/

open Relation (ReflTransGen TransGen)

/-! ## Layers -/

namespace Layer

def ExtendsCapability (l : Layer) (n m : String) : Prop :=
  ∃ d ∈ l.capabilities, d.name = n ∧ m ∈ d.parents

def ExtendsKind (l : Layer) (n m : String) : Prop :=
  ∃ d ∈ l.kinds, d.name = n ∧ d.parent = some m

def Implements (l : Layer) (n i : String) : Prop :=
  ∃ d ∈ l.kinds, d.name = n ∧ i ∈ d.implements

/-- A preference for a capability that is not declared does not count. -/
def Prefers (l : Layer) (n p : String) : Prop :=
  p ∈ l.capabilities.map CapabilityDeclaration.name ∧
    ∃ d ∈ l.kinds, d.name = n ∧ d.preferred = some p

/-- A kind without a preference of its own leaves it to the kind that it extends. -/
def Defers (l : Layer) (n m : String) : Prop :=
  (∀ p, ¬l.Prefers n p) ∧ l.ExtendsKind n m

/-- The preference in effect: the own one of the kind, or else the nearest inherited one. -/
def PreferredFor (l : Layer) (n p : String) : Prop :=
  ∃ m, ReflTransGen l.Defers n m ∧ l.Prefers m p

/-- The kind or one above it implements the capability or one that extends it. -/
def Offers (l : Layer) (n i : String) : Prop :=
  ∃ m j, ReflTransGen l.ExtendsKind n m ∧ l.Implements m j ∧ ReflTransGen l.ExtendsCapability j i

theorem preferredFor_iff {l : Layer} {n p : String} :
    l.PreferredFor n p ↔ l.Prefers n p ∨ ∃ m, l.Defers n m ∧ l.PreferredFor m p := by
  constructor
  · rintro ⟨m, hchain, hm⟩
    rcases hchain.cases_head with rfl | ⟨k, hstep, hchain⟩
    · exact Or.inl hm
    · exact Or.inr ⟨k, hstep, m, hchain, hm⟩
  · rintro (hn | ⟨k, hstep, m, hchain, hm⟩)
    · exact ⟨n, ReflTransGen.refl, hn⟩
    · exact ⟨m, hchain.head hstep, hm⟩

/-- Preferences in effect and offers only depend on the direct references. -/
theorem preferredFor_congr {l l' : Layer} (hprefers : l.Prefers = l'.Prefers)
    (hextends : l.ExtendsKind = l'.ExtendsKind) : l.PreferredFor = l'.PreferredFor := by
  funext n p
  have hdefers : l.Defers = l'.Defers := by
    funext n m
    rw [Defers, Defers, hprefers, hextends]
  rw [PreferredFor, PreferredFor, hdefers, hprefers]

theorem offers_congr {l l' : Layer} (hextends : l.ExtendsKind = l'.ExtendsKind)
    (himplements : l.Implements = l'.Implements)
    (hcapability : l.ExtendsCapability = l'.ExtendsCapability) : l.Offers = l'.Offers := by
  funext n i
  rw [Offers, Offers, hextends, himplements, hcapability]

end Layer

namespace Catalog

/-- The catalog as one layer. -/
def declarations (c : Catalog) : Layer where
  settings := some c.settings
  capabilities := c.capabilities.map Capability.declaration
  kinds := c.kinds.map Kind.declaration

end Catalog

/-- The declarations of the layer behind those of the base. -/
def Layer.onto (l : Layer) (base : Catalog) : Layer where
  settings := some (l.settings.getD base.settings)
  capabilities := base.declarations.capabilities ++ l.capabilities
  kinds := base.declarations.kinds ++ l.kinds

namespace Layer

variable {l : Layer} (base : Catalog) {n m : String}

theorem ExtendsCapability.onto (h : l.ExtendsCapability n m) :
    (l.onto base).ExtendsCapability n m := by
  obtain ⟨d, hd, hdm⟩ := h
  exact ⟨d, List.mem_append_right _ hd, hdm⟩

theorem ExtendsKind.onto (h : l.ExtendsKind n m) : (l.onto base).ExtendsKind n m := by
  obtain ⟨d, hd, hdm⟩ := h
  exact ⟨d, List.mem_append_right _ hd, hdm⟩

theorem Implements.onto (h : l.Implements n m) : (l.onto base).Implements n m := by
  obtain ⟨d, hd, hdm⟩ := h
  exact ⟨d, List.mem_append_right _ hd, hdm⟩

end Layer

/-! ## What a build keeps of the references -/

/-- What holds of a declaration exactly if it holds of what the declaration comes to, is declared
by an entry of the list exactly if it was declared before or by the new declarations. -/
theorem exists_declaration_iff {α δ : Type} {form : α → δ} {effective : δ → δ} {ds : List δ}
    {before after : List α}
    (h : ∃ new, after = before ++ new ∧ (new.map form).Perm (ds.map effective))
    {P : δ → Prop} (hP : ∀ d, P (effective d) ↔ P d) :
    (∃ d ∈ after.map form, P d) ↔ ∃ d ∈ before.map form ++ ds, P d := by
  obtain ⟨new, rfl, hperm⟩ := h
  have hnew : (∃ d ∈ new.map form, P d) ↔ ∃ d ∈ ds, P d := by
    simp only [hperm.mem_iff, List.mem_map, exists_exists_and_eq_and, hP]
  simp only [List.map_append, List.mem_append, or_and_right, exists_or, hnew]

namespace Catalog.Registers

variable {base c : Catalog} {layer : Layer} (h : Registers base layer c)
include h

theorem mem_capability_names_iff {n : String} :
    n ∈ c.declarations.capabilities.map CapabilityDeclaration.name ↔
      n ∈ (layer.onto base).capabilities.map CapabilityDeclaration.name := by
  rw [List.mem_map, List.mem_map]
  exact exists_declaration_iff h.capabilities fun _ => Iff.rfl

theorem extendsCapability_eq :
    c.declarations.ExtendsCapability = (layer.onto base).ExtendsCapability := by
  funext n m
  apply propext
  exact exists_declaration_iff h.capabilities fun d => by simp [CapabilityDeclaration.effective]

theorem extendsKind_eq : c.declarations.ExtendsKind = (layer.onto base).ExtendsKind := by
  funext n m
  apply propext
  exact exists_declaration_iff h.kinds fun _ => Iff.rfl

theorem implements_eq : c.declarations.Implements = (layer.onto base).Implements := by
  funext n i
  apply propext
  exact exists_declaration_iff h.kinds fun d => by simp [KindDeclaration.effective]

theorem prefers_eq : c.declarations.Prefers = (layer.onto base).Prefers := by
  funext n p
  apply propext
  rw [Layer.Prefers, Layer.Prefers, h.mem_capability_names_iff]
  apply and_congr_right
  intro hp
  rw [← h.mem_capability_names_iff] at hp
  have hknown : p ∈ Capability.names c.capabilities := by
    simpa [declarations, Capability.names, Capability.declaration] using hp
  refine exists_declaration_iff h.kinds fun d => and_congr_right fun _ => ?_
  rw [KindDeclaration.effective, Option.filter_eq_some_iff]
  exact and_iff_left (by simpa using hknown)

theorem preferredFor_eq : c.declarations.PreferredFor = (layer.onto base).PreferredFor :=
  Layer.preferredFor_congr h.prefers_eq h.extendsKind_eq

theorem offers_eq : c.declarations.Offers = (layer.onto base).Offers :=
  Layer.offers_congr h.extendsKind_eq h.implements_eq h.extendsCapability_eq

end Catalog.Registers

/-! ## From names to entries -/

/-- From the entries of the list, steps by `r` between names are steps by `s` between entries. -/
structure Traces {α : Type} (name : α → String) (xs : List α) (r : String → String → Prop)
    (s : α → α → Prop) : Prop where
  closed : ∀ x ∈ xs, ∀ y, s x y → y ∈ xs
  step_iff : ∀ x ∈ xs, ∀ m, r (name x) m ↔ ∃ y, s x y ∧ name y = m

namespace Traces

variable {α : Type} {name : α → String} {xs : List α} {r : String → String → Prop}
  {s : α → α → Prop} (h : Traces name xs r s) {x : α} (hx : x ∈ xs)
include h hx

theorem mem_of_reflTransGen {y : α} (hxy : ReflTransGen s x y) : y ∈ xs := by
  induction hxy with
  | refl => exact hx
  | tail _ hstep ih => exact h.closed _ ih _ hstep

theorem reflTransGen_iff {m : String} :
    ReflTransGen r (name x) m ↔ ∃ y, ReflTransGen s x y ∧ name y = m := by
  constructor
  · intro hm
    induction hm with
    | refl => exact ⟨x, ReflTransGen.refl, rfl⟩
    | tail _ hstep ih =>
        obtain ⟨y, hxy, rfl⟩ := ih
        obtain ⟨z, hyz, hz⟩ := (h.step_iff y (h.mem_of_reflTransGen hx hxy) _).mp hstep
        exact ⟨z, hxy.tail hyz, hz⟩
  · rintro ⟨y, hxy, rfl⟩
    induction hxy with
    | refl => exact ReflTransGen.refl
    | @tail y z hxy hyz ih =>
        have hy := h.mem_of_reflTransGen hx hxy
        exact ih.tail ((h.step_iff y hy (name z)).mpr ⟨z, hyz, rfl⟩)

theorem transGen_iff {m : String} :
    TransGen r (name x) m ↔ ∃ y, TransGen s x y ∧ name y = m := by
  constructor
  · intro hm
    obtain ⟨n, hstep, hm⟩ := TransGen.head'_iff.mp hm
    obtain ⟨y, hxy, rfl⟩ := (h.step_iff x hx n).mp hstep
    obtain ⟨z, hyz, hz⟩ := (h.reflTransGen_iff (h.closed x hx y hxy)).mp hm
    exact ⟨z, TransGen.head' hxy hyz, hz⟩
  · rintro ⟨z, hxz, rfl⟩
    obtain ⟨y, hxy, hyz⟩ := TransGen.head'_iff.mp hxz
    have hstep := (h.step_iff x hx (name y)).mpr ⟨y, hxy, rfl⟩
    exact TransGen.head' hstep ((h.reflTransGen_iff (h.closed x hx y hxy)).mpr ⟨z, hyz, rfl⟩)

/-- Where the steps between entries lead down, no name leads back to itself. -/
theorem acyclic (hnodup : (xs.map name).Nodup) {f : α → ℕ} (hf : ∀ x y, s x y → f y < f x) :
    ¬TransGen r (name x) (name x) := by
  intro hcycle
  obtain ⟨y, hxy, hname⟩ := (h.transGen_iff hx).mp hcycle
  have hy := h.mem_of_reflTransGen hx hxy.to_reflTransGen
  obtain rfl := List.inj_on_of_nodup_map hnodup hy hx hname
  have hdown : TransGen (fun a b : ℕ => b < a) (f y) (f y) := hxy.lift f hf
  rw [Relation.transGen_eq_self] at hdown
  exact lt_irrefl _ hdown

end Traces

/-- Where names are unique, the declaration of a name is that of the entry. -/
theorem exists_named_iff {α δ : Type} (form : α → δ) (name : δ → String) {xs : List α}
    (hxs : (xs.map fun x => name (form x)).Nodup) {x : α} (hx : x ∈ xs) {P : δ → Prop} :
    (∃ d ∈ xs.map form, name d = name (form x) ∧ P d) ↔ P (form x) := by
  constructor
  · rintro ⟨d, hd, hname, hp⟩
    obtain ⟨y, hy, rfl⟩ := List.mem_map.mp hd
    exact List.inj_on_of_nodup_map hxs hy hx hname ▸ hp
  · intro hp
    exact ⟨form x, List.mem_map_of_mem hx, rfl, hp⟩

namespace Catalog.WellFormed

variable {c : Catalog} (hc : c.WellFormed)
include hc

theorem exists_capability_iff {cap : Capability} (hcap : cap ∈ c.capabilities)
    {P : CapabilityDeclaration → Prop} :
    (∃ d ∈ c.declarations.capabilities, d.name = cap.name ∧ P d) ↔ P cap.declaration :=
  exists_named_iff Capability.declaration CapabilityDeclaration.name hc.hierarchy.nodup_names hcap

theorem exists_kind_iff {k : Kind} (hk : k ∈ c.kinds) {P : KindDeclaration → Prop} :
    (∃ d ∈ c.declarations.kinds, d.name = k.name ∧ P d) ↔ P k.declaration :=
  exists_named_iff Kind.declaration KindDeclaration.name hc.lineages.nodup_names hk

theorem traces_capabilities :
    Traces Capability.name c.capabilities c.declarations.ExtendsCapability
      (fun x p => p ∈ x.parents) where
  closed _ hx _ hp := hc.hierarchy.parent_mem hx hp
  step_iff _ hx _ := (hc.exists_capability_iff hx).trans List.mem_map

theorem traces_kinds :
    Traces Kind.name c.kinds c.declarations.ExtendsKind (fun x p => x.parent? = some p) where
  closed _ hx _ hp := hc.lineages.parent_mem hx hp
  step_iff _ hx _ := (hc.exists_kind_iff hx).trans Option.map_eq_some_iff

theorem implements_iff {k : Kind} (hk : k ∈ c.kinds) {i : String} :
    c.declarations.Implements k.name i ↔ ∃ cap ∈ k.implements, cap.name = i :=
  (hc.exists_kind_iff hk).trans List.mem_map

theorem prefers_iff {k : Kind} (hk : k ∈ c.kinds) {p : String} :
    c.declarations.Prefers k.name p ↔ ∃ cap, k.declaredPreferred = some cap ∧ cap.name = p := by
  rw [Layer.Prefers, hc.exists_kind_iff hk]
  constructor
  · rintro ⟨-, hp⟩
    exact Option.map_eq_some_iff.mp hp
  · rintro ⟨cap, hcap, rfl⟩
    refine ⟨?_, Option.map_eq_some_iff.mpr ⟨cap, hcap, rfl⟩⟩
    have hmem := hc.lineages.preferred_mem k hk cap hcap
    exact List.mem_map.mpr ⟨cap.declaration, List.mem_map_of_mem hmem, rfl⟩

/-- The preference in effect is the one that the kind finds in its lineage. -/
theorem preferredFor_iff {k : Kind} (hk : k ∈ c.kinds) {p : String} :
    c.declarations.PreferredFor k.name p ↔ ∃ cap, k.preferred = some cap ∧ cap.name = p := by
  induction k using Kind.induction_on_parent with
  | step k ih =>
      rw [Layer.preferredFor_iff, hc.prefers_iff hk, Kind.preferred_eq]
      cases hown : k.declaredPreferred with
      | some cap =>
          apply or_iff_left
          rintro ⟨m, ⟨hnone, -⟩, -⟩
          exact hnone cap.name ((hc.prefers_iff hk).mpr ⟨cap, hown, rfl⟩)
      | none =>
          have hnone : ∀ q, ¬c.declarations.Prefers k.name q := by
            intro q hq
            obtain ⟨cap, hcap, -⟩ := (hc.prefers_iff hk).mp hq
            cases hown.symm.trans hcap
          rw [Option.none_or]
          constructor
          · rintro (⟨cap, hcap, -⟩ | ⟨m, ⟨-, hm⟩, hp⟩)
            · cases hcap
            · obtain ⟨q, hq, rfl⟩ := (hc.traces_kinds.step_iff k hk m).mp hm
              rw [hq]
              exact (ih q hq (hc.lineages.parent_mem hk hq)).mp hp
          · rintro ⟨cap, hcap, rfl⟩
            obtain ⟨q, hq, hcap⟩ := Option.bind_eq_some_iff.mp hcap
            have hstep := (hc.traces_kinds.step_iff k hk q.name).mpr ⟨q, hq, rfl⟩
            have hfound := (ih q hq (hc.lineages.parent_mem hk hq)).mpr ⟨cap, hcap, rfl⟩
            exact Or.inr ⟨q.name, ⟨hnone, hstep⟩, hfound⟩

theorem offers_iff {k : Kind} (hk : k ∈ c.kinds) {i : String} :
    c.declarations.Offers k.name i ↔ ∃ cap ∈ k.discovery.capabilities, cap.name = i := by
  have himplements := hc.lineages.implements_of_lineage hk
  have hmem : ∀ {l cap}, k.Under l → cap ∈ l.implements → cap ∈ c.capabilities :=
    fun hl hcap => hc.lineages.implements_mem _ (hc.lineages.mem_of_under hk hl) _ hcap
  constructor
  · rintro ⟨m, j, hm, hj, hi⟩
    obtain ⟨l, hkl, rfl⟩ := (hc.traces_kinds.reflTransGen_iff hk).mp hm
    obtain ⟨cap, hcap, rfl⟩ := (hc.implements_iff (hc.lineages.mem_of_under hk hkl)).mp hj
    obtain ⟨d, hd, rfl⟩ := (hc.traces_capabilities.reflTransGen_iff (hmem hkl hcap)).mp hi
    refine ⟨d, (hc.hierarchy.mem_closure_iff himplements).mpr ⟨cap, ?_, hd⟩, rfl⟩
    exact List.mem_flatMap.mpr ⟨l.own, Kind.mem_lineage_iff.mpr ⟨l, hkl, rfl⟩, hcap⟩
  · rintro ⟨d, hd, rfl⟩
    obtain ⟨cap, hcap, hd⟩ := (hc.hierarchy.mem_closure_iff himplements).mp hd
    obtain ⟨own, hown, hcap⟩ := List.mem_flatMap.mp hcap
    obtain ⟨l, hkl, rfl⟩ := Kind.mem_lineage_iff.mp hown
    refine ⟨l.name, cap.name, ?_, ?_, ?_⟩
    · exact (hc.traces_kinds.reflTransGen_iff hk).mpr ⟨l, hkl, rfl⟩
    · exact (hc.implements_iff (hc.lineages.mem_of_under hk hkl)).mpr ⟨cap, hcap, rfl⟩
    · exact (hc.traces_capabilities.reflTransGen_iff (hmem hkl hcap)).mpr ⟨d, hd, rfl⟩

theorem unimplemented_iff {k : Kind} (hk : k ∈ c.kinds) {p : String} :
    c.declarations.PreferredFor k.name p ∧ ¬c.declarations.Offers k.name p ↔
      ∃ cap, k.discovery.unimplemented? = some cap ∧ cap.name = p := by
  have hlisted : ∀ cap : Capability, cap.isListed k.discovery.capabilities = true ↔
      c.declarations.Offers k.name cap.name := by
    intro cap
    rw [hc.offers_iff hk, Capability.isListed_iff, Capability.names, List.mem_map]
  rw [hc.preferredFor_iff hk]
  constructor
  · rintro ⟨⟨cap, hcap, rfl⟩, hoffers⟩
    refine ⟨cap, Option.filter_eq_some_iff.mpr ⟨hcap, ?_⟩, rfl⟩
    rwa [Bool.not_eq_true', ← Bool.not_eq_true, hlisted]
  · rintro ⟨cap, hcap, rfl⟩
    obtain ⟨hcap, hunlisted⟩ := Option.filter_eq_some_iff.mp hcap
    rw [Bool.not_eq_true', ← Bool.not_eq_true, hlisted] at hunlisted
    exact ⟨⟨cap, hcap, rfl⟩, hunlisted⟩

/-! ## What a well-formed catalog excludes -/

theorem mem_of_extendsCapability {n m : String} (h : c.declarations.ExtendsCapability n m) :
    m ∈ Capability.names c.capabilities := by
  obtain ⟨d, hd, -, hm⟩ := h
  obtain ⟨cap, hcap, rfl⟩ := List.mem_map.mp hd
  obtain ⟨p, hp, rfl⟩ := List.mem_map.mp hm
  exact List.mem_map_of_mem (hc.hierarchy.parent_mem hcap hp)

theorem mem_of_implements {n i : String} (h : c.declarations.Implements n i) :
    i ∈ Capability.names c.capabilities := by
  obtain ⟨d, hd, -, hi⟩ := h
  obtain ⟨k, hk, rfl⟩ := List.mem_map.mp hd
  obtain ⟨cap, hcap, rfl⟩ := List.mem_map.mp hi
  exact List.mem_map_of_mem (hc.lineages.implements_mem k hk cap hcap)

theorem mem_of_extendsKind {n m : String} (h : c.declarations.ExtendsKind n m) :
    m ∈ c.kinds.map Kind.name := by
  obtain ⟨d, hd, -, hm⟩ := h
  obtain ⟨k, hk, rfl⟩ := List.mem_map.mp hd
  obtain ⟨p, hp, rfl⟩ := Option.map_eq_some_iff.mp hm
  exact List.mem_map_of_mem (hc.lineages.parent_mem hk hp)

theorem capability_acyclic (n : String) : ¬TransGen c.declarations.ExtendsCapability n n := by
  intro hcycle
  obtain ⟨m, ⟨d, hd, rfl, -⟩, -⟩ := TransGen.head'_iff.mp hcycle
  obtain ⟨cap, hcap, rfl⟩ := List.mem_map.mp hd
  exact hc.traces_capabilities.acyclic hcap hc.hierarchy.nodup_names
    (fun _ _ hp => Capability.sizeOf_parent_lt hp) hcycle

theorem kind_acyclic (n : String) : ¬TransGen c.declarations.ExtendsKind n n := by
  intro hcycle
  obtain ⟨m, ⟨d, hd, rfl, -⟩, -⟩ := TransGen.head'_iff.mp hcycle
  obtain ⟨k, hk, rfl⟩ := List.mem_map.mp hd
  refine hc.traces_kinds.acyclic hk hc.lineages.nodup_names (f := fun k => k.inherited.length)
    (fun k p hp => ?_) hcycle
  rw [Kind.inherited_of_parent? hp]
  exact Nat.lt_succ_self _

end Catalog.WellFormed

end ColumnTypes
