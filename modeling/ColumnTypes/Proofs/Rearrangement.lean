import ColumnTypes.Proofs.Caches
import ColumnTypes.Proofs.Lookups
import ColumnTypes.Proofs.Refusals

namespace ColumnTypes

/-!
# The order of declarations

Declarations can be given in any order. What is wrong with a layer is wrong with
any rearrangement of it, and the entries of a catalog are determined by what
they were declared as. So a rearranged layer is accepted alike and defines the
same, although it may be registered in another order.
-/

/-! ## Entries are determined by their declarations -/

theorem option_eq_of_map_eq {α β : Type} {f : α → β} {o o' : Option α} (h : o.map f = o'.map f)
    (hinj : ∀ a, o = some a → ∀ b, o' = some b → f a = f b → a = b) : o = o' := by
  cases o with
  | none => exact (Option.map_eq_none_iff.mp h.symm).symm
  | some a =>
      obtain ⟨b, hb, heq⟩ := Option.map_eq_some_iff.mp h.symm
      rw [hb, hinj a rfl b hb heq.symm]

namespace Capability

theorem eq_of_parts {c d : Capability} (hname : c.name = d.name)
    (hbundle : c.declaredBundle = d.declaredBundle) (hparents : c.parents = d.parents) : c = d := by
  cases c
  cases d
  exact congr (congr (congrArg mk hname) hbundle) hparents

theorem Hierarchy.subset_of_declarations {cs ds : List Capability} (hcs : Hierarchy cs)
    (hds : Hierarchy ds) (h : cs.map declaration ⊆ ds.map declaration) : cs ⊆ ds := by
  intro c
  induction c using induction_on_parents with
  | step c ih =>
      intro hc
      obtain ⟨d, hd, heq⟩ := List.mem_map.mp (h (List.mem_map_of_mem hc))
      -- by induction the parents of `c` are among `ds` too, where names settle them
      have hparents : c.parents = d.parents :=
        hds.eq_of_names_eq (fun p hp => ih p hp (hcs.parent_mem hc hp))
          (fun p hp => hds.parent_mem hd hp) (congrArg CapabilityDeclaration.parents heq.symm)
      have hname : c.name = d.name := congrArg CapabilityDeclaration.name heq.symm
      have hbundle : c.declaredBundle = d.declaredBundle :=
        congrArg CapabilityDeclaration.bundle heq.symm
      exact eq_of_parts hname hbundle hparents ▸ hd

end Capability

namespace Kind

open Capability (Hierarchy)

theorem eq_of_parts {k l : Kind} (hown : k.own = l.own) (hparent : k.parent? = l.parent?) :
    k = l := by
  have hinherited : k.inherited = l.inherited := by
    cases hp : l.parent? with
    | none =>
        rw [inherited_of_parent?_eq_none hp, inherited_of_parent?_eq_none (hparent.trans hp)]
    | some p => rw [inherited_of_parent? hp, inherited_of_parent? (hparent.trans hp)]
  cases k
  cases l
  exact congr (congrArg Kind.mk hown) hinherited

theorem definition_eq {d e : KindDefinition} (hname : d.name = e.name)
    (hprovenance : d.provenance = e.provenance) (himplements : d.implements = e.implements)
    (hpreferred : d.preferred = e.preferred) (hcodec : d.codec = e.codec) : d = e := by
  cases d
  cases e
  simp_all

theorem Lineages.subset_of_declarations {cs : List Capability} {ks ls : List Kind}
    (hcs : Hierarchy cs) (hks : Lineages cs ks) (hls : Lineages cs ls)
    (hprovenance : ∀ k ∈ ks, ∀ l ∈ ls, k.own.provenance = l.own.provenance)
    (h : ks.map declaration ⊆ ls.map declaration) : ks ⊆ ls := by
  intro k
  induction k using induction_on_parent with
  | step k ih =>
      intro hk
      obtain ⟨l, hl, heq⟩ := List.mem_map.mp (h (List.mem_map_of_mem hk))
      have himplements : k.own.implements = l.own.implements :=
        hcs.eq_of_names_eq (hks.implements_mem k hk) (hls.implements_mem l hl)
          (congrArg KindDeclaration.implements heq.symm)
      have hpreferred : k.own.preferred = l.own.preferred :=
        option_eq_of_map_eq (congrArg KindDeclaration.preferred heq.symm) fun c hc d hd =>
          hcs.eq_of_name_eq (hks.preferred_mem k hk c hc) (hls.preferred_mem l hl d hd)
      have hparent : k.parent? = l.parent? :=
        option_eq_of_map_eq (congrArg KindDeclaration.parent heq.symm) fun p hp q hq =>
          List.inj_on_of_nodup_map hls.nodup_names (ih p hp (hks.parent_mem hk hp))
            (hls.parent_mem hl hq)
      have hname : k.own.name = l.own.name := congrArg KindDeclaration.name heq.symm
      have hcodec : k.own.codec = l.own.codec := congrArg KindDeclaration.codec heq.symm
      exact eq_of_parts (definition_eq hname (hprovenance k hk l hl) himplements hpreferred hcodec)
        hparent ▸ hl

end Kind

/-! ## Kinds of a catalog -/

namespace KindDeclaration

variable {capabilities : List Capability} {known : List String}

theorem provenance_of_define {d : KindDeclaration} {parent : Option Kind} {k : Kind}
    (h : (define capabilities d parent).run.value = .ok k) : k.own.provenance = .catalog := by
  rw [define_value] at h
  obtain ⟨cs, -, rfl⟩ := Result.ok_of_map h
  rfl

theorem provenance_of_resolve {available : List KindDeclaration} {registered : List Kind}
    {name : String} {r : Kind × List Kind}
    (hregistered : ∀ k ∈ registered, k.own.provenance = .catalog)
    (h : (resolve capabilities known available registered name).run.value = .ok r) :
    ∀ k ∈ r.2, k.own.provenance = .catalog := by
  cases hk : Kind.named? registered name with
  | some k =>
      rw [resolve_of_registered hk] at h
      exact Except.ok.inj h ▸ hregistered
  | none =>
      cases hd : named? available name with
      | none =>
          rw [resolve_of_unavailable hk hd] at h
          cases h
      | some d =>
          have hlt := Named.length_without_lt hd
          cases hparent : d.parent with
          | none =>
              rw [resolve_of_root hk hd hparent] at h
              obtain ⟨l, hl, rfl⟩ := Result.ok_of_map h
              exact List.forall_mem_append.mpr
                ⟨hregistered, List.forall_mem_singleton.mpr (provenance_of_define hl)⟩
          | some p =>
              rw [resolve_of_extending hk hd hparent] at h
              split at h
              · obtain ⟨mid, hmid, h⟩ := Result.ok_of_bind h
                obtain ⟨l, hl, rfl⟩ := Result.ok_of_map h
                exact List.forall_mem_append.mpr ⟨provenance_of_resolve hregistered hmid,
                  List.forall_mem_singleton.mpr (provenance_of_define hl)⟩
              · cases h
termination_by available.length

theorem provenance_of_resolveAll {ds rest : List KindDeclaration}
    {registered registered' : List Kind}
    (hregistered : ∀ k ∈ registered, k.own.provenance = .catalog)
    (h : (resolveAll capabilities known ds rest registered).run.value = .ok registered') :
    ∀ k ∈ registered', k.own.provenance = .catalog := by
  induction rest generalizing registered with
  | nil => exact Logged.eq_of_pure_ok h ▸ hregistered
  | cons d rest ih =>
      rw [resolveAll] at h
      obtain ⟨r, hr, h⟩ := Logged.ok_of_bind h
      exact ih (provenance_of_resolve hregistered hr) h

end KindDeclaration

theorem Catalog.Built.provenance {c : Catalog} (h : c.Built) :
    ∀ k ∈ c.kinds, k.own.provenance = .catalog := by
  induction h with
  | empty => exact nofun
  | builtin => decide
  | layer _ h ih =>
      exact KindDeclaration.provenance_of_resolveAll ih (layered_of_addLayer h).kinds_resolved

/-! ## Rearranged layers -/

/-- The same declarations in any order. -/
structure Layer.Rearranges (l l' : Layer) : Prop where
  settings_eq : l.settings = l'.settings
  capabilities : l.capabilities.Perm l'.capabilities
  kinds : l.kinds.Perm l'.kinds

namespace Layer.Rearranges

variable {l l' : Layer} (h : l.Rearranges l')
include h

theorem symm : l'.Rearranges l :=
  ⟨h.settings_eq.symm, h.capabilities.symm, h.kinds.symm⟩

theorem onto (base : Catalog) : (l.onto base).Rearranges (l'.onto base) where
  settings_eq := by rw [Layer.onto, Layer.onto, h.settings_eq]
  capabilities := h.capabilities.append_left _
  kinds := h.kinds.append_left _

theorem extendsCapability_eq : l.ExtendsCapability = l'.ExtendsCapability := by
  funext n m
  simp only [ExtendsCapability, h.capabilities.mem_iff]

theorem extendsKind_eq : l.ExtendsKind = l'.ExtendsKind := by
  funext n m
  simp only [ExtendsKind, h.kinds.mem_iff]

theorem implements_eq : l.Implements = l'.Implements := by
  funext n i
  simp only [Implements, h.kinds.mem_iff]

theorem prefers_eq : l.Prefers = l'.Prefers := by
  funext n p
  simp only [Prefers, h.kinds.mem_iff, (h.capabilities.map CapabilityDeclaration.name).mem_iff]

theorem preferredFor_eq : l.PreferredFor = l'.PreferredFor :=
  preferredFor_congr h.prefers_eq h.extendsKind_eq

theorem offers_eq : l.Offers = l'.Offers :=
  offers_congr h.extendsKind_eq h.implements_eq h.extendsCapability_eq

theorem mem_knownCapabilities_iff (base : Catalog) {n : String} :
    n ∈ base.knownCapabilities l ↔ n ∈ base.knownCapabilities l' :=
  ((h.capabilities.map CapabilityDeclaration.name).append_left _).mem_iff

theorem mem_knownKinds_iff (base : Catalog) {n : String} :
    n ∈ base.knownKinds l ↔ n ∈ base.knownKinds l' :=
  ((h.kinds.map KindDeclaration.name).append_left _).mem_iff

end Layer.Rearranges

namespace Catalog

theorem clashes_perm {taken ns ms : List String} (h : ns.Perm ms) {n : String}
    (hn : Clashes taken ns n) : Clashes taken ms n := by
  rw [Clashes, List.duplicate_iff_two_le_count] at hn ⊢
  rwa [← h.mem_iff, ← h.count_eq]

/-- What is wrong with a layer is wrong with any rearrangement of it. -/
theorem Defect.rearranges {base : Catalog} {l l' : Layer} (h : l.Rearranges l')
    {e : Catalog.Error} (he : Defect base l e) : Defect base l' e := by
  cases e with
  | duplicateCapability n => exact clashes_perm (h.capabilities.map CapabilityDeclaration.name) he
  | duplicateKind n => exact clashes_perm (h.kinds.map KindDeclaration.name) he
  | reservedName n => exact ⟨he.1, (h.kinds.map KindDeclaration.name).mem_iff.mp he.2⟩
  | unknownCapability owner n =>
      rw [Defect, h.extendsCapability_eq, h.implements_eq, h.mem_knownCapabilities_iff] at he
      exact he
  | unknownKind owner n =>
      rw [Defect, h.extendsKind_eq, h.mem_knownKinds_iff] at he
      exact he
  | capabilityCycle n =>
      rw [Defect, h.extendsCapability_eq] at he
      exact he
  | kindCycle n =>
      rw [Defect, h.extendsKind_eq] at he
      exact he
  | preferredNotImplemented k p =>
      rw [Defect, h.settings_eq, (h.kinds.map KindDeclaration.name).mem_iff,
        (h.onto base).preferredFor_eq, (h.onto base).offers_eq] at he
      exact he
  | alreadyInstalled => exact he
  | unreadable => exact he
  | malformed => exact he
  | invalid reason => exact he

theorem exists_addLayer_of_rearranges {base c : Catalog} {l l' : Layer} (hbase : base.WellFormed)
    (h : l.Rearranges l') (hc : (base.addLayer l).run.value = .ok c) :
    ∃ c', (base.addLayer l').run.value = .ok c' := by
  cases hvalue : (base.addLayer l').run.value with
  | ok c' => exact ⟨c', rfl⟩
  | error e =>
      have hdefect := (refused_of_addLayer_error hvalue).defect hbase
      exact absurd (hdefect.rearranges h.symm) ((layered_of_addLayer hc).not_defect hbase e)

/-! ## What is registered -/

namespace Registers

theorem perm_capability_declarations {base c : Catalog} {l : Layer} (h : Registers base l c) :
    (c.capabilities.map Capability.declaration).Perm
      (base.declarations.capabilities ++
        l.capabilities.map CapabilityDeclaration.effective) := by
  obtain ⟨new, hnew, hperm⟩ := h.capabilities
  rw [hnew, List.map_append]
  exact hperm.append_left _

theorem perm_kind_declarations {base c : Catalog} {l : Layer} (h : Registers base l c) :
    (c.kinds.map Kind.declaration).Perm
      (base.declarations.kinds ++
        l.kinds.map (KindDeclaration.effective (Capability.names c.capabilities))) := by
  obtain ⟨new, hnew, hperm⟩ := h.kinds
  rw [hnew, List.map_append]
  exact hperm.append_left _

end Registers

/-- Two catalogs that register rearrangements of one layer over the same base. -/
structure Counterparts (base c c' : Catalog) (l l' : Layer) : Prop where
  base_built : base.Built
  rearranges : l.Rearranges l'
  left : (base.addLayer l).run.value = .ok c
  right : (base.addLayer l').run.value = .ok c'

namespace Counterparts

open scoped List

variable {base c c' : Catalog} {l l' : Layer} (h : Counterparts base c c' l l')
include h

theorem symm : Counterparts base c' c l' l :=
  ⟨h.base_built, h.rearranges.symm, h.right, h.left⟩

theorem built : c.Built := h.base_built.layer h.left

theorem registers : Registers base l c :=
  (layered_of_addLayer h.left).registers h.base_built.wellFormed

theorem capabilities_subset : c.capabilities ⊆ c'.capabilities := by
  apply h.built.wellFormed.hierarchy.subset_of_declarations h.symm.built.wellFormed.hierarchy
  apply List.Perm.subset
  calc c.capabilities.map Capability.declaration
      ~ base.declarations.capabilities ++ l.capabilities.map CapabilityDeclaration.effective :=
        h.registers.perm_capability_declarations
    _ ~ base.declarations.capabilities ++ l'.capabilities.map CapabilityDeclaration.effective :=
        (h.rearranges.capabilities.map _).append_left _
    _ ~ c'.capabilities.map Capability.declaration :=
        h.symm.registers.perm_capability_declarations.symm

theorem mem_capabilities_iff {cap : Capability} : cap ∈ c.capabilities ↔ cap ∈ c'.capabilities :=
  ⟨fun hcap => h.capabilities_subset hcap, fun hcap => h.symm.capabilities_subset hcap⟩

/-- The same preferences are dropped, because the same capabilities are known. -/
theorem effective_eq : KindDeclaration.effective (Capability.names c.capabilities) =
    KindDeclaration.effective (Capability.names c'.capabilities) := by
  have hnames (n : String) :
      n ∈ Capability.names c.capabilities ↔ n ∈ Capability.names c'.capabilities := by
    simp only [Capability.names, List.mem_map, h.mem_capabilities_iff]
  funext d
  simp only [KindDeclaration.effective, contains_congr hnames]

theorem kinds_subset : c.kinds ⊆ c'.kinds := by
  have hc' := h.symm.built.wellFormed
  have hlineages := h.built.wellFormed.lineages.mono h.capabilities_subset
  apply hlineages.subset_of_declarations hc'.hierarchy hc'.lineages
  · intro k hk k' hk'
    rw [h.built.provenance k hk, h.symm.built.provenance k' hk']
  · apply List.Perm.subset
    calc c.kinds.map Kind.declaration
        ~ base.declarations.kinds ++
            l.kinds.map (KindDeclaration.effective (Capability.names c.capabilities)) :=
          h.registers.perm_kind_declarations
      _ ~ base.declarations.kinds ++
            l'.kinds.map (KindDeclaration.effective (Capability.names c'.capabilities)) :=
          h.effective_eq ▸ (h.rearranges.kinds.map _).append_left _
      _ ~ c'.kinds.map Kind.declaration := h.symm.registers.perm_kind_declarations.symm

theorem mem_kinds_iff {k : Kind} : k ∈ c.kinds ↔ k ∈ c'.kinds :=
  ⟨fun hk => h.kinds_subset hk, fun hk => h.symm.kinds_subset hk⟩

end Counterparts

theorem perm_behind {α : Type} {base xs ys new new' : List α} (hxs : xs = base ++ new)
    (hys : ys = base ++ new') (hxnodup : xs.Nodup) (hynodup : ys.Nodup)
    (h : ∀ a, a ∈ xs ↔ a ∈ ys) : new.Perm new' := by
  subst hxs hys
  rw [← List.perm_append_left_iff base]
  exact (List.perm_ext_iff_of_nodup hxnodup hynodup).mpr h

/-- The catalogs define the same under each name, and list the same behind the base, each in an
order of its own. -/
structure SameDefinitions (base c c' : Catalog) : Prop where
  settings_eq : c.settings = c'.settings
  capability?_eq : ∀ name, c.capability? name = c'.capability? name
  kind?_eq : ∀ name, c.kind? name = c'.kind? name
  described_eq : ∀ calls calls' name, c.answerAfter calls (.describeNamed name) =
    c'.answerAfter calls' (.describeNamed name)
  capabilities_perm : ∃ new new', c.capabilities = base.capabilities ++ new ∧
    c'.capabilities = base.capabilities ++ new' ∧ new.Perm new'
  kinds_perm : ∃ new new', c.kinds = base.kinds ++ new ∧ c'.kinds = base.kinds ++ new' ∧
    new.Perm new'

theorem Counterparts.sameDefinitions {base c c' : Catalog} {l l' : Layer}
    (h : Counterparts base c c' l l') : SameDefinitions base c c' := by
  have hc := h.built.wellFormed
  have hc' := h.symm.built.wellFormed
  have hkind : ∀ name, c.kind? name = c'.kind? name := by
    intro name
    apply Option.ext
    intro k
    rw [hc.kind?_eq_some_iff, hc'.kind?_eq_some_iff, h.mem_kinds_iff]
  exact
    { settings_eq := by
        rw [(layered_of_addLayer h.left).settings_eq, (layered_of_addLayer h.right).settings_eq,
          h.rearranges.settings_eq]
      capability?_eq := by
        intro name
        apply Option.ext
        intro cap
        rw [hc.capability?_eq_some_iff, hc'.capability?_eq_some_iff, h.mem_capabilities_iff]
      kind?_eq := hkind
      described_eq := by
        intro calls calls' name
        rw [answerAfter_describeNamed, answerAfter_describeNamed, named, named, hkind]
      capabilities_perm := by
        obtain ⟨new, hnew, -⟩ := h.registers.capabilities
        obtain ⟨new', hnew', -⟩ := h.symm.registers.capabilities
        exact ⟨new, new', hnew, hnew', perm_behind hnew hnew' hc.hierarchy.nodup_names.of_map
          hc'.hierarchy.nodup_names.of_map fun _ => h.mem_capabilities_iff⟩
      kinds_perm := by
        obtain ⟨new, hnew, -⟩ := h.registers.kinds
        obtain ⟨new', hnew', -⟩ := h.symm.registers.kinds
        exact ⟨new, new', hnew, hnew', perm_behind hnew hnew' hc.lineages.nodup_names.of_map
          hc'.lineages.nodup_names.of_map fun _ => h.mem_kinds_iff⟩ }

/-- A layer is accepted exactly if any rearrangement of it is, and then both define the same. -/
theorem addLayer_rearranges {base : Catalog} (hbase : base.Built) {l l' : Layer}
    (h : l.Rearranges l') :
    ((∃ c, (base.addLayer l).run.value = .ok c) ↔ ∃ c', (base.addLayer l').run.value = .ok c') ∧
      ∀ c c', (base.addLayer l).run.value = .ok c → (base.addLayer l').run.value = .ok c' →
        SameDefinitions base c c' := by
  refine ⟨⟨?_, ?_⟩, ?_⟩
  · rintro ⟨c, hc⟩
    exact exists_addLayer_of_rearranges hbase.wellFormed h hc
  · rintro ⟨c', hc'⟩
    exact exists_addLayer_of_rearranges hbase.wellFormed h.symm hc'
  · intro c c' hc hc'
    exact Counterparts.sameDefinitions ⟨hbase, h, hc, hc'⟩

def trackLayer : Layer where
  settings := some ⟨true, true⟩
  capabilities := [⟨"Ranked", ["Graded", "Boxed"], none⟩, ⟨"Boxed", [], none⟩,
    ⟨"Graded", ["Comparable"], none⟩]
  kinds := [⟨"Track", some "Lane", ["Ranked"], some "Boxed", none⟩,
    ⟨"Crate", none, ["Boxed"], none, none⟩, ⟨"Lane", some "Whole", ["Graded"], none, none⟩]

def trackLayerReversed : Layer where
  settings := trackLayer.settings
  capabilities := trackLayer.capabilities.reverse
  kinds := trackLayer.kinds.reverse

theorem rearranges_trackLayer : trackLayer.Rearranges trackLayerReversed where
  settings_eq := rfl
  capabilities := (List.reverse_perm _).symm
  kinds := (List.reverse_perm _).symm

def kindNamesOf (base : Catalog) (layer : Layer) : Except Catalog.Error (List String) :=
  (base.addLayer layer).run.value.map fun c => c.kinds.map Kind.name

/-- Accepted in both orders, the kinds are registered in different ones. -/
theorem addLayer_rearranges_track :
    builtin.Built ∧ trackLayer.Rearranges trackLayerReversed ∧
      ∃ c c', (builtin.addLayer trackLayer).run.value = .ok c ∧
        (builtin.addLayer trackLayerReversed).run.value = .ok c' ∧ SameDefinitions builtin c c' ∧
        c.kinds.map Kind.name = ["Whole", "Real", "Text", "Flag", "Lane", "Track", "Crate"] ∧
        c'.kinds.map Kind.name = ["Whole", "Real", "Text", "Flag", "Lane", "Crate", "Track"] := by
  have hnames : kindNamesOf builtin trackLayer =
      .ok ["Whole", "Real", "Text", "Flag", "Lane", "Track", "Crate"] := by cbv
  have hnames' : kindNamesOf builtin trackLayerReversed =
      .ok ["Whole", "Real", "Text", "Flag", "Lane", "Crate", "Track"] := by cbv
  obtain ⟨c, hc, hnames⟩ := Result.ok_of_map hnames
  obtain ⟨c', hc', hnames'⟩ := Result.ok_of_map hnames'
  have hsame := (addLayer_rearranges Built.builtin rearranges_trackLayer).2 c c' hc hc'
  exact ⟨Built.builtin, rearranges_trackLayer, c, c', hc, hc', hsame, hnames, hnames'⟩

end Catalog

end ColumnTypes
