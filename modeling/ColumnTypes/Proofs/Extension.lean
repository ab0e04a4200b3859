import ColumnTypes.Proofs.Caches
import ColumnTypes.Proofs.Metadata

namespace ColumnTypes.Catalog

/-!
# Extensions

A layer only adds to a catalog. What the base registers keeps its name and its
definition, so whatever a registry over the base can answer about it, registries
over the extension answer alike: a new kind or capability can make a name known
or a codec fit, but never the other way round.
-/

/-- Everything of the base is listed first, in the same order. -/
structure Extends (c base : Catalog) : Prop where
  capabilities : base.capabilities <+: c.capabilities
  kinds : base.kinds <+: c.kinds

theorem Resolved.extends {base c : Catalog} {layer : Layer} (h : Resolved base layer c) :
    c.Extends base where
  capabilities := (CapabilityDeclaration.resolveAll_grown h.capabilities_resolved).1.kept
  kinds := (KindDeclaration.resolveAll_grown h.kinds_resolved).1.kept

theorem Extends.refl (c : Catalog) : c.Extends c := ⟨List.prefix_rfl, List.prefix_rfl⟩

theorem Extends.trans {a b c : Catalog} (hcb : c.Extends b) (hba : b.Extends a) : c.Extends a where
  capabilities := hba.capabilities.trans hcb.capabilities
  kinds := hba.kinds.trans hcb.kinds

/-- The catalog is made of the base by one layer. -/
def Layers (base c : Catalog) : Prop := ∃ layer, (base.addLayer layer).run.value = .ok c

theorem extends_of_layers {base c : Catalog} (h : Relation.ReflTransGen Layers base c) :
    c.Extends base := by
  induction h with
  | refl => exact Extends.refl base
  | tail _ hlast ih =>
      obtain ⟨layer, hlayer⟩ := hlast
      exact (layered_of_addLayer hlayer).extends.trans ih

theorem Built.layers {base c : Catalog} (hbase : base.Built)
    (h : Relation.ReflTransGen Layers base c) : c.Built := by
  induction h with
  | refl => exact hbase
  | tail _ hlast ih =>
      obtain ⟨layer, hlayer⟩ := hlast
      exact Built.layer ih hlayer

namespace Extends

variable {base c : Catalog} (h : c.Extends base)
include h

/-! ## Names -/

theorem capability?_eq_some (hc : c.WellFormed) {name : String} {cap : Capability}
    (hcap : base.capability? name = some cap) : c.capability? name = some cap := by
  obtain rfl := Named.name_of_find? hcap
  exact hc.capability?_name (h.capabilities.subset (Named.mem_of_find? hcap))

theorem kind?_eq_some (hc : c.WellFormed) {name : String} {k : Kind}
    (hk : base.kind? name = some k) : c.kind? name = some k := by
  obtain rfl := Named.name_of_find? hk
  exact hc.kind?_name (h.kinds.subset (Named.mem_of_find? hk))

/-! ## Descriptors -/

theorem named_eq_ok (hc : c.WellFormed) {name : String} {t : Descriptor}
    (ht : base.named name = .ok t) : c.named name = .ok t := by
  refine named_eq_ok_iff.mpr ((named_eq_ok_iff.mp ht).imp_right ?_)
  rintro ⟨hname, k, hk, rfl⟩
  exact ⟨hname, k, h.kind?_eq_some hc hk, rfl⟩

theorem resolveNames_eq_ok (hc : c.WellFormed) {ns : List String} {cs : List Capability}
    (hcs : base.resolveNames ns = .ok cs) : c.resolveNames ns = .ok cs :=
  resolveNames_eq_ok_iff.mpr
    ((resolveNames_eq_ok_iff.mp hcs).imp fun _ _ => h.capability?_eq_some hc)

theorem loadList_eq_ok (hc : c.WellFormed) {tree : Config} {t : Descriptor}
    (ht : base.loadList tree = .ok t) : c.loadList tree = .ok t := by
  obtain ⟨flag, hflag, ns, hns, cs, hcs, hlist⟩ := loadList_eq_ok_iff.mp ht
  exact loadList_eq_ok_iff.mpr ⟨flag, hflag, ns, hns, cs, h.resolveNames_eq_ok hc hcs, hlist⟩

theorem loaded_eq_ok (hc : c.WellFormed) {tree : Config} {t : Descriptor}
    (ht : base.loaded tree = .ok t) : c.loaded tree = .ok t := by
  rcases loaded_eq_ok_iff.mp ht with ⟨hnull, ht⟩ | ⟨name, hname, ht⟩
  · exact loaded_eq_ok_iff.mpr (Or.inl ⟨hnull, h.loadList_eq_ok hc ht⟩)
  · exact loaded_eq_ok_iff.mpr (Or.inr ⟨name, hname, h.named_eq_ok hc ht⟩)

/-! ## Codecs -/

theorem codecFits (hbase : base.WellFormed) (hc : c.WellFormed) {k : Kind} {target : String}
    (hfits : base.codecFits k target = true) : c.codecFits k target = true := by
  refine hc.codecFits_iff.mpr ((hbase.codecFits_iff.mp hfits).imp_right ?_)
  rintro ⟨other, hmem, hother⟩
  exact ⟨other, h.kinds.subset hmem, hother⟩

theorem declaredCodec_eq_some (hbase : base.WellFormed) (hc : c.WellFormed) {k : Kind}
    {codec : Codec} (hk : (base.declaredCodec k).value = some codec) :
    (c.declaredCodec k).value = some codec := by
  obtain ⟨hown, hfits⟩ := declaredCodec_eq_some_iff.mp hk
  exact declaredCodec_eq_some_iff.mpr ⟨hown, h.codecFits hbase hc hfits⟩

/-! ## Metadata -/

/-- The bundles of registered capabilities are their own, in any catalog that registers them. -/
theorem answerAfter_metadata (hbase : base.WellFormed) (hc : c.WellFormed)
    {calls calls' : List Call} (hcalls : ∀ call ∈ calls, base.IsOwn call)
    (hcalls' : ∀ call ∈ calls', c.IsOwn call) {call : Call} (hasks : call.asksMetadata = true)
    (hown : base.IsOwn call) : c.answerAfter calls' call = base.answerAfter calls call := by
  have hlookups : call.lookups ⊆ base.capabilities := Call.lookups_eq_handles hasks ▸ hown
  have hbefore := hbase.answer?_bundles hcalls hasks hlookups
  have hafter := hc.answer?_bundles hcalls' hasks
    (List.Subset.trans hlookups h.capabilities.subset)
  exact Option.some.inj (hafter.symm.trans hbefore)

end Extends

/-- Whatever was asked before, registries over `c` answer about what `base` registers as those over
`base` do. Where bundles are looked up, only registered capabilities may have been asked about. -/
structure Conserves (c base : Catalog) : Prop where
  capability? : ∀ name cap, base.capability? name = some cap → c.capability? name = some cap
  kind? : ∀ name k, base.kind? name = some k → c.kind? name = some k
  describe : ∀ calls calls', ∀ k ∈ base.kinds,
    c.answerAfter calls' (.describe k) = base.answerAfter calls (.describe k) ∧
      c.answerAfter calls' (.describeNamed k.name) = base.answerAfter calls (.describe k)
  metadata : ∀ calls calls', (∀ call ∈ calls, base.IsOwn call) → (∀ call ∈ calls', c.IsOwn call) →
    ∀ t : Descriptor, t.capabilities ⊆ base.capabilities →
      c.answerAfter calls' (.order t) = base.answerAfter calls (.order t) ∧
        c.answerAfter calls' (.icon t) = base.answerAfter calls (.icon t) ∧
        ∀ column, c.answerAfter calls' (.renderers t column) =
          base.answerAfter calls (.renderers t column)
  load : ∀ calls calls' tree t,
    base.loadedAfter calls tree = .ok t → c.loadedAfter calls' tree = .ok t
  codec : ∀ calls calls' k codec, base.answerAfter calls (.codec k) = .codec (some codec) →
    c.answerAfter calls' (.codec k) = .codec (some codec)

theorem Extends.conserves {base c : Catalog} (h : c.Extends base) (hbase : base.WellFormed)
    (hc : c.WellFormed) : c.Conserves base where
  capability? _ _ := h.capability?_eq_some hc
  kind? _ _ := h.kind?_eq_some hc
  describe := by
    intro calls calls' k hk
    rw [answerAfter_describe, answerAfter_describe, answerAfter_describeNamed]
    have hnamed : c.named k.name = .ok (Descriptor.ofKind k) :=
      named_eq_ok_iff.mpr (Or.inr ⟨hbase.name_ne_missingKind hk, k,
        hc.kind?_name (h.kinds.subset hk), rfl⟩)
    exact ⟨rfl, by rw [hnamed]⟩
  metadata := by
    intro calls calls' hcalls hcalls' t ht
    have hanswer : ∀ call : Call, call.asksMetadata = true → call.handles = t.capabilities →
        c.answerAfter calls' call = base.answerAfter calls call := by
      intro call hasks hhandles
      apply h.answerAfter_metadata hbase hc hcalls hcalls' hasks
      rw [IsOwn, hhandles]
      exact ht
    exact ⟨hanswer _ rfl rfl, hanswer _ rfl rfl, fun column => hanswer _ rfl rfl⟩
  load := by
    intro calls calls' tree t ht
    rw [loadedAfter_eq] at ht ⊢
    exact h.loaded_eq_ok hc ht
  codec := by
    intro calls calls' k codec hk
    rw [answerAfter_codec] at hk ⊢
    rw [h.declaredCodec_eq_some hbase hc (Answer.codec.inj hk)]

theorem conserves_of_layers {base c : Catalog} (hbase : base.Built)
    (h : Relation.ReflTransGen Layers base c) : c.Conserves base :=
  (extends_of_layers h).conserves hbase.wellFormed (hbase.layers h).wellFormed

/-- A layer that is accepted changes nothing about what the base registers. -/
theorem conserves_of_addLayer {base c : Catalog} {layer : Layer} (hbase : base.Built)
    (h : (base.addLayer layer).run.value = .ok c) : c.Conserves base :=
  conserves_of_layers hbase (Relation.ReflTransGen.single ⟨layer, h⟩)

/-! ## A kind below a registered one -/

def grade : Capability := .mk "Grade" none [.numeric]

def gradingLayer : Layer where
  settings := some ⟨true, false⟩
  capabilities := [⟨"Grade", ["Numeric"], none⟩]
  kinds := [⟨"Mark", some "Whole", ["Grade"], some "Grade", some (.transcript "Mark")⟩]

def mark : Kind :=
  ⟨⟨"Mark", .catalog, [grade], some grade, some (.transcript "Mark")⟩, Kind.whole.lineage⟩

def grading : Catalog where
  capabilities := builtin.capabilities ++ [grade]
  kinds := builtin.kinds ++ [mark]
  settings := ⟨true, false⟩

/-- A descriptor that was saved before there were marks is loaded after them. -/
theorem conserves_of_addLayer_grading :
    builtin.Built ∧ (builtin.addLayer gradingLayer).run.value = .ok grading ∧
      grading.loadedAfter [.describe mark] ((Descriptor.ofKind .whole).save Config.empty) =
        .ok (Descriptor.ofKind .whole) ∧
      grading.answerAfter [.describe mark, .codec mark] (.codec .whole) = .codec (some .whole) ∧
      grading.answerAfter [.describe mark, .icon (Descriptor.ofKind mark)]
        (.icon (Descriptor.ofKind .whole)) = .icon "numeric" := by
  have hlayer : (builtin.addLayer gradingLayer).run.value = .ok grading := by cbv
  have hconserves := conserves_of_addLayer Built.builtin hlayer
  have hloaded : builtin.loadedAfter [] ((Descriptor.ofKind .whole).save Config.empty) =
      .ok (Descriptor.ofKind .whole) := rfl
  have hasked : ∀ call ∈ [Call.describe mark, .icon (Descriptor.ofKind mark)],
      grading.IsOwn call := by decide
  obtain ⟨-, hicon, -⟩ := hconserves.metadata [] _ (List.forall_mem_nil _) hasked
    (Descriptor.ofKind .whole) (by decide)
  exact ⟨Built.builtin, hlayer, hconserves.load [] _ _ _ hloaded,
    hconserves.codec [] _ _ _ rfl, hicon⟩

end ColumnTypes.Catalog
