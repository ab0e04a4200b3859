import ColumnTypes.Inspect.Run
import ColumnTypes.Proofs.Metadata
import ColumnTypes.Proofs.Reach

namespace ColumnTypes

/-!
# What commands report

All questions of a command are put to one registry. Each of them leaves a memo
about registered kinds and capabilities behind, and over such a memo the next
one is answered by the catalog alone. So a command reports what the catalog and
the arguments determine.
-/

open Memo (Own)

variable {c : Catalog} {t : Descriptor}

/-! ## Descriptors of a catalog -/

theorem Catalog.Describes.of_named {name : String} (h : c.named name = .ok t) :
    c.Describes t ∧ t.label = name := by
  rcases named_eq_ok_iff.mp h with ⟨rfl, rfl⟩ | ⟨-, k, hk, rfl⟩
  · exact ⟨.missing, rfl⟩
  · have hname : k.name = name := Named.name_of_find? hk
    exact ⟨.ofKind (Named.mem_of_find? hk), hname⟩

theorem Catalog.Describes.of_loaded {tree : Config} (h : c.loaded tree = .ok t) :
    c.Describes t :=
  @Descriptor.Obtainable.loaded (· ∈ c.kinds) (· ∈ c.capabilities) (· = c) c rfl [] tree t
    ((c.loadedAfter_eq [] tree).trans h)

namespace Inspect

/-! ## Descriptions -/

/-- Renderers are named by their kind, which no column changes. -/
theorem description_rendererFor (b : Bundle) (column column' : Column) :
    (b.rendererFor column).value.map Renderer.description =
      (b.rendererFor column').value.map Renderer.description := by
  unfold Bundle.rendererFor
  cases b.renderer with
  | none => rfl
  | some rule => cases rule <;> rfl

theorem descriptions_ofList {rs rs' : List Renderer}
    (h : rs.map Renderer.description = rs'.map Renderer.description) :
    (Renderers.ofList rs).descriptions = (Renderers.ofList rs').descriptions := by
  cases rs with
  | nil =>
      obtain rfl := List.map_eq_nil_iff.mp h.symm
      rfl
  | cons r rs =>
      cases rs' with
      | nil => cases h
      | cons r' rs' => exact h

theorem descriptions_renderers (bs : List Bundle) (column column' : Column) :
    ((Metadata.ofBundles bs).renderers column).descriptions =
      ((Metadata.ofBundles bs).renderers column').descriptions := by
  apply descriptions_ofList
  rw [List.map_filterMap, List.map_filterMap]
  simp only [description_rendererFor _ column column']

/-- The metadata that the bundles of the capabilities make up. -/
def metadataOf (t : Descriptor) : Metadata :=
  Metadata.ofBundles (t.capabilities.map Capability.bundle)

/-- The line on the codec, as the catalog alone determines it. -/
def codecLine (c : Catalog) (t : Descriptor) : List String :=
  match t.kind? with
  | none => []
  | some k => ["serializer:   " ++ ((c.declaredCodec k).value.map Codec.reportName).getD "none"]

/-- What a description says before the saved tree, as the catalog alone determines it. -/
def frontLines (c : Catalog) (t : Descriptor) : List String :=
  ["type:         " ++ t.label,
    "native:       " ++ Value.flagText t.isBound,
    "capabilities: " ++ starred t,
    "icon:         " ++ (metadataOf t).icon,
    "comparator:   " ++ (metadataOf t).order.reportName,
    "renderers:    " ++
      ", ".intercalate ((metadataOf t).renderers (Column.named "")).descriptions] ++ codecLine c t

/-- The description of a descriptor, as the catalog alone determines it. -/
def described (c : Catalog) (t : Descriptor) : String :=
  lines (frontLines c t ++ ["saved:", (t.save Config.empty).toJson])

section

variable {m : Memo} (hm : Own c m) (hc : c.WellFormed)
include hm hc

theorem codecLines_spec (t : Descriptor) :
    (codecLines c t m).value.1 = codecLine c t ∧ Own c (codecLines c t m).value.2 := by
  unfold codecLines codecLine
  cases t.kind? with
  | none => exact ⟨rfl, hm⟩
  | some k =>
      have hown := (Own.invariant hc).codecOf k m hm
      rw [Query.value_bind, (Catalog.codecOf_spec hm.toFaithful k).1]
      exact ⟨rfl, hown⟩

variable (ht : t.capabilities ⊆ c.capabilities)
include ht

theorem iconOf_spec :
    (iconOf t m).value.1 = (metadataOf t).icon ∧ Own c (iconOf t m).value.2 :=
  ⟨(hm.gives_bundle hc ht).iconOf,
    (keeps_firstPart Bundle.icon fun _ hcap => Own.findBundle (ht hcap)).map _ m hm⟩

theorem orderOf_spec :
    (orderOf t m).value.1 = (metadataOf t).order ∧ Own c (orderOf t m).value.2 :=
  ⟨(hm.gives_bundle hc ht).orderOf,
    (keeps_firstPart Bundle.order fun _ hcap => Own.findBundle (ht hcap)).map _ m hm⟩

theorem renderersOf_spec (column : Column) :
    (renderersOf t column m).value.1 = (metadataOf t).renderers column ∧
      Own c (renderersOf t column m).value.2 :=
  ⟨(hm.gives_bundle hc ht).renderersOf column,
    (keeps_renderersFor column fun _ hcap => Own.findBundle (ht hcap)).map _ m hm⟩

/-- Whatever the registry was asked before about registered things, it gives the same description
of a descriptor of the catalog, for any column. -/
theorem description_spec (column : Column) :
    (description c t column m).value.1 = described c t ∧
      Own c (description c t column m).value.2 := by
  obtain ⟨hicon, h₁⟩ := iconOf_spec hm hc ht
  obtain ⟨horder, h₂⟩ := orderOf_spec h₁ hc ht
  obtain ⟨hrenderers, h₃⟩ := renderersOf_spec h₂ hc ht column
  obtain ⟨hcodec, h₄⟩ := codecLines_spec h₃ hc t
  refine ⟨?_, h₄⟩
  have hcolumn := descriptions_renderers (t.capabilities.map Capability.bundle) column
    (Column.named "")
  rw [← metadataOf] at hcolumn
  unfold description
  simp only [Query.value_bind, hicon, horder, hrenderers, hcodec, hcolumn]
  rfl

end

/-! ## Steps of a command -/

/-- Over a memo about registered things, the task succeeds with what `R` says and with nothing
else, and it leaves such a memo. -/
structure Task.Yields {α : Type} (c : Catalog) (x : Task α) (R : α → Prop) : Prop where
  own : ∀ {m}, Own c m → Own c (x.run m).value.2
  eq_ok_iff : ∀ {m}, Own c m → ∀ {a}, (x.run m).value.1 = .ok a ↔ R a

namespace Task

variable {α β : Type}

theorem value_bind (x : Task α) (f : α → Task β) (m : Memo) :
    ((x >>= f).run m).value =
      match (x.run m).value.1 with
      | .ok a => ((f a).run (x.run m).value.2).value
      | .error e => (.error e, (x.run m).value.2) := by
  have hstep : ((x >>= f).run m).value =
      (ExceptT.bindCont f (x.run m).value.1 (x.run m).value.2).value := rfl
  rw [hstep]
  cases (x.run m).value.1 <;> rfl

namespace Yields

theorem bind {x : Task α} {f : α → Task β} {R : α → Prop} {S : α → β → Prop}
    (hx : Yields c x R) (hf : ∀ a, R a → Yields c (f a) (S a)) :
    Yields c (x >>= f) fun b => ∃ a, R a ∧ S a b where
  own := by
    intro m hm
    rw [value_bind]
    cases ha : (x.run m).value.1 with
    | error e => exact hx.own hm
    | ok a => exact (hf a ((hx.eq_ok_iff hm).mp ha)).own (hx.own hm)
  eq_ok_iff := by
    intro m hm b
    rw [value_bind]
    cases ha : (x.run m).value.1 with
    | error e =>
        refine ⟨nofun, ?_⟩
        rintro ⟨a, hR, -⟩
        cases ha.symm.trans ((hx.eq_ok_iff hm).mpr hR)
    | ok a =>
        have hR := (hx.eq_ok_iff hm).mp ha
        refine ((hf a hR).eq_ok_iff (hx.own hm)).trans ⟨fun hb => ⟨a, hR, hb⟩, ?_⟩
        rintro ⟨a', hR', hb⟩
        obtain rfl := Except.ok.inj (ha.symm.trans ((hx.eq_ok_iff hm).mpr hR'))
        exact hb

theorem pure (a : α) : Yields c (pure a : Task α) fun b => a = b where
  own hm := hm
  eq_ok_iff _ := ⟨Except.ok.inj, congrArg Except.ok⟩

theorem ofExcept (x : Except Failure α) : Yields c (ofExcept x) fun a => x = .ok a where
  own hm := hm
  eq_ok_iff _ := Iff.rfl

theorem mapError {ε : Type} (x : Except ε α) (f : ε → Failure) :
    Yields c (Task.ofExcept (x.mapError f)) fun a => x = .ok a where
  own hm := hm
  eq_ok_iff _ := Result.mapError_eq_ok_iff

theorem ofQuery {q : FallibleQuery α} {x : Except Descriptor.Error α}
    (hq : ∀ m, Own c m → (q.run m).value.1 = x ∧ Own c (q.run m).value.2) :
    Yields c (ofQuery q) fun a => x = .ok a where
  own hm := (hq _ hm).2
  eq_ok_iff := by
    intro m hm a
    rw [← (hq m hm).1]
    exact Result.mapError_eq_ok_iff

theorem lift {q : Query α} {a : α}
    (hq : ∀ m, Own c m → (q m).value.1 = a ∧ Own c (q m).value.2) :
    Yields c (ExceptT.lift q) fun b => a = b where
  own hm := (hq _ hm).2
  eq_ok_iff := by
    intro m hm b
    rw [← (hq m hm).1]
    exact ⟨Except.ok.inj, congrArg Except.ok⟩

end Yields

end Task

/-! ## Commands -/

section

variable (hc : c.WellFormed)
include hc

theorem yields_named (name : String) :
    Task.Yields c (.ofQuery (c.descriptorNamed name)) fun t => c.named name = .ok t :=
  .ofQuery fun m hm => ⟨(Catalog.descriptorNamed_spec hm.toFaithful name).1,
    (Own.invariant hc).descriptorNamed name m hm⟩

theorem yields_loaded (tree : Config) :
    Task.Yields c (.ofQuery (c.load tree)) fun t => c.loaded tree = .ok t :=
  .ofQuery fun m hm => ⟨(Catalog.load_spec hm.toFaithful tree).1,
    (Own.invariant hc).load tree m hm⟩

theorem yields_description (ht : c.Describes t) (column : Column) :
    Task.Yields c (ExceptT.lift (description c t column)) fun output => described c t = output :=
  .lift fun _ hm => description_spec hm hc (ht.capabilities_subset hc) column

theorem yields_typeReport (name : String) (properties : List String) :
    Task.Yields c (typeReport c name properties) fun output =>
      ∃ t, c.named name = .ok t ∧
        ∃ column, columnOf (Column.named name) properties = .ok column ∧ described c t = output :=
  (yields_named hc name).bind fun _ ht => (Task.Yields.ofExcept _).bind fun column _ =>
    yields_description hc (Catalog.Describes.of_named ht).1 column

theorem yields_meetReport (a b : String) :
    Task.Yields c (meetReport c a b) fun output =>
      ∃ t, c.named a = .ok t ∧ ∃ u, c.named b = .ok u ∧ ∃ report, described c (t.merge u) = report ∧
        lines [t.label ++ " ^ " ++ u.label] ++ report = output := by
  refine (yields_named hc a).bind fun t ht => (yields_named hc b).bind fun u hu => ?_
  have hmeet : c.Describes (t.merge u) :=
    .merge (Catalog.Describes.of_named ht).1 (Catalog.Describes.of_named hu).1
  exact (yields_description hc hmeet _).bind fun report _ => Task.Yields.pure _

theorem yields_loadReport (files : FileReader) (path : String) :
    Task.Yields c (loadReport files c path) fun output =>
      ∃ text, readText files path = .ok text ∧ ∃ tree, Config.ofJson text = .ok tree ∧
        ∃ t, c.loaded tree = .ok t ∧ described c t = output :=
  (Task.Yields.mapError _ _).bind fun _ _ => (Task.Yields.mapError _ _).bind fun tree _ =>
    (yields_loaded hc tree).bind fun _ ht =>
      yields_description hc (Catalog.Describes.of_loaded ht) _

end

end Inspect

end ColumnTypes
