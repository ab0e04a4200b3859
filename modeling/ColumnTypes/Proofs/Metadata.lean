import ColumnTypes.Proofs.History
import ColumnTypes.Proofs.Preorder

namespace ColumnTypes

/-!
# Metadata

The order, the icon and the renderers of a descriptor come from the bundles that
its capabilities give when they are looked up one after the other. The bundles
that are kept come from the capabilities that were looked up before. If these
are all registered, every answer is the one that the hierarchy alone determines.

Which orders and renderers there are makes no difference here. Lookups carry
bundles about without a look inside, and a part of them is read by a function
that stands for any part.
-/

/-- Asks for the order, the icon or the renderers of a descriptor. -/
def Catalog.Call.asksMetadata : Catalog.Call → Bool
  | .order _ | .icon _ | .renderers _ _ => true
  | _ => false

/-- What a column is sorted and shown by. -/
structure Metadata where
  order : ValueOrder
  icon : String
  renderers : Column → Renderers

namespace Metadata

/-- The first order, the first icon and all renderers that the bundles have. -/
def ofBundles (bs : List Bundle) : Metadata where
  order := (bs.findSome? Bundle.order).getD .text
  icon := (bs.findSome? Bundle.icon).getD Bundle.genericIcon
  renderers column := Renderers.ofList (bs.filterMap fun b => (b.rendererFor column).value)

/-- The answer to a call that asks for metadata. -/
def answer? (d : Metadata) : Catalog.Call → Option Catalog.Answer
  | .order _ => some (.order d.order)
  | .icon _ => some (.icon d.icon)
  | .renderers _ column => some (.renderers (d.renderers column))
  | _ => none

/-- Metadata are told apart by the answers about any one descriptor. -/
theorem ext_answer? {d d' : Metadata} (t : Descriptor)
    (horder : d.answer? (.order t) = d'.answer? (.order t))
    (hicon : d.answer? (.icon t) = d'.answer? (.icon t))
    (hrenderers : ∀ column, d.answer? (.renderers t column) = d'.answer? (.renderers t column)) :
    d = d' := by
  obtain ⟨order, icon, renderers⟩ := d
  obtain ⟨order', icon', renderers'⟩ := d'
  obtain rfl : order = order' := Catalog.Answer.order.inj (Option.some.inj horder)
  obtain rfl : icon = icon' := Catalog.Answer.icon.inj (Option.some.inj hicon)
  obtain rfl : renderers = renderers' :=
    funext fun column => Catalog.Answer.renderers.inj (Option.some.inj (hrenderers column))
  rfl

end Metadata

/-! ## Looking up bundles -/

namespace Memo

variable {m : Memo} {f : Capability → Bundle} {c : Capability} {cs : List Capability}

/-- The bundle that a lookup gives. -/
def bundleFor (m : Memo) (c : Capability) : Bundle := (m.bundle? c).getD c.bundle

theorem findBundle_value (m : Memo) (c : Capability) :
    (findBundle c m).value.1 = m.bundleFor c := by
  rw [findBundle, bundleFor]
  cases m.bundle? c <;> rfl

theorem bundle?_findBundle (m : Memo) (c d : Capability) :
    (findBundle c m).value.2.bundle? d =
      if d.name = c.name then some (m.bundleFor c) else m.bundle? d := by
  rw [findBundle, bundleFor]
  cases hc : m.bundle? c with
  | some b =>
      change m.bundle? d = _
      by_cases h : d.name = c.name
      · have hname : m.bundle? d = m.bundle? c := by rw [bundle?, bundle?, h]
        rw [if_pos h, hname, hc]
        rfl
      · rw [if_neg h]
  | none =>
      change (m.keepBundle c c.bundle).bundle? d = _
      rw [bundle?, keepBundle, List.lookup_cons]
      by_cases h : d.name = c.name
      · rw [if_pos h, beq_iff_eq.mpr h]
        rfl
      · rw [if_neg h, beq_false_of_ne h]
        rfl

/-- Looked up one after the other, the capabilities give what `f` says. -/
structure Gives (m : Memo) (f : Capability → Bundle) (cs : List Capability) : Prop where
  bundleFor_eq : ∀ c ∈ cs, m.bundleFor c = f c
  eq_of_name_eq : ∀ c ∈ cs, ∀ d ∈ cs, c.name = d.name → f c = f d

namespace Gives

theorem congr {g : Capability → Bundle} (h : m.Gives f cs) (hfg : ∀ c ∈ cs, f c = g c) :
    m.Gives g cs where
  bundleFor_eq c hc := (h.bundleFor_eq c hc).trans (hfg c hc)
  eq_of_name_eq c hc d hd hname := by
    rw [← hfg c hc, ← hfg d hd, h.eq_of_name_eq c hc d hd hname]

theorem findBundle (h : m.Gives f (c :: cs)) : (findBundle c m).value.2.Gives f cs where
  bundleFor_eq := by
    intro d hd
    have hmem := List.mem_cons_of_mem c hd
    rw [bundleFor, bundle?_findBundle]
    split
    · rename_i hname
      rw [Option.getD_some, h.bundleFor_eq c List.mem_cons_self]
      exact h.eq_of_name_eq c List.mem_cons_self d hmem hname.symm
    · exact h.bundleFor_eq d hmem
  eq_of_name_eq d hd e he :=
    h.eq_of_name_eq d (List.mem_cons_of_mem c hd) e (List.mem_cons_of_mem c he)

theorem firstPart {α : Type} (h : m.Gives f cs) (part : Bundle → Option α) :
    (firstPart part cs m).value.1 = (cs.map f).findSome? part := by
  induction cs generalizing m with
  | nil => rfl
  | cons c cs ih =>
      have hc := h.bundleFor_eq c List.mem_cons_self
      rw [ColumnTypes.firstPart, Query.value_bind, findBundle_value, hc, List.map_cons,
        List.findSome?_cons]
      cases part (f c) with
      | some a => rfl
      | none => exact ih h.findBundle

theorem renderersFor (h : m.Gives f cs) (column : Column) :
    (renderersFor column cs m).value.1 =
      (cs.map f).filterMap fun b => (b.rendererFor column).value := by
  induction cs generalizing m with
  | nil => rfl
  | cons c cs ih =>
      have hstep : (ColumnTypes.renderersFor column (c :: cs) m).value.1 =
          ((ColumnTypes.findBundle c m).value.1.rendererFor column).value.toList ++
            (ColumnTypes.renderersFor column cs (ColumnTypes.findBundle c m).value.2).value.1 := rfl
      rw [hstep, findBundle_value, h.bundleFor_eq c List.mem_cons_self, ih h.findBundle,
        List.map_cons, List.filterMap_cons]
      cases ((f c).rendererFor column).value <;> rfl

section

variable {t : Descriptor} (h : m.Gives f t.capabilities)
include h

theorem orderOf : (orderOf t m).value.1 = (Metadata.ofBundles (t.capabilities.map f)).order :=
  congrArg (fun order => order.getD .text) (h.firstPart Bundle.order)

theorem iconOf : (iconOf t m).value.1 = (Metadata.ofBundles (t.capabilities.map f)).icon :=
  congrArg (fun icon => icon.getD Bundle.genericIcon) (h.firstPart Bundle.icon)

theorem renderersOf (column : Column) :
    (renderersOf t column m).value.1 =
      (Metadata.ofBundles (t.capabilities.map f)).renderers column :=
  congrArg Renderers.ofList (h.renderersFor column)

end

/-- What is asked about a descriptor is answered out of the bundles of its capabilities. -/
theorem answer {call : Catalog.Call} (h : m.Gives f call.lookups) (c : Catalog)
    (hasks : call.asksMetadata = true) :
    (Metadata.ofBundles (call.lookups.map f)).answer? call = some (c.answer call m).value.1 := by
  cases call with
  | order t => exact congrArg (fun o => some (Catalog.Answer.order o)) h.orderOf.symm
  | icon t => exact congrArg (fun i => some (Catalog.Answer.icon i)) h.iconOf.symm
  | renderers t column =>
      exact congrArg (fun rs => some (Catalog.Answer.renderers rs)) (h.renderersOf column).symm
  | describe | describeNamed | codec | load | discover | bundle => cases hasks

end Gives

/-! ## Where kept bundles come from -/

/-- Bundles are kept of capabilities with `S` only, under their names. -/
def KeptFrom (S : Capability → Prop) (m : Memo) : Prop :=
  Kept S Capability.name Capability.bundle m.bundles

namespace KeptFrom

variable {S : Capability → Prop}

theorem empty (S : Capability → Prop) : KeptFrom S Memo.empty := Kept.nil

theorem findBundle (hc : S c) : Query.Keeps (KeptFrom S) (findBundle c) := by
  intro m hm
  rw [ColumnTypes.findBundle]
  split
  · exact hm
  · exact Kept.cons hc hm

/-- A lookup gives the bundle of the capability or of another one with `S` of its name. -/
theorem exists_bundleFor_eq (hm : m.KeptFrom S) (c : Capability) :
    ∃ d, (S c → S d) ∧ d.name = c.name ∧ m.bundleFor c = d.bundle := by
  cases hkept : m.bundle? c with
  | none => exact ⟨c, id, rfl, by rw [bundleFor, hkept]; rfl⟩
  | some b =>
      obtain ⟨d, hd, hname, rfl⟩ := hm.of_lookup hkept
      exact ⟨d, fun _ => hd, hname, by rw [bundleFor, hkept]; rfl⟩

theorem invariant {c : Catalog}
    (hS : ∀ k ∈ c.kinds, ∀ cap ∈ k.discovery.capabilities, S cap) : c.Invariant (KeptFrom S) where
  findBundle k hk cap hcap := by
    apply KeptFrom.findBundle
    exact hS k (Named.mem_of_find? (Catalog.owns_iff.mp hk)) cap hcap
  keepDescriptor _ _ _ hm := hm
  keepCodec _ _ _ hm := hm

end KeptFrom

end Memo

/-! ## Registered capabilities -/

/-- The bundle of the first capability that declares one, the capability itself or the first of
its ancestors. -/
def Capability.inheritedBundle (c : Capability) : Bundle :=
  ((c :: c.ancestors).findSome? Capability.declaredBundle).getD Bundle.universal

theorem Capability.Hierarchy.bundle_eq_inheritedBundle {cs : List Capability}
    (hcs : Capability.Hierarchy cs) {c : Capability} (hc : c ∈ cs) :
    c.bundle = c.inheritedBundle := by
  rw [bundle, bundle?_eq_findSome?_preorder, inheritedBundle, hcs.findSome?_ancestors _ hc]

namespace Catalog

open Memo (KeptFrom)

/-- The capabilities that are handed over in the call. -/
def Call.handles : Call → List Capability
  | .describe k | .codec k | .discover k =>
      k.lineage.flatMap fun d => d.implements ++ d.preferred.toList
  | .order t | .icon t | .renderers t _ => t.capabilities
  | .bundle cap => [cap]
  | .describeNamed _ | .load _ => []

theorem Call.lookups_eq_handles {call : Call} (h : call.asksMetadata = true) :
    call.lookups = call.handles := by
  cases call with
  | order | icon | renderers => rfl
  | describe | describeNamed | codec | load | discover | bundle => cases h

/-- Whatever is looked up for a call is handed over or lies above what is handed over. -/
theorem Call.under_of_mem_lookups {call : Call} {cap : Capability} (h : cap ∈ call.lookups) :
    ∃ x ∈ call.handles, x.Under cap := by
  cases call with
  | order t | icon t | renderers t column | bundle x => exact ⟨cap, h, Capability.Under.refl cap⟩
  | discover k =>
      obtain ⟨x, hx, hcap⟩ := Capability.under_of_mem_closure h
      obtain ⟨d, hd, hx⟩ := List.mem_flatMap.mp hx
      exact ⟨x, List.mem_flatMap.mpr ⟨d, hd, List.mem_append_left _ hx⟩, hcap⟩
  | describe | describeNamed | codec | load => cases h

/-- Only registered capabilities are handed over in the call. -/
def IsOwn (c : Catalog) (call : Call) : Prop := ∀ cap ∈ call.handles, cap ∈ c.capabilities

instance (c : Catalog) (call : Call) : Decidable (c.IsOwn call) :=
  inferInstanceAs (Decidable (∀ cap ∈ call.handles, cap ∈ c.capabilities))

variable {c : Catalog}

/-- A call looks up nothing but what is registered, handed over, or above that. -/
theorem WellFormed.keeps_keptFrom (hc : c.WellFormed) {S : Capability → Prop}
    (hown : ∀ cap ∈ c.capabilities, S cap) (hup : ∀ cap, S cap → ∀ p ∈ cap.parents, S p)
    {call : Call} (hcall : ∀ cap ∈ call.handles, S cap) :
    Query.Keeps (KeptFrom S) (c.answer call) := by
  have habove : ∀ {x cap : Capability}, S x → x.Under cap → S cap := by
    intro x cap hx h
    induction h with
    | refl => exact hx
    | tail _ hp ih => exact hup _ ih _ hp
  apply (KeptFrom.invariant fun k hk cap hcap => hown cap (hc.discovery_mem hk cap hcap)).answer
  intro cap hcap
  obtain ⟨x, hx, hunder⟩ := Call.under_of_mem_lookups hcap
  exact KeptFrom.findBundle (habove (hcall x hx) hunder)

end Catalog

/-! ## Memos about registered capabilities -/

/-- All that is kept is about registered kinds and capabilities. -/
structure Memo.Own (c : Catalog) (m : Memo) : Prop extends Memo.Faithful c m where
  bundles : m.KeptFrom (· ∈ c.capabilities)

namespace Memo.Own

variable {c : Catalog} {m : Memo} {cs : List Capability}

theorem empty (c : Catalog) : Own c Memo.empty := ⟨Faithful.empty c, KeptFrom.empty _⟩

theorem findBundle {cap : Capability} (hcap : cap ∈ c.capabilities) :
    Query.Keeps (Own c) (findBundle cap) := fun m hm =>
  ⟨Faithful.findBundle c cap m hm.toFaithful, KeptFrom.findBundle hcap m hm.bundles⟩

theorem invariant (hc : c.WellFormed) : c.Invariant (Own c) where
  findBundle _ hk cap hcap :=
    findBundle (hc.discovery_mem (Named.mem_of_find? (Catalog.owns_iff.mp hk)) cap hcap)
  keepDescriptor k hk m hm :=
    ⟨(Faithful.invariant c).keepDescriptor k hk m hm.toFaithful, hm.bundles⟩
  keepCodec k hk m hm := ⟨(Faithful.invariant c).keepCodec k hk m hm.toFaithful, hm.bundles⟩

/-- Lookups of registered capabilities give their own bundles. -/
theorem gives_bundle (hm : Own c m) (hc : c.WellFormed) (hcs : cs ⊆ c.capabilities) :
    m.Gives Capability.bundle cs where
  bundleFor_eq := by
    intro cap hcap
    obtain ⟨d, hd, hname, heq⟩ := hm.bundles.exists_bundleFor_eq cap
    rw [heq, hc.hierarchy.eq_of_name_eq (hd (hcs hcap)) (hcs hcap) hname]
  eq_of_name_eq x hx y hy hname := by
    rw [hc.hierarchy.eq_of_name_eq (hcs hx) (hcs hy) hname]

theorem gives_inheritedBundle (hm : Own c m) (hc : c.WellFormed) (hcs : cs ⊆ c.capabilities) :
    m.Gives Capability.inheritedBundle cs :=
  (hm.gives_bundle hc hcs).congr fun _ hcap => hc.hierarchy.bundle_eq_inheritedBundle (hcs hcap)

/-- Whatever part is wanted, it is the first one that the capabilities have or inherit. -/
theorem firstPart_eq {α : Type} (hm : Own c m) (hc : c.WellFormed) (hcs : cs ⊆ c.capabilities)
    (part : Bundle → Option α) :
    (firstPart part cs m).value.1 = cs.findSome? fun cap => part cap.inheritedBundle := by
  rw [(hm.gives_inheritedBundle hc hcs).firstPart part, List.findSome?_map]
  rfl

theorem renderersFor_eq (hm : Own c m) (hc : c.WellFormed) (hcs : cs ⊆ c.capabilities)
    (column : Column) :
    (renderersFor column cs m).value.1 =
      cs.filterMap fun cap => (cap.inheritedBundle.rendererFor column).value := by
  rw [(hm.gives_inheritedBundle hc hcs).renderersFor column, List.filterMap_map]
  rfl

end Memo.Own

namespace Catalog

variable {c : Catalog}

theorem WellFormed.lookups_subset (hc : c.WellFormed) {call : Call} (hcall : c.IsOwn call) :
    call.lookups ⊆ c.capabilities := by
  intro cap hcap
  obtain ⟨x, hx, hunder⟩ := Call.under_of_mem_lookups hcap
  exact hc.hierarchy.mem_of_under (hcall x hx) hunder

theorem WellFormed.own_memoAfter (hc : c.WellFormed) {calls : List Call}
    (hcalls : ∀ call ∈ calls, c.IsOwn call) : Memo.Own c (c.memoAfter calls) :=
  memoAfter_induction (Memo.Own.empty c) fun call hcall =>
    (Memo.Own.invariant hc).answer fun _ hcap =>
      Memo.Own.findBundle (hc.lookups_subset (hcalls call hcall) hcap)

/-- Metadata of registered capabilities is answered out of their own bundles. -/
theorem WellFormed.answer?_bundles (hc : c.WellFormed) {calls : List Call}
    (hcalls : ∀ call ∈ calls, c.IsOwn call) {call : Call} (hasks : call.asksMetadata = true)
    (hcall : call.lookups ⊆ c.capabilities) :
    (Metadata.ofBundles (call.lookups.map Capability.bundle)).answer? call =
      some (c.answerAfter calls call) :=
  ((hc.own_memoAfter hcalls).gives_bundle hc hcall).answer c hasks

/-- Whatever was asked about registered capabilities before, the metadata of a descriptor of such
capabilities is what their own and inherited bundles say. -/
theorem metadata_inherited (hc : c.Built) {calls : List Call}
    (hcalls : ∀ call ∈ calls, c.IsOwn call) {t : Descriptor}
    (ht : t.capabilities ⊆ c.capabilities) :
    c.answerAfter calls (.order t) = .order
        ((t.capabilities.findSome? fun cap => cap.inheritedBundle.order).getD .text) ∧
      c.answerAfter calls (.icon t) = .icon
        ((t.capabilities.findSome? fun cap => cap.inheritedBundle.icon).getD
          Bundle.genericIcon) ∧
      ∀ column, c.answerAfter calls (.renderers t column) = .renderers
        (Renderers.ofList (t.capabilities.filterMap fun cap =>
          (cap.inheritedBundle.rendererFor column).value)) := by
  have hm := hc.wellFormed.own_memoAfter hcalls
  refine ⟨?_, ?_, fun column => ?_⟩
  · exact congrArg (fun order => Answer.order (order.getD .text))
      (hm.firstPart_eq hc.wellFormed ht Bundle.order)
  · exact congrArg (fun icon => Answer.icon (icon.getD Bundle.genericIcon))
      (hm.firstPart_eq hc.wellFormed ht Bundle.icon)
  · exact congrArg (fun renderers => Answer.renderers (Renderers.ofList renderers))
      (hm.renderersFor_eq hc.wellFormed ht column)

/-! ## A capability with two ways up -/

def shape : Capability := .mk "Shape" (some ⟨none, some "shape", some .decline⟩) []

def plane : Capability := .mk "Plane" none [shape]

def solid : Capability := .mk "Solid" (some ⟨some .lexical, some "solid", some .display⟩) [shape]

def tile : Capability := .mk "Tile" none [plane, solid]

def tileLayer : Layer where
  settings := none
  capabilities := [⟨"Tile", ["Plane", "Solid"], none⟩, ⟨"Plane", ["Shape"], none⟩,
    ⟨"Solid", ["Shape"], solid.declaredBundle⟩, ⟨"Shape", [], shape.declaredBundle⟩]
  kinds := [⟨"Tiling", none, ["Tile", "Numeric"], none, none⟩]

def tiling : Kind := ⟨⟨"Tiling", .catalog, [tile, .numeric], none, none⟩, []⟩

def tiled : Catalog where
  capabilities := builtin.capabilities ++ [shape, plane, solid, tile]
  kinds := builtin.kinds ++ [tiling]
  settings := builtin.settings

def tilingCalls : List Call := [.describe tiling, .bundle solid]

/-- The bundle of the shape is found behind the plane, before that of the solid. -/
theorem metadata_inherited_tile :
    tiled.Built ∧ (∀ call ∈ tilingCalls, tiled.IsOwn call) ∧
      tiled.answerAfter tilingCalls (.order (.unbound [tile, .numeric] false)) =
        .order .numeric ∧
      tiled.answerAfter tilingCalls (.icon (.unbound [tile, .numeric] false)) =
        .icon "shape" ∧
      tiled.answerAfter tilingCalls
        (.renderers (.unbound [tile, .numeric] false) (Column.named "width")) =
          .renderers ⟨.numeric none, []⟩ := by
  have hlayer : (builtin.addLayer tileLayer).run.value = .ok tiled := by cbv
  have hbuilt : tiled.Built := Built.builtin.layer hlayer
  have hown : ∀ call ∈ tilingCalls, tiled.IsOwn call := by decide
  obtain ⟨horder, hicon, hrenderers⟩ := metadata_inherited hbuilt hown
    (t := .unbound [tile, .numeric] false) (by decide)
  exact ⟨hbuilt, hown, horder, hicon, hrenderers (Column.named "width")⟩

end Catalog

end ColumnTypes
