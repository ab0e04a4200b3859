import ColumnTypes.Proofs.Ancestors
import ColumnTypes.Proofs.History
import ColumnTypes.Proofs.Preorder

namespace ColumnTypes

/-!
# The order of discovery

The walk of discovery passes over a capability that it has seen together with all
that is above it, whichever kind of the lineage brought it there first. In a built
catalog this leaves out repetitions only: what is discovered are the first
occurrences among the implemented capabilities, each followed by its ancestors.
-/

/-- What the definitions of the lineage implement, nearest first, with the ancestors behind each
capability, and every name once. -/
def Kind.offered (k : Kind) : List Capability :=
  Capability.distinct (k.lineage.flatMap fun d => d.implements.flatMap fun c => c :: c.ancestors)

/-- The preference leads, and what is discovered follows on it but for that one. -/
theorem Descriptor.capabilities_bound (k : Kind) (d : Discovery) :
    (bound k d).capabilities =
      d.preferred.toList ++ d.capabilities.filter fun c => !c.isListed d.preferred.toList := by
  unfold bound
  cases d.preferred with
  | none => simp [Capability.isListed]
  | some p => simp [Capability.isListed, bne, Bool.beq_comm]

namespace Catalog

open Capability (names)

variable {c : Catalog}

theorem WellFormed.discovery_eq_offered (hc : c.WellFormed) {k : Kind} (hk : k ∈ c.kinds) :
    k.discovery.capabilities = k.offered := by
  have hroots : k.lineage.flatMap KindDefinition.implements ⊆ c.capabilities :=
    hc.lineages.implements_of_lineage hk
  have hwalk := hc.hierarchy.closure_eq_distinct_ancestors hroots
  rwa [List.flatMap_assoc] at hwalk

theorem WellFormed.isListed_discovery_iff (hc : c.WellFormed) {k : Kind} (hk : k ∈ c.kinds)
    {cap : Capability} : cap.isListed k.discovery.capabilities = true ↔
      ∃ d ∈ k.lineage, ∃ e ∈ d.implements, cap.covers e = true := by
  have hroots := hc.lineages.implements_of_lineage hk
  rw [Kind.discovery, hc.hierarchy.isListed_closure_iff hroots]
  simp only [List.mem_flatMap]
  constructor
  · rintro ⟨e, ⟨d, hd, he⟩, hcovers⟩
    exact ⟨d, hd, e, he, hcovers⟩
  · rintro ⟨d, hd, e, he, hcovers⟩
    exact ⟨e, ⟨d, hd, he⟩, hcovers⟩

/-- Whatever bundles are kept or looked up on the way, a kind is discovered to offer the
capabilities of its lineage with their ancestors, which are those that cover an implemented one,
each once. Its descriptor has the preference in effect in front of the others. -/
theorem discovery_in_order (hc : c.Built) {k : Kind} (hk : k ∈ c.kinds) :
    (∀ (warming : Bool) (m : Memo),
        (discoverWarming warming k m).value.1.capabilities = k.offered) ∧
      (names k.offered).Nodup ∧
      (∀ cap : Capability, cap.isListed k.offered = true ↔
        ∃ d ∈ k.lineage, ∃ e ∈ d.implements, cap.covers e = true) ∧
      ∀ calls, (c.descriptorOf k (c.memoAfter calls)).value.1.capabilities =
        k.preferred.toList ++ k.offered.filter fun cap => !cap.isListed k.preferred.toList := by
  rw [← hc.wellFormed.discovery_eq_offered hk]
  refine ⟨?_, Capability.nodup_names_closure _,
    fun cap => hc.wellFormed.isListed_discovery_iff hk, ?_⟩
  · intro warming m
    rw [discoverWarming_value]
  · intro calls
    rw [(descriptorOf_spec (faithful_memoAfter c calls) k).1]
    exact Descriptor.capabilities_bound k k.discovery

/-! ## A lineage that comes to one capability twice -/

def legLayer : Layer where
  settings := none
  capabilities := []
  kinds := [⟨"Trip", some "Leg", ["Additive"], none, none⟩,
    ⟨"Leg", some "Whole", ["Distance"], some "Quantity", none⟩]

def leg : Kind := ⟨⟨"Leg", .catalog, [distance], some quantity, none⟩, Kind.whole.lineage⟩

def trip : Kind := ⟨⟨"Trip", .catalog, [additive], none, none⟩, leg.lineage⟩

def travelled : Catalog where
  capabilities := measured.capabilities
  kinds := measured.kinds ++ [leg, trip]
  settings := measured.settings

/-- A bundle that is kept under the name of the quantity, but was not declared for it. -/
def misleading : Memo := ⟨[], [], [("Quantity", ⟨none, some "length", none⟩)]⟩

/-- The quantity is met above the additive, so it is passed over above the distance. It is preferred
by what the trip extends. -/
theorem discovery_in_order_trip :
    travelled.Built ∧ trip ∈ travelled.kinds ∧
      trip.offered = [additive, quantity, distance, scalar, .numeric, .comparable] ∧
      (discoverWarming true trip misleading).value.1.capabilities = trip.offered ∧
      (travelled.descriptorOf trip (travelled.memoAfter [.bundle quantity])).value.1.capabilities =
        [quantity, additive, distance, scalar, .numeric, .comparable] := by
  have hlayer : (measured.addLayer legLayer).run.value = .ok travelled := by cbv
  have hbuilt : travelled.Built := built_measured.layer hlayer
  have htrip : trip ∈ travelled.kinds := by decide
  obtain ⟨hdiscovered, -, -, hdescriptor⟩ := discovery_in_order hbuilt htrip
  exact ⟨hbuilt, htrip, by decide, hdiscovered true misleading,
    (hdescriptor [.bundle quantity]).trans (by decide)⟩

end Catalog

end ColumnTypes
