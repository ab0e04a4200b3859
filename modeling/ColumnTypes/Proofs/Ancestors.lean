import ColumnTypes.Proofs.WellFormed

namespace ColumnTypes

/-!
# Ancestors

The ancestors of a capability are listed by a walk from its parents that passes
over every name it has seen. In a built catalog nothing is lost by that: the list
holds exactly what one or more steps lead up to. Each entry follows on one that
extends it, and no capability comes back to itself, so covering is a partial order.
-/

namespace Capability

/-! ## The order of the walk -/

/-- The walk comes to `c` as one of the roots, or from a capability that it has seen. -/
def Met (roots seen : List Capability) (c : Capability) : Prop :=
  c ∈ roots ∨ ∃ d ∈ seen, c ∈ d.parents

theorem Met.mono {roots seen seen' : List Capability} {c : Capability} (h : Met roots seen c)
    (hsub : seen ⊆ seen') : Met roots seen' c := by
  rcases h with hroot | ⟨d, hd, hcd⟩
  · exact Or.inl hroot
  · exact Or.inr ⟨d, hsub hd, hcd⟩

/-- Every capability of the list is a root or stands behind one that extends it. -/
def Introduced (roots cs : List Capability) : Prop :=
  ∀ before c after, cs = before ++ c :: after → Met roots before c

namespace Introduced

variable {roots cs seen : List Capability} {c : Capability}

theorem nil (roots : List Capability) : Introduced roots [] := by
  simp [Introduced]

theorem concat (hcs : Introduced roots cs) (hc : Met roots cs c) :
    Introduced roots (cs ++ [c]) := by
  intro before d after heq
  rcases split_concat heq with ⟨rfl, rfl⟩ | ⟨rest, heq⟩
  · exact hc
  · exact hcs before d rest heq

/-- A root is met when its turn comes if it was met before the walk of the others. -/
theorem visitAll
    (hvisit : ∀ c ∈ cs, ∀ seen, Introduced roots seen → Met roots seen c →
      Introduced roots (c.visit seen))
    (hseen : Introduced roots seen) (hcs : ∀ c ∈ cs, Met roots seen c) :
    Introduced roots (visitAll cs seen) := by
  induction cs generalizing seen with
  | nil =>
      rw [Capability.visitAll]
      exact hseen
  | cons c cs ih =>
      obtain ⟨hvisit, hvisits⟩ := List.forall_mem_cons.mp hvisit
      obtain ⟨hc, hcs⟩ := List.forall_mem_cons.mp hcs
      have hwalk := walk_visit c seen
      have hkept : seen ⊆ c.visit seen := hwalk.seen_prefix.subset
      rw [Capability.visitAll]
      exact ih hvisits (hvisit seen hseen hc) fun d hd => (hcs d hd).mono hkept

/-- The parents of a new capability are met as soon as it is listed. -/
theorem visit (hseen : Introduced roots seen) (hc : Met roots seen c) :
    Introduced roots (c.visit seen) := by
  induction c using induction_on_parents generalizing seen with
  | step c ih =>
      rw [visit_eq]
      split
      · exact hseen
      · apply visitAll
        · exact fun p hp seen hseen hmet => ih p hp hseen hmet
        · exact hseen.concat hc
        · exact fun p hp => Or.inr ⟨c, List.mem_append_right seen List.mem_cons_self, hp⟩

theorem closure (roots : List Capability) : Introduced roots (closure roots) :=
  visitAll (fun _ _ _ hseen hc => visit hseen hc) (nil roots) fun _ hc => Or.inl hc

end Introduced

/-! ## Ancestors in a hierarchy -/

namespace Hierarchy

variable {cs : List Capability} (hcs : Hierarchy cs)
include hcs

theorem mem_ancestors_iff {c x : Capability} (hc : c ∈ cs) :
    x ∈ c.ancestors ↔ Relation.TransGen (fun y p => p ∈ y.parents) c x := by
  rw [ancestors, hcs.mem_closure_iff fun p hp => hcs.parent_mem hc hp]
  exact (Relation.TransGen.head'_iff (r := fun (y p : Capability) => p ∈ y.parents)).symm

theorem covers_iff_eq_or_mem_ancestors {a b : Capability} (ha : a ∈ cs) (hb : b ∈ cs) :
    a.covers b = true ↔ a = b ∨ a ∈ b.ancestors := by
  rw [hcs.covers_iff_under ha hb, hcs.mem_ancestors_iff hb]
  exact Relation.reflTransGen_iff_eq_or_transGen

/-- What is above a capability is smaller, so it is not the capability itself. -/
theorem name_notMem_ancestors {c : Capability} (hc : c ∈ cs) : c.name ∉ names c.ancestors := by
  have hparents : ∀ p ∈ c.parents, p ∈ cs := fun p hp => hcs.parent_mem hc hp
  rw [ancestors, ← isListed_iff, hcs.isListed_iff_mem hc (hcs.closure_mem hparents)]
  intro hmem
  obtain ⟨p, hp, hpc⟩ := under_of_mem_closure hmem
  obtain rfl := hpc.antisymm (Under.of_parent hp)
  exact absurd (sizeOf_parent_lt hp) (lt_irrefl _)

theorem covers_antisymm {a b : Capability} (ha : a ∈ cs) (hb : b ∈ cs)
    (hab : a.covers b = true) (hba : b.covers a = true) : a = b :=
  ((hcs.covers_iff_under hb ha).mp hba).antisymm ((hcs.covers_iff_under ha hb).mp hab)

end Hierarchy

end Capability

/-! ## Over a catalog -/

namespace Catalog

open Capability (names)

variable {c : Catalog}

/-- A capability covers itself and those that it is an ancestor of. Ancestors are listed once, each
as a parent of the capability or behind one that extends it, and make covering a partial order. -/
theorem capabilities_ordered_by_ancestors (hc : c.Built) {a b d : Capability}
    (ha : a ∈ c.capabilities) (hb : b ∈ c.capabilities) (hd : d ∈ c.capabilities) :
    (a.covers b = true ↔ a = b ∨ a ∈ b.ancestors) ∧
      (names b.ancestors).Nodup ∧ b.name ∉ names b.ancestors ∧
      (∀ x, x ∈ b.ancestors ↔ Relation.TransGen (fun y p => p ∈ y.parents) b x) ∧
      (∀ before x after, b.ancestors = before ++ x :: after →
        x ∈ b.parents ∨ ∃ y ∈ before, x ∈ y.parents) ∧
      a.covers a = true ∧
      (a.covers b = true → b.covers d = true → a.covers d = true) ∧
      (a.covers b = true → b.covers a = true → a = b) := by
  have hcs := hc.wellFormed.hierarchy
  refine ⟨hcs.covers_iff_eq_or_mem_ancestors ha hb, Capability.nodup_names_closure b.parents,
    hcs.name_notMem_ancestors hb, fun x => hcs.mem_ancestors_iff hb,
    Capability.Introduced.closure b.parents, Capability.covers_self a, ?_, ?_⟩
  · exact hcs.covers_trans hb hd
  · exact hcs.covers_antisymm ha hb

/-! ## Three ways up to one capability -/

def quantity : Capability := .mk "Quantity" none []

def scalar : Capability := .mk "Scalar" none [quantity]

def additive : Capability := .mk "Additive" none [quantity]

def distance : Capability := .mk "Distance" none [scalar, additive, quantity]

def distanceLayer : Layer where
  settings := none
  capabilities := [⟨"Distance", ["Scalar", "Additive", "Quantity"], none⟩,
    ⟨"Additive", ["Quantity"], none⟩, ⟨"Scalar", ["Quantity"], none⟩, ⟨"Quantity", [], none⟩]
  kinds := []

def measured : Catalog where
  capabilities := builtin.capabilities ++ [quantity, scalar, additive, distance]
  kinds := builtin.kinds
  settings := builtin.settings

theorem built_measured : measured.Built := by
  have hlayer : (builtin.addLayer distanceLayer).run.value = .ok measured := by cbv
  exact Built.builtin.layer hlayer

/-- The quantity is listed behind the scalar, the first one on the way to it. -/
theorem capabilities_ordered_by_ancestors_distance :
    measured.Built ∧ quantity ∈ measured.capabilities ∧ scalar ∈ measured.capabilities ∧
      distance ∈ measured.capabilities ∧
      distance.ancestors = [scalar, quantity, additive] ∧
      Relation.TransGen (fun (y p : Capability) => p ∈ y.parents) distance quantity ∧
      quantity.covers scalar = true ∧ scalar.covers distance = true ∧
      quantity.covers distance = true := by
  have hquantity : quantity ∈ measured.capabilities := by decide
  have hscalar : scalar ∈ measured.capabilities := by decide
  have hdistance : distance ∈ measured.capabilities := by decide
  obtain ⟨hquantity_scalar, -, -, -, -, -, htrans, -⟩ :=
    capabilities_ordered_by_ancestors built_measured hquantity hscalar hdistance
  obtain ⟨hscalar_distance, -, -, hreached, -⟩ :=
    capabilities_ordered_by_ancestors built_measured hscalar hdistance hdistance
  have hlower := hquantity_scalar.mpr (Or.inr (by decide))
  have hupper := hscalar_distance.mpr (Or.inr (by decide))
  exact ⟨built_measured, hquantity, hscalar, hdistance, by decide,
    (hreached quantity).mp (by decide), hlower, hupper, htrans hlower hupper⟩

end Catalog

end ColumnTypes
