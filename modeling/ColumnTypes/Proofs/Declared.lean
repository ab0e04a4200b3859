import ColumnTypes.Catalog.Layer
import Mathlib.Data.List.Induction

namespace ColumnTypes

/-!
# Declared forms

A capability or kind can be written back as a declaration by names. What a
declaration comes to names no capability twice and prefers no unknown one.
-/

/-- The entry is what one of the declarations comes to. -/
def Declared {α δ : Type} (form : α → δ) (effective : δ → δ) (ds : List δ) (x : α) : Prop :=
  ∃ d ∈ ds, form x = effective d

namespace Declared

variable {α δ : Type} {form : α → δ} {effective : δ → δ} {ds ds' : List δ} {x : α}

theorem mono (hsub : ds ⊆ ds') (h : Declared form effective ds x) :
    Declared form effective ds' x := by
  obtain ⟨d, hd, heq⟩ := h
  exact ⟨d, hsub hd, heq⟩

theorem name_mem (h : Declared form effective ds x) (name : δ → String)
    (hname : ∀ d, name (effective d) = name d) : name (form x) ∈ ds.map name := by
  obtain ⟨d, hd, heq⟩ := h
  exact List.mem_map.mpr ⟨d, hd, by rw [heq, hname]⟩

end Declared

theorem eraseDups_concat (ns : List String) (n : String) :
    (ns ++ [n]).eraseDups = if n ∈ ns then ns.eraseDups else ns.eraseDups ++ [n] := by
  rw [List.eraseDups_append]
  by_cases h : n ∈ ns <;> simp [List.removeAll, List.eraseDups_cons, h]

namespace Capability

def declaration (c : Capability) : CapabilityDeclaration :=
  ⟨c.name, names c.parents, c.declaredBundle⟩

/-- Taking up a capability under a new name only adds its name if it is new. -/
theorem names_ite_isListed {cs : List Capability} {ns : List String}
    (h : names cs = ns.eraseDups) (c : Capability) :
    names (if c.isListed cs then cs else cs ++ [c]) = (ns ++ [c.name]).eraseDups := by
  have hlisted : c.isListed cs = true ↔ c.name ∈ ns := by
    rw [isListed_iff, h, List.mem_eraseDups]
  rw [eraseDups_concat]
  by_cases hc : c.name ∈ ns
  · rw [if_pos (hlisted.mpr hc), if_pos hc, h]
  · rw [if_neg (mt hlisted.mp hc), if_neg hc, ← h]
    simp [names]

theorem names_distinct (cs : List Capability) : names (distinct cs) = (names cs).eraseDups := by
  induction cs using List.reverseRecOn with
  | nil => rfl
  | append_singleton cs c ih =>
      have hstep := names_ite_isListed ih c
      rw [distinct, List.foldl_append, List.foldl_cons, List.foldl_nil]
      rw [distinct] at hstep
      rw [hstep]
      simp [names]

end Capability

namespace CapabilityDeclaration

def effective (d : CapabilityDeclaration) : CapabilityDeclaration :=
  { d with parents := d.parents.eraseDups }

abbrev EntryOf (ds : List CapabilityDeclaration) : Capability → Prop :=
  Declared Capability.declaration effective ds

end CapabilityDeclaration

def Kind.declaration (k : Kind) : KindDeclaration where
  name := k.name
  parent := k.parent?.map Kind.name
  implements := Capability.names k.implements
  preferred := k.declaredPreferred.map Capability.name
  codec := k.declaredCodec

namespace KindDeclaration

/-- What the declaration comes to where only the given capabilities are known. -/
def effective (known : List String) (d : KindDeclaration) : KindDeclaration :=
  { d with
    implements := d.implements.eraseDups
    preferred := d.preferred.filter fun n => known.contains n }

abbrev EntryOf (capabilities : List Capability) (ds : List KindDeclaration) : Kind → Prop :=
  Declared Kind.declaration (effective (Capability.names capabilities)) ds

end KindDeclaration

end ColumnTypes
