import ColumnTypes.Proofs.Hierarchy

namespace ColumnTypes.Capability

/-!
# The depth first walk

What one walk from a list of roots adds to the capabilities seen before: each
root and everything above it, each name once. Walks compose, so one description
serves for a capability, for its parents and for the whole closure.
-/

theorem names_append (cs ds : List Capability) : names (cs ++ ds) = names cs ++ names ds :=
  List.map_append

theorem isListed_mono {c : Capability} {cs ds : List Capability} (h : cs ⊆ ds)
    (hc : c.isListed cs = true) : c.isListed ds = true := by
  rw [isListed_iff] at hc ⊢
  exact List.map_subset name h hc

theorem isListed_of_mem {c : Capability} {cs : List Capability} (h : c ∈ cs) :
    c.isListed cs = true :=
  isListed_iff.mpr (List.mem_map_of_mem h)

/-- A walk from the roots leads from the capabilities in `seen` to those in `out`. -/
structure Walk (roots seen out : List Capability) : Prop where
  seen_prefix : seen <+: out
  root_listed : ∀ c ∈ roots, c.isListed out = true
  nodup_names : (names seen).Nodup → (names out).Nodup
  new_under : ∀ x ∈ out, x ∈ seen ∨ ∃ c ∈ roots, c.Under x
  parents_listed : ∀ x ∈ out, x ∈ seen ∨ ∀ p ∈ x.parents, p.isListed out = true

namespace Walk

theorem nil (seen : List Capability) : Walk [] seen seen where
  seen_prefix := List.prefix_refl seen
  root_listed := by simp
  nodup_names := id
  new_under _ hx := Or.inl hx
  parents_listed _ hx := Or.inl hx

theorem cons {c : Capability} {cs seen mid out : List Capability} (hc : Walk [c] seen mid)
    (hcs : Walk cs mid out) : Walk (c :: cs) seen out where
  seen_prefix := hc.seen_prefix.trans hcs.seen_prefix
  root_listed := by
    intro d hd
    rcases List.mem_cons.mp hd with rfl | hd
    · exact isListed_mono hcs.seen_prefix.subset (hc.root_listed d List.mem_cons_self)
    · exact hcs.root_listed d hd
  nodup_names h := hcs.nodup_names (hc.nodup_names h)
  new_under := by
    intro x hx
    rcases hcs.new_under x hx with hx | ⟨d, hd, hdx⟩
    · rcases hc.new_under x hx with hx | ⟨d, hd, hdx⟩
      · exact Or.inl hx
      · exact Or.inr ⟨d, List.mem_cons.mpr (Or.inl (List.mem_singleton.mp hd)), hdx⟩
    · exact Or.inr ⟨d, List.mem_cons_of_mem c hd, hdx⟩
  parents_listed := by
    intro x hx
    rcases hcs.parents_listed x hx with hx | hx
    · rcases hc.parents_listed x hx with hx | hx
      · exact Or.inl hx
      · exact Or.inr fun p hp => isListed_mono hcs.seen_prefix.subset (hx p hp)
    · exact Or.inr hx

theorem of_listed {c : Capability} {seen : List Capability} (h : c.isListed seen = true) :
    Walk [c] seen seen where
  seen_prefix := List.prefix_refl seen
  root_listed _ hd := List.mem_singleton.mp hd ▸ h
  nodup_names := id
  new_under _ hx := Or.inl hx
  parents_listed _ hx := Or.inl hx

/-- A new capability is added before the walk goes on from its parents. -/
theorem of_parents {c : Capability} {seen out : List Capability} (h : ¬c.isListed seen = true)
    (hps : Walk c.parents (seen ++ [c]) out) : Walk [c] seen out where
  seen_prefix := (List.prefix_append seen [c]).trans hps.seen_prefix
  root_listed := by
    intro d hd
    obtain rfl := List.mem_singleton.mp hd
    exact isListed_of_mem (hps.seen_prefix.subset (List.mem_append_right seen hd))
  nodup_names := by
    intro hseen
    apply hps.nodup_names
    rw [names_append, List.nodup_append_comm]
    exact List.nodup_cons.mpr ⟨fun hc => h (isListed_iff.mpr hc), hseen⟩
  new_under := by
    intro x hx
    rcases hps.new_under x hx with hx | ⟨p, hp, hpx⟩
    · rcases List.mem_append.mp hx with hx | hx
      · exact Or.inl hx
      · exact Or.inr ⟨c, List.mem_cons_self, List.mem_singleton.mp hx ▸ Under.refl c⟩
    · exact Or.inr ⟨c, List.mem_cons_self, Under.of_parent_under hp hpx⟩
  parents_listed := by
    intro x hx
    rcases hps.parents_listed x hx with hx | hx
    · rcases List.mem_append.mp hx with hx | hx
      · exact Or.inl hx
      · obtain rfl := List.mem_singleton.mp hx
        exact Or.inr hps.root_listed
    · exact Or.inr hx

/-- A list is walked root by root. -/
theorem visitAll {cs : List Capability} (h : ∀ c ∈ cs, ∀ seen, Walk [c] seen (c.visit seen))
    (seen : List Capability) : Walk cs seen (visitAll cs seen) := by
  induction cs generalizing seen with
  | nil =>
      rw [Capability.visitAll]
      exact Walk.nil seen
  | cons c cs ih =>
      rw [Capability.visitAll]
      exact (h c List.mem_cons_self seen).cons
        (ih (fun d hd => h d (List.mem_cons_of_mem c hd)) (c.visit seen))

end Walk

theorem visit_eq (c : Capability) (seen : List Capability) :
    c.visit seen = if c.isListed seen then seen else visitAll c.parents (seen ++ [c]) := by
  cases c
  rw [visit]
  rfl

theorem walk_visit (c : Capability) (seen : List Capability) : Walk [c] seen (c.visit seen) := by
  induction c using induction_on_parents generalizing seen with
  | step c ih =>
      rw [visit_eq]
      split
      · rename_i h
        exact Walk.of_listed h
      · rename_i h
        exact Walk.of_parents h (Walk.visitAll ih (seen ++ [c]))

theorem walk_closure (cs : List Capability) : Walk cs [] (closure cs) :=
  Walk.visitAll (fun c _ => walk_visit c) []

theorem nodup_names_closure (cs : List Capability) : (names (closure cs)).Nodup :=
  (walk_closure cs).nodup_names List.nodup_nil

/-- Every parent of a capability of the list is in the list, by name. -/
def ParentClosed (cs : List Capability) : Prop :=
  ∀ c ∈ cs, ∀ p ∈ c.parents, p.isListed cs = true

theorem parentClosed_closure (cs : List Capability) : ParentClosed (closure cs) := by
  intro x hx
  exact ((walk_closure cs).parents_listed x hx).resolve_left List.not_mem_nil

theorem under_of_mem_closure {cs : List Capability} {x : Capability} (hx : x ∈ closure cs) :
    ∃ c ∈ cs, c.Under x :=
  ((walk_closure cs).new_under x hx).resolve_left List.not_mem_nil

namespace Hierarchy

variable {cs : List Capability} (hcs : Hierarchy cs)
include hcs

/-- In a hierarchy a closed list holds everything above its members. -/
theorem mem_of_under_of_parentClosed {ds : List Capability} (hds : ∀ d ∈ ds, d ∈ cs)
    (hclosed : ParentClosed ds) {c d : Capability} (hc : c ∈ ds) (h : c.Under d) : d ∈ ds := by
  induction h with
  | refl => exact hc
  | tail _ hp ih =>
      exact (hcs.isListed_iff_mem (hcs.parent_mem (hds _ ih) hp) hds).mp (hclosed _ ih _ hp)

theorem closure_mem {roots : List Capability} (hroots : ∀ c ∈ roots, c ∈ cs) :
    ∀ x ∈ closure roots, x ∈ cs := by
  intro x hx
  obtain ⟨c, hc, hcx⟩ := under_of_mem_closure hx
  exact hcs.mem_of_under (hroots c hc) hcx

theorem mem_closure_iff {roots : List Capability} (hroots : ∀ c ∈ roots, c ∈ cs)
    {x : Capability} : x ∈ closure roots ↔ ∃ c ∈ roots, c.Under x := by
  constructor
  · exact under_of_mem_closure
  · rintro ⟨c, hc, hcx⟩
    have hmem : c ∈ closure roots :=
      (hcs.isListed_iff_mem (hroots c hc) (hcs.closure_mem hroots)).mp
        ((walk_closure roots).root_listed c hc)
    exact hcs.mem_of_under_of_parentClosed (hcs.closure_mem hroots)
      (parentClosed_closure roots) hmem hcx

/-- By name, any capability is in the walk that covers one of the roots. -/
theorem isListed_closure_iff {roots : List Capability} (hroots : ∀ c ∈ roots, c ∈ cs)
    {c : Capability} : c.isListed (closure roots) = true ↔ ∃ r ∈ roots, c.covers r = true := by
  rw [isListed_iff, names, List.mem_map]
  constructor
  · rintro ⟨x, hx, hname⟩
    obtain ⟨r, hr, hrx⟩ := under_of_mem_closure hx
    exact ⟨r, hr, covers_iff.mpr ⟨x, hrx, hname⟩⟩
  · rintro ⟨r, hr, hcovers⟩
    obtain ⟨x, hrx, hname⟩ := covers_iff.mp hcovers
    exact ⟨x, (hcs.mem_closure_iff hroots).mpr ⟨r, hr, hrx⟩, hname⟩

end Hierarchy

end ColumnTypes.Capability
