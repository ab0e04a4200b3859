import ColumnTypes.Proofs.Closure

namespace ColumnTypes.Capability

/-!
# First occurrences

The preorder of a capability lists everything above it each time that it is
reached. The depth first walk, which passes over what it has seen together with
all that is above it, adds the first occurrences of the preorder. So a search
along the walk finds what a search up the hierarchy finds.
-/

mutual

/-- The capability, and then what is above it, one parent after the other. -/
def preorder : Capability → List Capability
  | mk name bundle parents => mk name bundle parents :: preorderAll parents

def preorderAll : List Capability → List Capability
  | [] => []
  | c :: cs => preorder c ++ preorderAll cs

end

theorem preorderAll_eq_flatMap (cs : List Capability) : preorderAll cs = cs.flatMap preorder := by
  induction cs with
  | nil => rfl
  | cons c cs ih => rw [preorderAll, List.flatMap_cons, ih]

theorem preorder_eq (c : Capability) : c.preorder = c :: c.parents.flatMap preorder := by
  cases c
  rw [preorder, preorderAll_eq_flatMap]
  rfl

theorem mem_preorder_iff {c x : Capability} : x ∈ c.preorder ↔ c.Under x := by
  induction c using induction_on_parents with
  | step c ih =>
      rw [preorder_eq, List.mem_cons, List.mem_flatMap]
      constructor
      · rintro (rfl | ⟨p, hp, hx⟩)
        · exact Under.refl x
        · exact Under.of_parent_under hp ((ih p hp).mp hx)
      · intro h
        rcases h.eq_or_of_parent with rfl | ⟨p, hp, hpx⟩
        · exact Or.inl rfl
        · exact Or.inr ⟨p, hp, (ih p hp).mpr hpx⟩

theorem firstBundle?_eq_of_forall {cs : List Capability}
    (h : ∀ c ∈ cs, c.bundle? = c.preorder.findSome? declaredBundle) :
    firstBundle? cs = (cs.flatMap preorder).findSome? declaredBundle := by
  induction cs with
  | nil => rfl
  | cons c cs ih =>
      obtain ⟨hc, hcs⟩ := List.forall_mem_cons.mp h
      rw [firstBundle?, List.flatMap_cons, List.findSome?_append, hc, ih hcs]
      cases c.preorder.findSome? declaredBundle <;> rfl

/-- The bundle in use is the first one that is declared going up. -/
theorem bundle?_eq_findSome?_preorder (c : Capability) :
    c.bundle? = c.preorder.findSome? declaredBundle := by
  induction c using induction_on_parents with
  | step c ih =>
      rw [preorder_eq, List.findSome?_cons, ← firstBundle?_eq_of_forall ih]
      obtain ⟨name, bundle, parents⟩ := c
      cases bundle with
      | none => rw [bundle?]; rfl
      | some b => rw [bundle?]; rfl

/-! ## Taking up what is new -/

/-- Takes up the capabilities one after the other, unless their name was taken up before. -/
def takeUp (seen cs : List Capability) : List Capability :=
  cs.foldl (fun acc c => if c.isListed acc then acc else acc ++ [c]) seen

theorem distinct_eq_takeUp (cs : List Capability) : distinct cs = takeUp [] cs := rfl

theorem takeUp_cons (seen : List Capability) (c : Capability) (cs : List Capability) :
    takeUp seen (c :: cs) = takeUp (if c.isListed seen then seen else seen ++ [c]) cs := rfl

theorem takeUp_append (seen cs ds : List Capability) :
    takeUp seen (cs ++ ds) = takeUp (takeUp seen cs) ds := List.foldl_append

theorem takeUp_of_forall_isListed {seen cs : List Capability}
    (h : ∀ c ∈ cs, c.isListed seen = true) : takeUp seen cs = seen := by
  induction cs with
  | nil => rfl
  | cons c cs ih =>
      obtain ⟨hc, hcs⟩ := List.forall_mem_cons.mp h
      rw [takeUp_cons, if_pos hc]
      exact ih hcs

theorem mem_names_takeUp {seen cs : List Capability} {n : String} :
    n ∈ names (takeUp seen cs) ↔ n ∈ names seen ∨ n ∈ names cs := by
  induction cs generalizing seen with
  | nil => simp [takeUp, names]
  | cons c cs ih =>
      have hcons : n ∈ names (c :: cs) ↔ n = c.name ∨ n ∈ names cs := List.mem_cons
      rw [takeUp_cons, ih, hcons]
      by_cases hc : c.isListed seen = true
      · rw [if_pos hc]
        constructor
        · exact Or.imp_right Or.inr
        · rintro (hn | rfl | hn)
          · exact Or.inl hn
          · exact Or.inl (isListed_iff.mp hc)
          · exact Or.inr hn
      · rw [if_neg hc, names_append, List.mem_append, or_assoc]
        exact or_congr_right (or_congr_left List.mem_singleton)

/-- What was taken up from a list stands for the whole list. -/
theorem takeUp_takeUp (seen acc cs : List Capability) :
    takeUp seen (takeUp acc cs) = takeUp seen (acc ++ cs) := by
  induction cs generalizing acc with
  | nil => simp [takeUp]
  | cons c cs ih =>
      rw [takeUp_cons, ih]
      split
      · rename_i hc
        have hlisted : c.isListed (takeUp seen acc) = true :=
          isListed_iff.mpr (mem_names_takeUp.mpr (Or.inr (isListed_iff.mp hc)))
        rw [takeUp_append, takeUp_append, takeUp_cons, if_pos hlisted]
      · rw [List.append_assoc, List.singleton_append]

theorem takeUp_flatMap_congr {f g : Capability → List Capability} {cs : List Capability}
    (h : ∀ c ∈ cs, ∀ seen, takeUp seen (f c) = takeUp seen (g c)) (seen : List Capability) :
    takeUp seen (cs.flatMap f) = takeUp seen (cs.flatMap g) := by
  induction cs generalizing seen with
  | nil => rfl
  | cons c cs ih =>
      obtain ⟨hc, hcs⟩ := List.forall_mem_cons.mp h
      rw [List.flatMap_cons, List.flatMap_cons, takeUp_append, takeUp_append, hc, ih hcs]

theorem subset_concat {cs seen : List Capability} {c : Capability} (hseen : seen ⊆ cs)
    (hc : c ∈ cs) : seen ++ [c] ⊆ cs :=
  List.append_subset.mpr ⟨hseen, List.cons_subset.mpr ⟨hc, List.nil_subset cs⟩⟩

namespace Hierarchy

variable {cs : List Capability} (hcs : Hierarchy cs)
include hcs

/-- In a hierarchy, a capability is taken up or was there before. -/
theorem mem_takeUp_iff {seen ds : List Capability} (hseen : seen ⊆ cs) (hds : ds ⊆ cs)
    {x : Capability} : x ∈ takeUp seen ds ↔ x ∈ seen ∨ x ∈ ds := by
  induction ds generalizing seen with
  | nil => simp [takeUp]
  | cons d ds ih =>
      obtain ⟨hd, hds⟩ := List.cons_subset.mp hds
      rw [takeUp_cons, List.mem_cons]
      by_cases hlisted : d.isListed seen = true
      · have hmem := (hcs.isListed_iff_mem hd hseen).mp hlisted
        rw [if_pos hlisted, ih hseen hds]
        constructor
        · exact Or.imp_right Or.inr
        · rintro (hx | rfl | hx)
          · exact Or.inl hx
          · exact Or.inl hmem
          · exact Or.inr hx
      · rw [if_neg hlisted, ih (subset_concat hseen hd) hds,
          List.mem_append, List.mem_singleton, or_assoc]

/-- What is passed over holds nothing that a search would find. -/
theorem findSome?_takeUp {α : Type} (f : Capability → Option α) {seen ds : List Capability}
    (hseen : seen ⊆ cs) (hds : ds ⊆ cs) :
    (takeUp seen ds).findSome? f = (seen ++ ds).findSome? f := by
  induction ds generalizing seen with
  | nil => simp [takeUp]
  | cons d ds ih =>
      obtain ⟨hd, hds⟩ := List.cons_subset.mp hds
      rw [takeUp_cons]
      by_cases hlisted : d.isListed seen = true
      · have hmem := (hcs.isListed_iff_mem hd hseen).mp hlisted
        rw [if_pos hlisted, ih hseen hds, List.findSome?_append, List.findSome?_append,
          List.findSome?_cons]
        cases hfound : seen.findSome? f with
        | some a => rfl
        | none => rw [List.findSome?_eq_none_iff.mp hfound d hmem]
      · rw [if_neg hlisted, ih (subset_concat hseen hd) hds,
          List.append_assoc, List.singleton_append]

/-! ## The walk -/

theorem preorder_subset {c : Capability} (hc : c ∈ cs) : c.preorder ⊆ cs :=
  fun _ hx => hcs.mem_of_under hc (mem_preorder_iff.mp hx)

end Hierarchy

/-- Everything above the capability is in the list. -/
def Complete (seen : List Capability) (x : Capability) : Prop := ∀ y, x.Under y → y ∈ seen

/-- A walk comes to `c` while what it has seen is complete, or is on the way to `c`. -/
def Passing (seen : List Capability) (c : Capability) : Prop :=
  ∀ x ∈ seen, Complete seen x ∨ x.Under c ∧ x ≠ c

namespace Hierarchy

variable {cs : List Capability} (hcs : Hierarchy cs)
include hcs

/-- The roots are walked one after the other: each of them is complete when the next one follows. -/
theorem visitAll_eq_takeUp {roots : List Capability} (hroots : roots ⊆ cs)
    (hvisit : ∀ c ∈ roots, ∀ seen, seen ⊆ cs → Passing seen c →
      c.visit seen = takeUp seen c.preorder)
    {seen : List Capability} (hseen : seen ⊆ cs) (hpass : ∀ c ∈ roots, Passing seen c) :
    visitAll roots seen = takeUp seen (roots.flatMap preorder) := by
  induction roots generalizing seen with
  | nil => rw [visitAll]; rfl
  | cons c roots ih =>
      obtain ⟨hc, hroots⟩ := List.cons_subset.mp hroots
      obtain ⟨hvisit, hvisits⟩ := List.forall_mem_cons.mp hvisit
      obtain ⟨hpass, hpasses⟩ := List.forall_mem_cons.mp hpass
      have hmem : ∀ x, x ∈ takeUp seen c.preorder ↔ x ∈ seen ∨ x ∈ c.preorder :=
        fun x => hcs.mem_takeUp_iff hseen (hcs.preorder_subset hc)
      have hnext : takeUp seen c.preorder ⊆ cs := by
        intro x hx
        rcases (hmem x).mp hx with hx | hx
        · exact hseen hx
        · exact hcs.preorder_subset hc hx
      rw [visitAll, hvisit seen hseen hpass, List.flatMap_cons, takeUp_append]
      refine ih hroots hvisits hnext fun d hd x hx => ?_
      rcases (hmem x).mp hx with hx | hx
      · refine (hpasses d hd x hx).imp_left fun hdone y hy => ?_
        exact (hmem y).mpr (Or.inl (hdone y hy))
      · refine Or.inl fun y hy => (hmem y).mpr (Or.inr ?_)
        exact mem_preorder_iff.mpr ((mem_preorder_iff.mp hx).trans hy)

theorem visit_eq_takeUp {c : Capability} (hc : c ∈ cs) {seen : List Capability} (hseen : seen ⊆ cs)
    (hpass : Passing seen c) : c.visit seen = takeUp seen c.preorder := by
  induction c using induction_on_parents generalizing seen with
  | step c ih =>
      rw [visit_eq, preorder_eq, takeUp_cons]
      split
      · rename_i hlisted
        have hmem := (hcs.isListed_iff_mem hc hseen).mp hlisted
        have hdone : Complete seen c := (hpass c hmem).resolve_right fun h => h.2 rfl
        rw [takeUp_of_forall_isListed]
        intro x hx
        obtain ⟨p, hp, hx⟩ := List.mem_flatMap.mp hx
        exact isListed_of_mem (hdone x (Under.of_parent_under hp (mem_preorder_iff.mp hx)))
      · have hparents : c.parents ⊆ cs := fun p hp => hcs.parent_mem hc hp
        apply hcs.visitAll_eq_takeUp hparents
        · exact fun p hp seen hseen hpass => ih p hp (hparents hp) hseen hpass
        · exact subset_concat hseen hc
        · -- Nothing on the way to `c` is one of its parents, since the hierarchy has no cycles.
          intro p hp x hx
          have hcp : c ≠ p := by
            rintro rfl
            exact absurd (sizeOf_parent_lt hp) (lt_irrefl _)
          rcases List.mem_append.mp hx with hx | hx
          · rcases hpass x hx with hdone | ⟨hxc, -⟩
            · exact Or.inl fun y hy => List.mem_append_left _ (hdone y hy)
            · refine Or.inr ⟨hxc.trans (Under.of_parent hp), ?_⟩
              rintro rfl
              exact hcp (hxc.antisymm (Under.of_parent hp)).symm
          · obtain rfl := List.mem_singleton.mp hx
            exact Or.inr ⟨Under.of_parent hp, hcp⟩

/-- Walking from roots gives the first occurrences of what they lie under. -/
theorem closure_eq_distinct {roots : List Capability} (hroots : roots ⊆ cs) :
    closure roots = distinct (roots.flatMap preorder) :=
  hcs.visitAll_eq_takeUp hroots
    (fun _ hc _ hseen hpass => hcs.visit_eq_takeUp (hroots hc) hseen hpass)
    (List.nil_subset cs) fun _ _ => nofun

/-- A capability and its ancestors are the first occurrences of its preorder. -/
theorem takeUp_ancestors {c : Capability} (hc : c ∈ cs) (seen : List Capability) :
    takeUp seen (c :: c.ancestors) = takeUp seen c.preorder := by
  have hparents : c.parents ⊆ cs := fun p hp => hcs.parent_mem hc hp
  rw [preorder_eq, ancestors, hcs.closure_eq_distinct hparents, distinct_eq_takeUp, takeUp_cons,
    takeUp_cons, takeUp_takeUp, List.nil_append]

/-- So a walk can be replaced by lists of ancestors, one for each root. -/
theorem closure_eq_distinct_ancestors {roots : List Capability} (hroots : roots ⊆ cs) :
    closure roots = distinct (roots.flatMap fun c => c :: c.ancestors) := by
  rw [hcs.closure_eq_distinct hroots, distinct_eq_takeUp, distinct_eq_takeUp]
  exact (takeUp_flatMap_congr (fun c hc seen => hcs.takeUp_ancestors (hroots hc) seen) []).symm

theorem findSome?_ancestors {α : Type} (f : Capability → Option α) {c : Capability} (hc : c ∈ cs) :
    (c :: c.ancestors).findSome? f = c.preorder.findSome? f := by
  have habove : c :: c.ancestors ⊆ cs :=
    List.cons_subset.mpr ⟨hc, hcs.closure_mem fun p hp => hcs.parent_mem hc hp⟩
  have hfound := congrArg (List.findSome? f) (hcs.takeUp_ancestors hc [])
  rwa [hcs.findSome?_takeUp f (List.nil_subset cs) habove,
    hcs.findSome?_takeUp f (List.nil_subset cs) (hcs.preorder_subset hc)] at hfound

end Hierarchy

end ColumnTypes.Capability
