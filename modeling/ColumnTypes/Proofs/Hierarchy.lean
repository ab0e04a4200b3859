import ColumnTypes.Capability
import Mathlib.Data.List.Infix
import Mathlib.Data.List.Nodup
import Mathlib.Logic.Relation

namespace ColumnTypes

/-!
# The hierarchy of capabilities

`c.Under d` says that `d` is reached from `c` by going up through parents. The
search by name and the depth first walk are both described by this relation.
A list of capabilities is a hierarchy if names are unique in it and parents come
first; inside one, a name stands for one definition.
-/

/-- An element of a list with one more at the end is that one, or it stood there before. -/
theorem split_concat {α : Type} {xs before after : List α} {x y : α}
    (h : xs ++ [x] = before ++ y :: after) :
    before = xs ∧ y = x ∨ ∃ rest, xs = before ++ y :: rest := by
  rcases List.eq_nil_or_concat after with rfl | ⟨rest, last, rfl⟩
  · obtain ⟨hbefore, hlast⟩ := List.append_inj' h rfl
    exact Or.inl ⟨hbefore.symm, (List.cons.inj hlast).1.symm⟩
  · have hinit : xs ++ [x] = (before ++ y :: rest) ++ [last] := by simpa using h
    exact Or.inr ⟨rest, (List.append_inj' hinit rfl).1⟩

namespace Capability

/-! ## Going up -/

/-- The capability is `d` or extends it, directly or further up. -/
def Under (c d : Capability) : Prop :=
  Relation.ReflTransGen (fun x p => p ∈ x.parents) c d

namespace Under

theorem refl (c : Capability) : c.Under c := Relation.ReflTransGen.refl

theorem trans {a b c : Capability} (hab : a.Under b) (hbc : b.Under c) : a.Under c :=
  Relation.ReflTransGen.trans hab hbc

theorem of_parent {c p : Capability} (hp : p ∈ c.parents) : c.Under p :=
  Relation.ReflTransGen.single hp

theorem of_parent_under {c p d : Capability} (hp : p ∈ c.parents) (h : p.Under d) :
    c.Under d :=
  (of_parent hp).trans h

theorem eq_or_of_parent {c d : Capability} (h : c.Under d) :
    c = d ∨ ∃ p ∈ c.parents, p.Under d := by
  rcases Relation.ReflTransGen.cases_head h with rfl | ⟨p, hp, hpd⟩
  · exact Or.inl rfl
  · exact Or.inr ⟨p, hp, hpd⟩

end Under

theorem sizeOf_parent_lt {c p : Capability} (hp : p ∈ c.parents) : sizeOf p < sizeOf c := by
  cases c with
  | mk name bundle parents =>
      have hlt : sizeOf p < sizeOf parents := List.sizeOf_lt_of_mem hp
      simp only [mk.sizeOf_spec]
      omega

/-- A capability holds its parents, so what holds of a capability whenever it holds of its
parents holds of all. -/
theorem induction_on_parents {P : Capability → Prop}
    (step : ∀ c, (∀ p ∈ c.parents, P p) → P c) (c : Capability) : P c :=
  step c fun p hp =>
    have := sizeOf_parent_lt hp
    induction_on_parents step p
termination_by sizeOf c

namespace Under

theorem eq_or_sizeOf_lt {c d : Capability} (h : c.Under d) : c = d ∨ sizeOf d < sizeOf c := by
  induction h with
  | refl => exact Or.inl rfl
  | tail _ hp ih =>
      have hlt := sizeOf_parent_lt hp
      rcases ih with rfl | ih
      · exact Or.inr hlt
      · exact Or.inr (hlt.trans ih)

theorem antisymm {c d : Capability} (hcd : c.Under d) (hdc : d.Under c) : c = d := by
  rcases hcd.eq_or_sizeOf_lt with h | hlt
  · exact h
  · rcases hdc.eq_or_sizeOf_lt with h | hgt
    · exact h.symm
    · exact absurd hlt hgt.asymm

end Under

theorem reaches_eq (target : String) (c : Capability) :
    c.reaches target = (c.name == target || c.parents.any (reaches target)) := by
  cases c
  rw [reaches, anyReaches_eq_any]
  rfl

/-- The search by name succeeds exactly if a capability of that name is found going up. -/
theorem reaches_iff {target : String} (c : Capability) :
    c.reaches target = true ↔ ∃ d, c.Under d ∧ d.name = target := by
  induction c using induction_on_parents with
  | step c ih =>
      rw [reaches_eq, Bool.or_eq_true, beq_iff_eq, List.any_eq_true]
      constructor
      · rintro (hname | ⟨p, hp, hreach⟩)
        · exact ⟨c, Under.refl c, hname⟩
        · obtain ⟨d, hpd, hd⟩ := (ih p hp).mp hreach
          exact ⟨d, Under.of_parent_under hp hpd, hd⟩
      · rintro ⟨d, hcd, hd⟩
        rcases hcd.eq_or_of_parent with rfl | ⟨p, hp, hpd⟩
        · exact Or.inl hd
        · exact Or.inr ⟨p, hp, (ih p hp).mpr ⟨d, hpd, hd⟩⟩

theorem covers_iff {a b : Capability} :
    a.covers b = true ↔ ∃ d, b.Under d ∧ d.name = a.name := reaches_iff b

/-- Where capabilities of the same names are sent to the same, so are lists of the same names. -/
theorem map_eq_map_of_names_eq {α : Type} {f g : Capability → α} {cs ds : List Capability}
    (hnames : names cs = names ds) (h : ∀ c ∈ cs, ∀ d ∈ ds, c.name = d.name → f c = g d) :
    cs.map f = ds.map g := by
  induction cs generalizing ds with
  | nil =>
      obtain rfl : ds = [] := List.map_eq_nil_iff.mp hnames.symm
      rfl
  | cons c cs ih =>
      cases ds with
      | nil => cases hnames
      | cons d ds =>
          obtain ⟨hname, hnames⟩ := List.cons.inj hnames
          rw [List.map_cons, List.map_cons, h c List.mem_cons_self d List.mem_cons_self hname]
          exact congrArg _ (ih hnames fun a ha b hb =>
            h a (List.mem_cons_of_mem c ha) b (List.mem_cons_of_mem d hb))

/-! ## Hierarchies -/

/-- Names are unique, and every parent is one of the capabilities that stand before. -/
structure Hierarchy (cs : List Capability) : Prop where
  nodup_names : (names cs).Nodup
  parents_before : ∀ {before after : List Capability} {c : Capability},
    cs = before ++ c :: after → ∀ p ∈ c.parents, p ∈ before

namespace Hierarchy

theorem nil : Hierarchy [] where
  nodup_names := List.nodup_nil
  parents_before := by simp

theorem concat {cs : List Capability} (hcs : Hierarchy cs) {c : Capability}
    (hname : c.name ∉ names cs) (hparents : ∀ p ∈ c.parents, p ∈ cs) :
    Hierarchy (cs ++ [c]) where
  nodup_names := by
    have hc : (names cs ++ [c.name]).Nodup := by
      rw [List.nodup_append_comm, List.singleton_append, List.nodup_cons]
      exact ⟨hname, hcs.nodup_names⟩
    simpa [names] using hc
  parents_before := by
    intro before after d heq p hp
    rcases split_concat heq with ⟨rfl, rfl⟩ | ⟨rest, heq⟩
    · exact hparents p hp
    · exact hcs.parents_before heq p hp

variable {cs : List Capability} (hcs : Hierarchy cs)
include hcs

theorem eq_of_name_eq {c d : Capability} (hc : c ∈ cs) (hd : d ∈ cs) (h : c.name = d.name) :
    c = d :=
  List.inj_on_of_nodup_map hcs.nodup_names hc hd h

theorem eq_of_names_eq {ds es : List Capability} (hds : ds ⊆ cs) (hes : es ⊆ cs)
    (h : names ds = names es) : ds = es := by
  have hmap : ds.map id = es.map id :=
    map_eq_map_of_names_eq h fun d hd e he hname => hcs.eq_of_name_eq (hds hd) (hes he) hname
  rwa [List.map_id, List.map_id] at hmap

theorem parent_mem {c p : Capability} (hc : c ∈ cs) (hp : p ∈ c.parents) : p ∈ cs := by
  obtain ⟨before, after, rfl⟩ := List.append_of_mem hc
  exact List.mem_append_left _ (hcs.parents_before rfl p hp)

theorem mem_of_under {c d : Capability} (hc : c ∈ cs) (h : c.Under d) : d ∈ cs := by
  induction h with
  | refl => exact hc
  | tail _ hp ih => exact hcs.parent_mem ih hp

theorem covers_iff_under {a b : Capability} (ha : a ∈ cs) (hb : b ∈ cs) :
    a.covers b = true ↔ b.Under a := by
  rw [covers_iff]
  constructor
  · rintro ⟨d, hbd, hname⟩
    exact hcs.eq_of_name_eq (hcs.mem_of_under hb hbd) ha hname ▸ hbd
  · intro h
    exact ⟨a, h, rfl⟩

theorem covers_trans {a b c : Capability} (hb : b ∈ cs) (hc : c ∈ cs)
    (hab : a.covers b = true) (hbc : b.covers c = true) : a.covers c = true := by
  obtain ⟨d, hbd, hname⟩ := covers_iff.mp hab
  exact covers_iff.mpr ⟨d, ((hcs.covers_iff_under hb hc).mp hbc).trans hbd, hname⟩

theorem isListed_iff_mem {c : Capability} {ds : List Capability} (hc : c ∈ cs)
    (hds : ∀ d ∈ ds, d ∈ cs) : c.isListed ds = true ↔ c ∈ ds := by
  rw [isListed_iff, names, List.mem_map]
  constructor
  · rintro ⟨d, hd, hname⟩
    exact hcs.eq_of_name_eq (hds d hd) hc hname ▸ hd
  · intro h
    exact ⟨c, h, rfl⟩

end Hierarchy

end Capability

end ColumnTypes
