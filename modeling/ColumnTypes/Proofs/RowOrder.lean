import ColumnTypes.Proofs.Settled

namespace ColumnTypes

/-!
# Columns and the order of their rows

Inference finds the same names in every order of the rows, and the same
preference exactly if the descriptors of the kinds are settled.
-/

theorem exists_perm_filterMap {α β : Type} {f : α → Option β} {as : List α} {bs : List β}
    (h : bs.Perm (as.filterMap f)) : ∃ as' : List α, as'.Perm as ∧ as'.filterMap f = bs := by
  induction bs generalizing as with
  | nil => exact ⟨as, List.Perm.refl as, h.symm.eq_nil⟩
  | cons b bs ih =>
      have hb : b ∈ as.filterMap f := h.mem_iff.mp List.mem_cons_self
      obtain ⟨a, ha, hab⟩ := List.mem_filterMap.mp hb
      obtain ⟨before, after, rfl⟩ := List.append_of_mem ha
      have hfront : ((before ++ a :: after).filterMap f).Perm
          (b :: (before ++ after).filterMap f) := by
        rw [← List.filterMap_cons_some hab]
        exact List.perm_middle.filterMap f
      obtain ⟨rest, hrest, rfl⟩ := ih (h.trans hfront).cons_inv
      refine ⟨a :: rest, ?_, List.filterMap_cons_some hab⟩
      exact (hrest.cons a).trans List.perm_middle.symm

namespace Catalog

open Descriptor (mergeAll Settled)

variable {c : Catalog}

theorem typesOf_eq_filterMap (c : Catalog) (values : List Value) :
    c.typesOf values = values.filterMap fun v => (c.kind? v.kind).map Descriptor.ofKind :=
  List.map_filterMap

theorem typesOf_perm {values values' : List Value} (h : values'.Perm values) :
    (c.typesOf values').Perm (c.typesOf values) :=
  (h.filterMap _).map _

theorem exists_perm_of_typesOf {values : List Value} {us : List Descriptor}
    (h : us.Perm (c.typesOf values)) :
    ∃ values' : List Value, values'.Perm values ∧ c.typesOf values' = us := by
  rw [typesOf_eq_filterMap] at h
  obtain ⟨values', hperm, heq⟩ := exists_perm_filterMap h
  exact ⟨values', hperm, (typesOf_eq_filterMap c values').trans heq⟩

/-- For kinds with closed descriptors the order of the rows does not matter for the names, and it
does not matter at all exactly if the descriptors are settled. -/
theorem inferred_perm_iff (hc : c.Built) {values : List Value}
    (hvalues : ∀ v ∈ values, c.Accepts v)
    (hclosed : ∀ k ∈ c.kindsOf values,
      Capability.ParentClosed (Descriptor.ofKind k).capabilities) :
    (∀ calls calls' (values' : List Value), values'.Perm values →
      ∃ t u, c.inferred calls values = .ok t ∧ c.inferred calls' values' = .ok u ∧
        ∀ n, n ∈ Capability.names t.capabilities ↔ n ∈ Capability.names u.capabilities) ∧
    ((∀ calls calls' (values' : List Value), values'.Perm values →
      ∃ t u, c.inferred calls values = .ok t ∧ c.inferred calls' values' = .ok u ∧
        t.agrees u = true) ↔ Settled (c.typesOf values)) := by
  have hwf := hc.wellFormed
  have htypes := hwf.closed_of_mem_typesOf hclosed
  have hinferred : ∀ calls (values' : List Value), values'.Perm values →
      c.inferred calls values' = .ok (mergeAll (c.typesOf values')) := by
    intro calls values' hperm
    exact hwf.inferred_eq (fun v hv => hvalues v (hperm.mem_iff.mp hv)) calls
  have hself := fun calls => hinferred calls values (List.Perm.refl values)
  constructor
  · intro calls calls' values' hperm
    exact ⟨_, _, hself calls, hinferred calls' values' hperm,
      Descriptor.names_mergeAll_perm hwf.hierarchy htypes (typesOf_perm hperm)⟩
  · rw [← Descriptor.forall_perm_preferredName?_iff hwf.hierarchy htypes]
    constructor
    · intro hall us hus
      obtain ⟨values', hperm, rfl⟩ := exists_perm_of_typesOf hus
      obtain ⟨t, u, ht, hu, hagree⟩ := hall [] [] values' hperm
      obtain rfl := Except.ok.inj ((hself []).symm.trans ht)
      obtain rfl := Except.ok.inj ((hinferred [] values' hperm).symm.trans hu)
      exact (Descriptor.agrees_mergeAll_perm_iff hwf.hierarchy htypes hus).mp hagree
    · intro hall calls calls' values' hperm
      refine ⟨_, _, hself calls, hinferred calls' values' hperm, ?_⟩
      exact (Descriptor.agrees_mergeAll_perm_iff hwf.hierarchy htypes (typesOf_perm hperm)).mpr
        (hall _ (typesOf_perm hperm))

theorem inferred_perm_whole_missing_real :
    (∀ v ∈ [Value.whole 1, .missing, .real (Binary64.ofInt 2)], builtin.Accepts v) ∧
      (∀ k ∈ builtin.kindsOf [.whole 1, .missing, .real (Binary64.ofInt 2)],
        Capability.ParentClosed (Descriptor.ofKind k).capabilities) ∧
      ∀ calls calls' (values' : List Value),
        values'.Perm [.whole 1, .missing, .real (Binary64.ofInt 2)] →
        ∃ t u, builtin.inferred calls [.whole 1, .missing, .real (Binary64.ofInt 2)] = .ok t ∧
          builtin.inferred calls' values' = .ok u ∧ t.agrees u = true := by
  have hvalues : ∀ v ∈ [Value.whole 1, .missing, .real (Binary64.ofInt 2)],
      builtin.Accepts v := by
    simp only [List.forall_mem_cons]
    exact ⟨Or.inr ⟨.whole, by decide, rfl⟩, Or.inl rfl, Or.inr ⟨.real, by decide, rfl⟩, nofun⟩
  have hclosed : ∀ k ∈ builtin.kindsOf [.whole 1, .missing, .real (Binary64.ofInt 2)],
      Capability.ParentClosed (Descriptor.ofKind k).capabilities := by
    unfold Capability.ParentClosed
    decide
  have hsettled : Settled (builtin.typesOf [.whole 1, .missing, .real (Binary64.ofInt 2)]) :=
    Or.inl ⟨some "Numeric", by decide⟩
  exact ⟨hvalues, hclosed, (inferred_perm_iff Built.builtin hvalues hclosed).2.mpr hsettled⟩

/-! ## Columns that depend on the order -/

def foreignValue (kind : String) : Value := .foreign ⟨kind, kind, none, none, none⟩

def rankLayer : Layer where
  settings := none
  capabilities := []
  kinds := [⟨"Rank", none, ["Comparable"], some "Comparable", none⟩]

def ranked : Catalog where
  capabilities := builtin.capabilities
  kinds := builtin.kinds ++ [⟨⟨"Rank", .catalog, [.comparable], some .comparable, none⟩, []⟩]
  settings := builtin.settings

theorem built_ranked : ranked.Built := by
  have h : (builtin.addLayer rankLayer).run.value = .ok ranked := by cbv
  exact .layer .builtin h

/-- Whole numbers and truth values share `Comparable` alone and prefer different capabilities. A
rank imposes its preference only if it comes before both are merged. -/
theorem inferred_order_matters :
    ranked.Built ∧ (∀ v ∈ [Value.whole 1, .flag true, foreignValue "Rank"], ranked.Accepts v) ∧
      [Value.whole 1, foreignValue "Rank", .flag true].Perm
        [.whole 1, .flag true, foreignValue "Rank"] ∧
      ∃ t u, ranked.inferred [] [.whole 1, .flag true, foreignValue "Rank"] = .ok t ∧
        ranked.inferred [] [.whole 1, foreignValue "Rank", .flag true] = .ok u ∧
        t.agrees u = false := by
  refine ⟨built_ranked, ?_, List.Perm.cons _ (List.Perm.swap _ _ _), _, _, rfl, rfl, by decide⟩
  simp only [List.forall_mem_cons]
  exact ⟨Or.inr ⟨.whole, by decide, rfl⟩, Or.inr ⟨.flag, by decide, rfl⟩,
    Or.inr ⟨_, List.mem_append_right _ List.mem_cons_self, rfl⟩, nofun⟩

def unlistedLayer : Layer where
  settings := none
  capabilities := [⟨"Q", [], none⟩, ⟨"R", [], none⟩, ⟨"P", ["Q"], none⟩]
  kinds := [⟨"A", none, [], some "P", none⟩, ⟨"B", none, ["Q"], none, none⟩,
    ⟨"X", none, ["Q", "R"], none, none⟩]

/-- The first kind prefers `P` without implementing it, and so does not list `Q` above it. -/
def unlisted : Catalog :=
  let q := Capability.mk "Q" none []
  let r := Capability.mk "R" none []
  let p := Capability.mk "P" none [q]
  { capabilities := [q, r, p]
    kinds := [⟨⟨"A", .catalog, [], some p, none⟩, []⟩, ⟨⟨"B", .catalog, [q], none, none⟩, []⟩,
      ⟨⟨"X", .catalog, [q, r], none, none⟩, []⟩]
    settings := Settings.standard }

theorem inferred_names_order_matters :
    (empty.addLayer unlistedLayer).run.value = .ok unlisted ∧
      ∃ t u, unlisted.inferred [] [foreignValue "A", foreignValue "B", foreignValue "X"] = .ok t ∧
        unlisted.inferred [] [foreignValue "A", foreignValue "X", foreignValue "B"] = .ok u ∧
        Capability.names t.capabilities = ["Q"] ∧ Capability.names u.capabilities = [] := by
  refine ⟨by cbv, _, _, rfl, rfl, ?_, ?_⟩
  · decide
  · decide

end Catalog

end ColumnTypes
