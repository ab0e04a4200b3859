import ColumnTypes.Proofs.Registration

namespace ColumnTypes

/-!
# Strict layers

Preferences are checked by a layer that is strict, and for the kinds that it
registers itself. What it takes over from its base is not looked at again.
-/

/-! ## Checking preferences -/

theorem checkPreferences_cons_value (k : Kind) (ks : List Kind) :
    (checkPreferences (k :: ks)).run.value =
      match k.discovery.unimplemented? with
      | some p => .error (.preferredNotImplemented k.name p.name)
      | none => (checkPreferences ks).run.value := by
  have hrun : (checkPreferences (k :: ks)).run.value =
      (match k.discovery.unimplemented? with
        | some p => throw (.preferredNotImplemented k.name p.name)
        | none => checkPreferences ks : ExceptT Catalog.Error Logged Unit).run.value := rfl
  rw [hrun]
  cases k.discovery.unimplemented? with
  | none => rfl
  | some p => rfl

theorem checkPreferences_ok_iff {ks : List Kind} :
    (checkPreferences ks).run.value = .ok () ↔
      ∀ k ∈ ks, k.discovery.prefersImplemented = true := by
  induction ks with
  | nil => exact ⟨fun _ => nofun, fun _ => rfl⟩
  | cons k ks ih =>
      rw [checkPreferences_cons_value, List.forall_mem_cons,
        ← Discovery.unimplemented?_eq_none_iff, ← ih]
      cases k.discovery.unimplemented? with
      | none => simp
      | some p => simp

theorem exists_of_checkPreferences_error {ks : List Kind} {e : Catalog.Error}
    (h : (checkPreferences ks).run.value = .error e) :
    ∃ k ∈ ks, ∃ p, k.discovery.unimplemented? = some p ∧
      e = .preferredNotImplemented k.name p.name := by
  induction ks with
  | nil => cases h
  | cons k ks ih =>
      rw [checkPreferences_cons_value] at h
      split at h
      · rename_i p hp
        exact ⟨k, List.mem_cons_self, p, hp, (Except.error.inj h).symm⟩
      · obtain ⟨l, hl, hfound⟩ := ih h
        exact ⟨l, List.mem_cons_of_mem k hl, hfound⟩

namespace Catalog

/-! ## One layer -/

theorem Resolved.kinds_eq {base c : Catalog} {layer : Layer} (h : Resolved base layer c) :
    c.kinds = base.kinds ++ c.kinds.drop base.kinds.length := by
  obtain ⟨new, hnew⟩ :=
    (KindDeclaration.resolveAll_grown h.kinds_resolved).1.kept
  rw [← hnew, List.drop_left]

theorem Layered.prefersImplemented {base c : Catalog} {layer : Layer} (h : Layered base layer c)
    (hstrict : c.settings.strictPreferred = true) {k : Kind} (hk : k ∈ c.kinds)
    (hnew : k ∉ base.kinds) : k.discovery.prefersImplemented = true := by
  rw [h.kinds_eq, List.mem_append] at hk
  exact checkPreferences_ok_iff.mp (h.preferences_checked hstrict) k (hk.resolve_left hnew)

/-! ## Layer upon layer -/

/-- The kind was registered by a layer that is not strict, and kept by any layers after it. -/
inductive Unchecked : Catalog → Kind → Prop
  | lax {base c : Catalog} {layer : Layer} {k : Kind} (hbase : base.Built)
      (h : (base.addLayer layer).run.value = .ok c) (hlax : c.settings.strictPreferred = false)
      (hk : k ∈ c.kinds) (hnew : k ∉ base.kinds) : Unchecked c k
  | kept {base c : Catalog} {layer : Layer} {k : Kind}
      (h : (base.addLayer layer).run.value = .ok c) (hk : Unchecked base k) : Unchecked c k

theorem Unchecked.mem_kinds {c : Catalog} {k : Kind} (h : c.Unchecked k) : k ∈ c.kinds := by
  induction h with
  | lax _ _ _ hk _ => exact hk
  | kept h _ ih =>
      rw [(layered_of_addLayer h).kinds_eq]
      exact List.mem_append_left _ ih

theorem prefersImplemented_builtin :
    ∀ k ∈ builtin.kinds, k.discovery.prefersImplemented = true := by decide

/-- Of the kinds in a built catalog, those can prefer what they do not implement that some layer
registered without being strict. -/
theorem Built.prefersImplemented_or_unchecked {c : Catalog} (hc : c.Built) :
    ∀ k ∈ c.kinds, k.discovery.prefersImplemented = true ∨ c.Unchecked k := by
  induction hc with
  | empty => nofun
  | builtin => exact fun k hk => Or.inl (prefersImplemented_builtin k hk)
  | @layer base c _ hbase h ih =>
      intro k hk
      by_cases hold : k ∈ base.kinds
      · exact (ih k hold).imp_right (Unchecked.kept h)
      · cases hsettings : c.settings.strictPreferred with
        | true => exact Or.inl ((layered_of_addLayer h).prefersImplemented hsettings hk hold)
        | false => exact Or.inr (Unchecked.lax hbase h hsettings hk hold)

/-- All kinds of a built catalog, a strict one or not, implement what they prefer exactly if those
do that were registered without being checked. -/
theorem prefersImplemented_iff_unchecked {c : Catalog} (hc : c.Built) :
    (∀ k ∈ c.kinds, k.discovery.prefersImplemented = true) ↔
      ∀ k, c.Unchecked k → k.discovery.prefersImplemented = true := by
  constructor
  · intro h k hk
    exact h k hk.mem_kinds
  · intro h k hk
    rcases hc.prefersImplemented_or_unchecked k hk with hp | hp
    · exact hp
    · exact h k hp

/-! ## A strict layer over a lax one -/

def oddLayer : Layer where
  settings := none
  capabilities := []
  kinds := [⟨"Odd", none, ["Numeric"], some "Textual", none⟩]

def oddKind : Kind := ⟨⟨"Odd", .catalog, [.numeric], some .textual, none⟩, []⟩

def strictLayer : Layer where
  settings := some ⟨true, true⟩
  capabilities := []
  kinds := []

/-- The builtin catalog with a kind that prefers what it does not implement, made strict. -/
def strictOdd : Catalog where
  capabilities := builtin.capabilities
  kinds := builtin.kinds ++ [oddKind]
  settings := ⟨true, true⟩

theorem built_strictOdd : strictOdd.Built := by
  have hodd : (builtin.addLayer oddLayer).run.value =
      .ok { strictOdd with settings := builtin.settings } := by cbv
  have hstrict : (({ strictOdd with settings := builtin.settings } : Catalog).addLayer
      strictLayer).run.value = .ok strictOdd := by cbv
  exact (Built.builtin.layer hodd).layer hstrict

/-- The kind is there although the catalog is strict, so it went unchecked. -/
theorem prefersImplemented_iff_unchecked_strictOdd :
    strictOdd.Built ∧ strictOdd.settings.strictPreferred = true ∧
      ∃ k, strictOdd.Unchecked k ∧ k.discovery.prefersImplemented = false := by
  have hiff := prefersImplemented_iff_unchecked built_strictOdd
  have hodd : ¬∀ k ∈ strictOdd.kinds, k.discovery.prefersImplemented = true := by decide
  rw [hiff] at hodd
  push Not at hodd
  obtain ⟨k, hk, hp⟩ := hodd
  exact ⟨built_strictOdd, rfl, k, hk, Bool.eq_false_iff.mpr hp⟩

theorem strict_keeps_unimplemented_preference :
    strictOdd.Built ∧ strictOdd.settings.strictPreferred = true ∧ oddKind ∈ strictOdd.kinds ∧
      oddKind.discovery.prefersImplemented = false :=
  ⟨built_strictOdd, rfl, by decide, by decide⟩

end Catalog

end ColumnTypes
