import ColumnTypes.Proofs.Obtainable

namespace ColumnTypes.Descriptor

/-!
# The preferred capability

Only its place tells the preferred capability from the others. However a
descriptor was obtained, the first of its list is the capability that the kind
prefers, that was asked for, or that both sides of a merge prefer.
-/

open Capability (names)

/-! ## Ways to obtain a descriptor -/

/-- Implemented or not, the preference of a kind is put in front. -/
theorem preferred?_bound (k : Kind) (d : Discovery) : (bound k d).preferred? = d.preferred := by
  cases hpreferred : d.preferred with
  | none => simp [preferred?, bound, hpreferred]
  | some p => simp [preferred?, bound, hpreferred]

theorem preferred?_ofKind (k : Kind) : (ofKind k).preferred? = k.preferred :=
  preferred?_bound k k.discovery

theorem preferred?_preferring {t u : Descriptor} {c : Capability} (h : t.preferring c = .ok u) :
    u.preferred? = some c := by
  obtain ⟨-, rfl⟩ := preferring_eq_ok_iff.mp h
  rfl

theorem mem_of_preferred? {t : Descriptor} {p : Capability} (h : t.preferred? = some p) :
    p ∈ t.capabilities := by
  unfold preferred? at h
  split at h
  · exact List.mem_of_head? h
  · cases h

/-- Both sides are present, and neither of them is returned for being above the other. -/
structure Undecided (t u : Descriptor) : Prop where
  left_present : t.isMissing = false
  right_present : u.isMissing = false
  mutual_or_neither : t.generalizes u = u.generalizes t
  differ : t.generalizes u = true → t.agrees u = false

theorem Undecided.merge_eq {t u : Descriptor} (h : Undecided t u) :
    t.merge u = t.intersection u := by
  cases mergeCase h.left_present h.right_present with
  | left hle hstop _ =>
      have hmutual : u.generalizes t = true := h.mutual_or_neither ▸ hle
      rcases hstop with hnot | hagree
      · exact absurd (hnot.symm.trans hmutual) Bool.false_ne_true
      · exact absurd ((h.differ hle).symm.trans hagree) Bool.false_ne_true
  | right hnot hle _ =>
      exact absurd (hnot.symm.trans (h.mutual_or_neither.trans hle)) Bool.false_ne_true
  | intersect _ _ heq => exact heq

/-- Sides with different preferences leave none, and a shared one is kept as the left side has
it. -/
theorem Undecided.preferred?_merge_iff {t u : Descriptor} (h : Undecided t u) {p : Capability} :
    (t.merge u).preferred? = some p ↔ t.preferred? = some p ∧ u.preferredName? = some p.name := by
  have hname : t.preferred? = some p → t.preferredName? = some p.name := by
    intro hp
    rw [preferredName?, hp]
    rfl
  rw [h.merge_eq, preferred?_intersection]
  split
  · rename_i heq
    exact ⟨fun hp => ⟨hp, heq ▸ hname hp⟩, And.left⟩
  · rename_i hne
    constructor
    · rintro ⟨⟩
    · rintro ⟨hp, hu⟩
      exact absurd ((hname hp).trans hu.symm) hne

/-! ## The representation -/

theorem WellShaped.preferred_first {t : Descriptor} (ht : t.WellShaped)
    (hflag : t.hasPreferred = true) :
    ∃ p rest, t.capabilities = p :: rest ∧ t.preferred? = some p := by
  obtain ⟨p, rest, hcs⟩ := List.exists_cons_of_ne_nil (ht.nonempty hflag)
  refine ⟨p, rest, hcs, ?_⟩
  rw [preferred?_of_cons hcs, if_pos hflag]

/-- A descriptor lists no capability twice, and where it has a preference, that is the first one:
for a kind the preference in effect, after a choice the chosen capability, and for sides that are
intersected the one that both prefer. A list makes a descriptor unless it repeats a name or is to
have a preference and is empty. -/
theorem preferred_leads {t : Descriptor} (ht : t.Constructible) :
    (names t.capabilities).Nodup ∧
      (t.hasPreferred = true →
        ∃ p rest, t.capabilities = p :: rest ∧ t.preferred? = some p) ∧
      (∀ (c : Catalog) (calls : List Catalog.Call) (k : Kind),
        (c.descriptorOf k (c.memoAfter calls)).value.1.preferred? = k.preferred) ∧
      (∀ c u, t.preferring c = .ok u → u.preferred? = some c) ∧
      (∀ u, Undecided t u → ∀ p, (t.merge u).preferred? = some p ↔
        t.preferred? = some p ∧ u.preferredName? = some p.name) ∧
      ∀ flag cs, (∃ u, ofList flag cs = .ok u) ↔
        (names cs).Nodup ∧ ¬(flag = true ∧ cs = []) := by
  refine ⟨ht.wellShaped.nodup_names, ht.wellShaped.preferred_first, ?_, ?_, ?_, ?_⟩
  · intro c calls k
    rw [(Catalog.descriptorOf_spec (Catalog.faithful_memoAfter c calls) k).1]
    exact preferred?_ofKind k
  · exact fun _ _ => preferred?_preferring
  · exact fun _ hundecided _ => hundecided.preferred?_merge_iff
  · intro flag cs
    constructor
    · rintro ⟨u, hu⟩
      exact (ofList_eq_ok_iff.mp hu).2
    · intro hcs
      exact ⟨unbound cs flag, ofList_eq_ok_iff.mpr ⟨rfl, hcs⟩⟩

/-- A kind that no catalog holds, with an inherited preference that nothing implements. -/
def inheritsUnimplemented : Kind :=
  ⟨⟨"Whole", .standalone, [.numeric, .comparable], none, none⟩,
    [⟨"Odd", .standalone, [], some .textual, none⟩]⟩

/-- The preference that only one list implements is what the two lists share, so it stays. -/
theorem preferred_leads_unimplemented :
    (ofKind inheritsUnimplemented).Constructible ∧
      Undecided (ofKind inheritsUnimplemented) (unbound [.textual, .logical] true) ∧
      (ofKind inheritsUnimplemented).capabilities = [.textual, .numeric, .comparable] ∧
      ((ofKind inheritsUnimplemented).merge (unbound [.textual, .logical] true)).preferred? =
        some .textual := by
  have hundecided : Undecided (ofKind inheritsUnimplemented) (unbound [.textual, .logical] true) :=
    ⟨rfl, rfl, by decide, by decide⟩
  have hmerge := (preferred_leads (constructible_ofKind inheritsUnimplemented)).2.2.2.2.1
    _ hundecided .textual
  exact ⟨constructible_ofKind _, hundecided, by decide, hmerge.mpr ⟨by decide, by decide⟩⟩

end ColumnTypes.Descriptor
