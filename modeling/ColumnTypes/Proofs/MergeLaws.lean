import ColumnTypes.Proofs.Reach

namespace ColumnTypes.Descriptor

/-!
# Laws of the merge

The merge keeps the order and the binding of its left side where it can, so it
is commutative only up to agreement. Missing is a neutral element on the nose.
-/

theorem agrees_refl (t : Descriptor) : t.agrees t = true := by
  simp [agrees, namesWithin_iff]

theorem agrees_comm (t u : Descriptor) : t.agrees u = u.agrees t := by
  have hswap : ∀ {t u : Descriptor}, t.agrees u = true → u.agrees t = true := by
    intro t u h
    simp only [agrees, Bool.and_eq_true, beq_iff_eq] at h ⊢
    obtain ⟨⟨⟨⟨hflag, hpreferred⟩, hlength⟩, htu⟩, hut⟩ := h
    exact ⟨⟨⟨⟨hflag.symm, hpreferred.symm⟩, hlength.symm⟩, hut⟩, htu⟩
  rw [Bool.eq_iff_iff]
  exact ⟨hswap, hswap⟩

theorem agrees_trans {t u v : Descriptor} (ht : t.WellShaped) (hu : u.WellShaped)
    (hv : v.WellShaped) (htu : t.agrees u = true) (huv : u.agrees v = true) :
    t.agrees v = true := by
  obtain ⟨hpreferred, hnames⟩ := (agrees_iff ht hu).mp htu
  obtain ⟨hpreferred', hnames'⟩ := (agrees_iff hu hv).mp huv
  exact (agrees_iff ht hv).mpr
    ⟨hpreferred.trans hpreferred', fun n => (hnames n).trans (hnames' n)⟩

theorem merge_self (t : Descriptor) : t.merge t = t := by
  cases htm : t.isMissing with
  | true => exact merge_of_isMissing_left htm t
  | false => simp [merge, htm, generalizes_refl, agrees_refl]

theorem merge_missing {t : Descriptor} (ht : t.WellShaped) : t.merge missing = t := by
  cases htm : t.isMissing with
  | true => exact (merge_of_isMissing_left htm missing).trans (ht.missing_unique htm).symm
  | false => exact merge_missing_right htm

theorem agrees_intersection_comm {t u : Descriptor} (ht : t.WellShaped) (hu : u.WellShaped) :
    (t.intersection u).agrees (u.intersection t) = true := by
  rw [agrees_iff (wellShaped_intersection ht u) (wellShaped_intersection hu t)]
  constructor
  · rw [preferredName?_intersection, preferredName?_intersection]
    by_cases heq : t.preferredName? = u.preferredName?
    · rw [if_pos heq, if_pos heq.symm, heq]
    · rw [if_neg heq, if_neg (Ne.symm heq)]
  · intro n
    rw [names_intersection, names_intersection, and_comm]

/-- The two orders take the same branch. Only for mutual supertypes that agree and for
intersections do they give different descriptors. -/
theorem agrees_merge_comm_of_present {t u : Descriptor} (ht : t.WellShaped) (hu : u.WellShaped)
    (htm : t.isMissing = false) (hum : u.isMissing = false) :
    (t.merge u).agrees (u.merge t) = true := by
  have hboth := agrees_intersection_comm ht hu
  cases htu : t.generalizes u with
  | true =>
      cases hut : u.generalizes t with
      | true =>
          cases hagree : t.agrees u with
          | true => simp [merge, htm, hum, htu, hut, hagree, agrees_comm u t]
          | false => simpa [merge, htm, hum, htu, hut, hagree, agrees_comm u t] using hboth
      | false => simp [merge, htm, hum, htu, hut, agrees_refl]
  | false =>
      cases hut : u.generalizes t with
      | true => simp [merge, htm, hum, htu, hut, agrees_refl]
      | false => simpa [merge, htm, hum, htu, hut] using hboth

theorem agrees_merge_comm {t u : Descriptor} (ht : t.WellShaped) (hu : u.WellShaped) :
    (t.merge u).agrees (u.merge t) = true := by
  cases htm : t.isMissing with
  | true =>
      rw [merge_of_isMissing_left htm, ht.missing_unique htm, merge_missing hu]
      exact agrees_refl u
  | false =>
      cases hum : u.isMissing with
      | true =>
          rw [merge_of_isMissing_left hum, hu.missing_unique hum, merge_missing ht]
          exact agrees_refl t
      | false => exact agrees_merge_comm_of_present ht hu htm hum

/-- The merge is commutative and idempotent up to agreement, and missing changes nothing of the
other side. -/
theorem merge_laws {t u : Descriptor} (ht : t.Constructible) (hu : u.Constructible) :
    (t.merge u).agrees (u.merge t) = true ∧ (t.merge t).agrees t = true ∧
      missing.merge t = t ∧ t.merge missing = t := by
  refine ⟨agrees_merge_comm ht.wellShaped hu.wellShaped, ?_, rfl, merge_missing ht.wellShaped⟩
  rw [merge_self]
  exact agrees_refl t

theorem merge_laws_whole_flag :
    (ofKind .whole).Constructible ∧ (ofKind .flag).Constructible ∧
      ((ofKind .whole).merge (ofKind .flag)).agrees ((ofKind .flag).merge (ofKind .whole)) =
        true :=
  ⟨constructible_ofKind .whole, constructible_ofKind .flag,
    (merge_laws (constructible_ofKind .whole) (constructible_ofKind .flag)).1⟩

end ColumnTypes.Descriptor
