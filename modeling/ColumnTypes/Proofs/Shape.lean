import ColumnTypes.Proofs.History

namespace ColumnTypes.Descriptor

/-!
# The shape of descriptors

Every descriptor that can be obtained lists each name once and has a preferred
capability where it says so. For descriptors of this shape, agreement is the
same preference together with the same names.
-/

open Capability (isListed_iff names)

/-! ## Branches of the merge -/

theorem merge_of_isMissing_left {t : Descriptor} (ht : t.isMissing = true) (u : Descriptor) :
    t.merge u = u := by
  simp [merge, ht]

theorem merge_of_isMissing_right {t u : Descriptor} (ht : t.isMissing = false)
    (hu : u.isMissing = true) : t.merge u = t := by
  simp [merge, ht, hu]

/-- The three outcomes for descriptors that are not missing, and when each of them is taken. -/
inductive MergeCase (t u : Descriptor) : Prop
  | left (hle : t.generalizes u = true)
      (hstop : u.generalizes t = false ∨ t.agrees u = true) (heq : t.merge u = t)
  | right (hnot : t.generalizes u = false) (hle : u.generalizes t = true)
      (heq : t.merge u = u)
  | intersect (hiff : t.generalizes u = u.generalizes t)
      (hdiff : t.generalizes u = false ∨ t.agrees u = false)
      (heq : t.merge u = t.intersection u)

theorem mergeCase {t u : Descriptor} (ht : t.isMissing = false) (hu : u.isMissing = false) :
    MergeCase t u := by
  cases htu : t.generalizes u with
  | true =>
      cases hut : u.generalizes t with
      | false => exact .left htu (Or.inl hut) (by simp [merge, ht, hu, htu, hut])
      | true =>
          cases hagree : t.agrees u with
          | true => exact .left htu (Or.inr hagree) (by simp [merge, ht, hu, htu, hut, hagree])
          | false =>
              exact .intersect (htu.trans hut.symm) (Or.inr hagree)
                (by simp [merge, ht, hu, htu, hut, hagree])
  | false =>
      cases hut : u.generalizes t with
      | true => exact .right htu hut (by simp [merge, ht, hu, htu, hut])
      | false =>
          exact .intersect (htu.trans hut.symm) (Or.inl htu) (by simp [merge, ht, hu, htu, hut])

theorem merge_induction {P : Descriptor → Prop} {t u : Descriptor} (ht : P t) (hu : P u)
    (hboth : P (t.intersection u)) : P (t.merge u) := by
  cases htm : t.isMissing with
  | true =>
      rw [merge_of_isMissing_left htm]
      exact hu
  | false =>
      cases hum : u.isMissing with
      | true =>
          rw [merge_of_isMissing_right htm hum]
          exact ht
      | false =>
          cases mergeCase htm hum with
          | left _ _ heq =>
              rw [heq]
              exact ht
          | right _ _ heq =>
              rw [heq]
              exact hu
          | intersect _ _ heq =>
              rw [heq]
              exact hboth

theorem isMissing_merge {t u : Descriptor} (ht : t.isMissing = false) (hu : u.isMissing = false) :
    (t.merge u).isMissing = false :=
  merge_induction (P := fun v => v.isMissing = false) ht hu rfl

theorem isMissing_merge_iff {t u : Descriptor} :
    (t.merge u).isMissing = true ↔ t.isMissing = true ∧ u.isMissing = true := by
  cases htm : t.isMissing with
  | true => simp [merge_of_isMissing_left htm]
  | false =>
      cases hum : u.isMissing with
      | true => simp [merge_of_isMissing_right htm hum, htm]
      | false => simp [isMissing_merge htm hum]

/-! ## Shape -/

structure WellShaped (t : Descriptor) : Prop where
  nodup_names : (names t.capabilities).Nodup
  nonempty : t.hasPreferred = true → t.capabilities ≠ []
  missing_unique : t.isMissing = true → t = missing

theorem wellShaped_missing : missing.WellShaped where
  nodup_names := List.nodup_nil
  nonempty := nofun
  missing_unique _ := rfl

theorem nodup_names_cons_filter {cs : List Capability} (hcs : (names cs).Nodup) (c : Capability) :
    (names (c :: cs.filter fun d => d.name != c.name)).Nodup := by
  rw [names, List.map_cons, List.nodup_cons]
  refine ⟨by simp, ?_⟩
  exact hcs.sublist (List.filter_sublist.map Capability.name)

theorem wellShaped_bound {d : Discovery} (hd : (names d.capabilities).Nodup) (k : Kind) :
    (bound k d).WellShaped where
  nodup_names := by
    unfold bound
    cases d.preferred with
    | none => exact hd
    | some p => exact nodup_names_cons_filter hd p
  nonempty := by
    unfold bound
    cases d.preferred with
    | none => simp
    | some p => simp
  missing_unique := nofun

theorem wellShaped_ofKind (k : Kind) : (ofKind k).WellShaped :=
  wellShaped_bound (Capability.nodup_names_closure _) k

theorem preferring_eq_ok_iff {t u : Descriptor} {c : Capability} :
    t.preferring c = .ok u ↔ c.isListed t.capabilities = true ∧
      u = unbound (c :: t.capabilities.filter fun d => d.name != c.name) true := by
  unfold preferring
  split
  · rename_i hc
    simp [hc, eq_comm]
  · rename_i hc
    simp [hc]

theorem wellShaped_preferring {t u : Descriptor} (ht : t.WellShaped) {c : Capability}
    (h : t.preferring c = .ok u) : u.WellShaped := by
  obtain ⟨-, rfl⟩ := preferring_eq_ok_iff.mp h
  exact ⟨nodup_names_cons_filter ht.nodup_names c, fun _ => List.cons_ne_nil _ _, nofun⟩

theorem repeated?_eq_none_iff {earlier cs : List Capability} :
    repeated? earlier cs = none ↔
      (names cs).Nodup ∧ ∀ c ∈ cs, c.isListed earlier = false := by
  induction cs generalizing earlier with
  | nil => simp [repeated?, names]
  | cons c cs ih =>
      rw [repeated?]
      cases hc : c.isListed earlier with
      | true => simp [hc]
      | false =>
          rw [if_neg Bool.false_ne_true, ih]
          have hlisted : ∀ d : Capability, d.isListed (earlier ++ [c]) = false ↔
              d.isListed earlier = false ∧ c.name ≠ d.name := by
            intro d
            simp [Capability.isListed]
          simp only [hlisted, names, List.map_cons, List.nodup_cons, List.mem_map,
            List.forall_mem_cons, hc]
          grind

/-- The search stops at the first capability whose name has stood before. -/
theorem repeated?_eq_some_iff {earlier cs : List Capability} {c : Capability} :
    repeated? earlier cs = some c ↔ ∃ before after, cs = before ++ c :: after ∧
      repeated? earlier before = none ∧ c.isListed (earlier ++ before) = true := by
  induction cs generalizing earlier with
  | nil => simp [repeated?]
  | cons d cs ih =>
      rw [repeated?]
      cases hd : d.isListed earlier with
      | true =>
          rw [if_pos rfl]
          constructor
          · rintro ⟨⟩
            exact ⟨[], cs, rfl, rfl, by simpa using hd⟩
          · rintro ⟨before, after, heq, hnone, -⟩
            cases before with
            | nil => exact congrArg some (List.cons.inj heq).1
            | cons x before =>
                obtain ⟨rfl, -⟩ := List.cons.inj heq
                rw [repeated?, if_pos hd] at hnone
                cases hnone
      | false =>
          rw [if_neg Bool.false_ne_true, ih]
          constructor
          · rintro ⟨before, after, rfl, hnone, hc⟩
            refine ⟨d :: before, after, rfl, ?_, by simpa using hc⟩
            rw [repeated?, hd, if_neg Bool.false_ne_true, hnone]
          · rintro ⟨before, after, heq, hnone, hc⟩
            cases before with
            | nil =>
                obtain ⟨rfl, -⟩ := List.cons.inj heq
                rw [List.append_nil] at hc
                exact absurd (hd.symm.trans hc) Bool.false_ne_true
            | cons x before =>
                obtain ⟨rfl, rfl⟩ := List.cons.inj heq
                rw [repeated?, hd, if_neg Bool.false_ne_true] at hnone
                exact ⟨before, after, rfl, hnone, by simpa using hc⟩

/-- A list is refused exactly if it repeats a name or is empty with the flag set. -/
theorem ofList_eq_ok_iff {flag : Bool} {cs : List Capability} {t : Descriptor} :
    ofList flag cs = .ok t ↔
      t = unbound cs flag ∧ (names cs).Nodup ∧ ¬(flag = true ∧ cs = []) := by
  unfold ofList
  split
  · rename_i hflag
    have hempty : flag = true ∧ cs = [] := by simpa using hflag
    simp [hempty]
  · rename_i hflag
    have hfilled : ¬(flag = true ∧ cs = []) := by simpa using hflag
    split
    · rename_i c hrepeated
      have hnodup : ¬(names cs).Nodup := by
        intro hnodup
        have hnone : repeated? [] cs = none := repeated?_eq_none_iff.mpr ⟨hnodup, fun _ _ => rfl⟩
        rw [hrepeated] at hnone
        cases hnone
      simp [hnodup]
    · rename_i hrepeated
      have hnodup := (repeated?_eq_none_iff.mp hrepeated).1
      simp [hnodup, hfilled, eq_comm]

theorem repeated?_nil_eq_some_iff {cs : List Capability} {c : Capability} :
    repeated? [] cs = some c ↔ ∃ before after, cs = before ++ c :: after ∧
      (names before).Nodup ∧ c.name ∈ names before := by
  have hnil : ∀ d : Capability, d.isListed [] = false := fun _ => rfl
  simp only [repeated?_eq_some_iff, repeated?_eq_none_iff, List.nil_append, isListed_iff, hnil,
    implies_true, and_true]

/-- The flag of an empty list is found first, and of the repeated names the first one. -/
theorem ofList_eq_error_iff {flag : Bool} {cs : List Capability} {e : Descriptor.Error} :
    ofList flag cs = .error e ↔
      (flag = true ∧ cs = [] ∧
        e = .invalidArgument "preferred capability flag set on an empty capability list") ∨
      ∃ before c after, cs = before ++ c :: after ∧ (names before).Nodup ∧
        c.name ∈ names before ∧ e = .invalidArgument s!"capability '{c.name}' listed twice" := by
  unfold ofList
  split
  · rename_i hempty
    obtain ⟨rfl, rfl⟩ : flag = true ∧ cs = [] := by simpa using hempty
    simp [eq_comm]
  · rename_i hfilled
    have hfilled : ¬(flag = true ∧ cs = []) := by simpa using hfilled
    split
    · rename_i c hrepeated
      obtain ⟨before, after, heq, hnodup, hc⟩ := repeated?_nil_eq_some_iff.mp hrepeated
      constructor
      · rintro ⟨⟩
        exact Or.inr ⟨before, c, after, heq, hnodup, hc, rfl⟩
      · rintro (⟨hflag, hnil, -⟩ | ⟨before', c', after', heq', hnodup', hc', rfl⟩)
        · exact absurd ⟨hflag, hnil⟩ hfilled
        · have hsame := repeated?_nil_eq_some_iff.mpr ⟨before', after', heq', hnodup', hc'⟩
          obtain rfl := Option.some.inj (hrepeated.symm.trans hsame)
          rfl
    · rename_i hrepeated
      constructor
      · rintro ⟨⟩
      · rintro (⟨hflag, hnil, -⟩ | ⟨before, c, after, heq, hnodup, hc, -⟩)
        · exact absurd ⟨hflag, hnil⟩ hfilled
        · have hsome := repeated?_nil_eq_some_iff.mpr ⟨before, after, heq, hnodup, hc⟩
          cases hrepeated.symm.trans hsome

theorem wellShaped_ofList {flag : Bool} {cs : List Capability} {u : Descriptor}
    (h : ofList flag cs = .ok u) : u.WellShaped := by
  obtain ⟨rfl, hnodup, hfilled⟩ := ofList_eq_ok_iff.mp h
  exact ⟨hnodup, fun hflag hnil => hfilled ⟨hflag, hnil⟩, nofun⟩

/-! ## Preference -/

theorem preferredName?_eq_none_of_nil {t : Descriptor} (h : t.capabilities = []) :
    t.preferredName? = none := by
  simp [preferredName?, preferred?, h]

theorem preferred?_of_cons {t : Descriptor} {c : Capability} {cs : List Capability}
    (h : t.capabilities = c :: cs) : t.preferred? = if t.hasPreferred then some c else none := by
  rw [preferred?, h]
  rfl

theorem preferredName?_of_cons {t : Descriptor} {c : Capability} {cs : List Capability}
    (h : t.capabilities = c :: cs) :
    t.preferredName? = if t.hasPreferred then some c.name else none := by
  rw [preferredName?, preferred?_of_cons h]
  split <;> rfl

theorem WellShaped.isSome_preferredName? {t : Descriptor} (ht : t.WellShaped) :
    t.preferredName?.isSome = t.hasPreferred := by
  cases hcs : t.capabilities with
  | nil =>
      rw [preferredName?_eq_none_of_nil hcs]
      cases hflag : t.hasPreferred with
      | false => rfl
      | true => exact absurd hcs (ht.nonempty hflag)
  | cons c cs =>
      rw [preferredName?_of_cons hcs]
      cases t.hasPreferred <;> rfl

theorem mem_names_of_preferredName? {t : Descriptor} {n : String}
    (h : t.preferredName? = some n) : n ∈ names t.capabilities := by
  cases hcs : t.capabilities with
  | nil =>
      rw [preferredName?_eq_none_of_nil hcs] at h
      cases h
  | cons c cs =>
      rw [preferredName?_of_cons hcs] at h
      split at h
      · exact Option.some.inj h ▸ List.mem_cons_self
      · cases h

theorem bothPrefer_iff {t u : Descriptor} :
    t.bothPrefer u = true ↔ t.preferredName? = u.preferredName? ∧ t.preferredName? ≠ none := by
  unfold bothPrefer
  cases t.preferredName? with
  | none => simp
  | some p => cases u.preferredName? <;> simp

/-- The shared preference is kept in front, because it is listed on both sides. -/
theorem preferred?_intersection (t u : Descriptor) :
    (t.intersection u).preferred? =
      if t.preferredName? = u.preferredName? then t.preferred? else none := by
  cases hboth : t.bothPrefer u with
  | false =>
      have hleft : (t.intersection u).preferred? = none := by
        simp [preferred?, intersection, unbound, hboth]
      rw [hleft]
      split
      · rename_i heq
        by_contra hne
        have hname : t.preferredName? ≠ none := fun h => hne (Option.map_eq_none_iff.mp h).symm
        exact Bool.false_ne_true (hboth.symm.trans (bothPrefer_iff.mpr ⟨heq, hname⟩))
      · rfl
  | true =>
      obtain ⟨heq, hne⟩ := bothPrefer_iff.mp hboth
      rw [if_pos heq]
      cases hcs : t.capabilities with
      | nil => exact absurd (preferredName?_eq_none_of_nil hcs) hne
      | cons c cs =>
          obtain ⟨p, hp⟩ := Option.ne_none_iff_exists'.mp hne
          have hflag : t.hasPreferred = true ∧ c.name = p := by
            simpa [preferredName?_of_cons hcs] using hp
          have hlisted : c.isListed u.capabilities = true :=
            isListed_iff.mpr (hflag.2 ▸ mem_names_of_preferredName? (heq ▸ hp))
          have hhead : (t.intersection u).capabilities =
              c :: cs.filter fun d => d.isListed u.capabilities := by
            simp [intersection, unbound, hcs, hlisted]
          have hkept : (t.intersection u).hasPreferred = true := hboth
          rw [preferred?_of_cons hhead, preferred?_of_cons hcs, hkept, hflag.1]

theorem preferredName?_intersection (t u : Descriptor) :
    (t.intersection u).preferredName? =
      if t.preferredName? = u.preferredName? then t.preferredName? else none := by
  rw [preferredName?, preferred?_intersection]
  split <;> rfl

theorem names_intersection (t u : Descriptor) (n : String) :
    n ∈ names (t.intersection u).capabilities ↔
      n ∈ names t.capabilities ∧ n ∈ names u.capabilities := by
  simp only [names, intersection, unbound, List.mem_map, List.mem_filter, isListed_iff]
  constructor
  · rintro ⟨c, ⟨hc, d, hd, hname⟩, rfl⟩
    exact ⟨⟨c, hc, rfl⟩, d, hd, hname⟩
  · rintro ⟨⟨c, hc, rfl⟩, d, hd, hname⟩
    exact ⟨c, ⟨hc, d, hd, hname⟩, rfl⟩

theorem wellShaped_intersection {t : Descriptor} (ht : t.WellShaped) (u : Descriptor) :
    (t.intersection u).WellShaped where
  nodup_names := ht.nodup_names.sublist (List.filter_sublist.map Capability.name)
  nonempty := by
    intro hflag hnil
    obtain ⟨heq, hne⟩ := bothPrefer_iff.mp hflag
    have hnone := preferredName?_eq_none_of_nil hnil
    rw [preferredName?_intersection, if_pos heq] at hnone
    exact hne hnone
  missing_unique := nofun

theorem wellShaped_merge {t u : Descriptor} (ht : t.WellShaped) (hu : u.WellShaped) :
    (t.merge u).WellShaped :=
  merge_induction ht hu (wellShaped_intersection ht u)

/-! ## Agreement -/

theorem namesWithin_iff {cs ds : List Capability} :
    namesWithin cs ds = true ↔ names cs ⊆ names ds := by
  simp only [namesWithin, List.all_eq_true, isListed_iff, names, List.subset_def, List.mem_map,
    forall_exists_index, and_imp, forall_apply_eq_imp_iff₂]

/-- For well-shaped descriptors the flag and the length add nothing to the names. -/
theorem agrees_iff {t u : Descriptor} (ht : t.WellShaped) (hu : u.WellShaped) :
    t.agrees u = true ↔ t.preferredName? = u.preferredName? ∧
      ∀ n, n ∈ names t.capabilities ↔ n ∈ names u.capabilities := by
  unfold agrees
  simp only [Bool.and_eq_true, beq_iff_eq, namesWithin_iff]
  constructor
  · rintro ⟨⟨⟨⟨-, hpreferred⟩, -⟩, htu⟩, hut⟩
    exact ⟨hpreferred, fun n => ⟨fun h => htu h, fun h => hut h⟩⟩
  · rintro ⟨hpreferred, hnames⟩
    have hperm : (names t.capabilities).Perm (names u.capabilities) :=
      (List.perm_ext_iff_of_nodup ht.nodup_names hu.nodup_names).mpr hnames
    refine ⟨⟨⟨⟨?_, hpreferred⟩, ?_⟩, hperm.subset⟩, hperm.symm.subset⟩
    · rw [← ht.isSome_preferredName?, ← hu.isSome_preferredName?, hpreferred]
    · simpa [names] using hperm.length_eq

end ColumnTypes.Descriptor
