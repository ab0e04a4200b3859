import ColumnTypes.Proofs.Columns

namespace ColumnTypes

/-!
# Merging in another order

The names of a merge do not depend on the order of what is merged. The
preference can: a strictly narrower descriptor imposes its own, and otherwise
only a common one is kept. It is the same in every order exactly if the
descriptors are settled.
-/

namespace Descriptor

open Capability (Hierarchy names)

/-! ## Settled descriptors -/

/-- Merging those that prefer `q` first leaves `q`, because the others are then strictly wider. -/
structure Favours (ts : List Descriptor) (q : String) : Prop where
  preferring : ∃ t ∈ ts, t.preferredName? = some q
  determined : ∀ n, (∀ t ∈ ts, t.preferredName? = some q → n ∈ names t.capabilities) →
    ∀ t ∈ ts, n ∈ names t.capabilities
  narrowest : ∀ t ∈ ts, (∀ n ∈ names t.capabilities, ∀ u ∈ ts, n ∈ names u.capabilities) →
    t.preferredName? = some q

/-- The names of the bound separate those that impose the preference `q` from wider ones. -/
structure Imposes (ts : List Descriptor) (q : String) (bound : List String) : Prop where
  inside : ∃ t ∈ ts, ¬bound ⊆ names t.capabilities
  separated : ∀ t ∈ ts, ¬bound ⊆ names t.capabilities →
    names t.capabilities ⊆ bound ∧ t.preferredName? = some q

theorem Favours.of_perm {ts us : List Descriptor} {q : String} (h : Favours us q)
    (hperm : us.Perm ts) : Favours ts q := by
  obtain ⟨hpreferring, hdetermined, hnarrowest⟩ := h
  simp only [hperm.mem_iff] at hpreferring hdetermined hnarrowest
  exact ⟨hpreferring, hdetermined, hnarrowest⟩

theorem Imposes.of_perm {ts us : List Descriptor} {q : String} {bound : List String}
    (h : Imposes us q bound) (hperm : us.Perm ts) : Imposes ts q bound := by
  obtain ⟨hinside, hseparated⟩ := h
  simp only [hperm.mem_iff] at hinside hseparated
  exact ⟨hinside, hseparated⟩

/-- All prefer the same, some impose their preference on the others, or no preference is left. -/
def Settled (ts : List Descriptor) : Prop :=
  (∃ p, ∀ t ∈ ts, t.preferredName? = p) ∨ (∃ q bound, Imposes ts q bound) ∨
    ∀ q, ¬Favours ts q

theorem preferredName?_mergeAll_of_forall {ts : List Descriptor} {p : Option String}
    (hts : ∀ t ∈ ts, t.preferredName? = p) (hne : ts ≠ []) :
    (mergeAll ts).preferredName? = p := by
  refine mergeAll_induction (P := fun _ v => v.preferredName? = p) hts hne (fun _ ht => ht) ?_
  intro us t _ _ ht hacc
  apply merge_induction (P := fun v => v.preferredName? = p) hacc ht
  rw [preferredName?_intersection, hacc, ht, if_pos rfl]

variable {cs : List Capability} (hcs : Hierarchy cs)
include hcs

/-- A side decides on the preference unless the other one is narrower. -/
theorem Closed.preferredName?_merge_eq_some_iff {t u : Descriptor} (ht : t.Closed cs)
    (hu : u.Closed cs) {q : String} :
    (t.merge u).preferredName? = some q ↔
      (t.preferredName? = some q ∨ u.Narrower t) ∧ (u.preferredName? = some q ∨ t.Narrower u) := by
  by_cases htu : t.Narrower u
  · have hut : ¬u.Narrower t := fun hut => htu.2 hut.1
    rw [ht.merge_of_narrower hcs hu htu]
    simp [htu, hut]
  · by_cases hut : u.Narrower t
    · rw [ht.merge_of_narrower_right hcs hu hut]
      simp [htu, hut]
    · rw [ht.preferredName?_merge hcs hu htu hut]
      simp only [htu, hut, or_false]
      constructor
      · intro h
        split at h
        · rename_i heq
          exact ⟨h, heq ▸ h⟩
        · cases h
      · rintro ⟨h, h'⟩
        rw [if_pos (h.trans h'.symm), h]

/-! ## What an order can leave -/

theorem determined_of_preferredName?_mergeAll {ts : List Descriptor}
    (hts : ∀ t ∈ ts, t.Closed cs) (hne : ts ≠ []) {q : String}
    (h : (mergeAll ts).preferredName? = some q) :
    (∃ t ∈ ts, t.preferredName? = some q) ∧
      ∀ n, (∀ t ∈ ts, t.preferredName? = some q → n ∈ names t.capabilities) →
        n ∈ names (mergeAll ts).capabilities := by
  revert h
  refine mergeAll_induction (P := fun us v => v.preferredName? = some q →
    (∃ t ∈ us, t.preferredName? = some q) ∧
      ∀ n, (∀ t ∈ us, t.preferredName? = some q → n ∈ names t.capabilities) →
        n ∈ names v.capabilities) hts hne ?_ ?_
  · intro t _ ht
    exact ⟨⟨t, List.mem_cons_self, ht⟩, fun n hn => hn t List.mem_cons_self ht⟩
  · intro us t hus hnil ht ih h
    have hacc := closed_mergeAll hcs hus hnil
    obtain ⟨hleft, hright⟩ := (hacc.preferredName?_merge_eq_some_iff hcs ht).mp h
    have hmem : t ∈ us ++ [t] := List.mem_append_right us List.mem_cons_self
    constructor
    · rcases hright with htq | hnarrow
      · exact ⟨t, hmem, htq⟩
      · have hq := hleft.resolve_right fun hn => hn.2 hnarrow.1
        obtain ⟨u, hu, huq⟩ := (ih hq).1
        exact ⟨u, List.mem_append_left [t] hu, huq⟩
    · intro n hn
      rw [hacc.names_merge hcs ht]
      have hearlier : (mergeAll us).preferredName? = some q →
          n ∈ names (mergeAll us).capabilities :=
        fun hq => (ih hq).2 n fun u hu => hn u (List.mem_append_left [t] hu)
      rcases hleft with hq | hnarrow
      · refine ⟨hearlier hq, ?_⟩
        rcases hright with htq | hnarrow
        · exact hn t hmem htq
        · exact hnarrow.1 (hearlier hq)
      · have htq := hright.resolve_right fun hn => hn.2 hnarrow.1
        exact ⟨hnarrow.1 (hn t hmem htq), hn t hmem htq⟩

/-- A descriptor that is as narrow as the merge has its say, whenever it is merged. -/
theorem narrowest_of_preferredName?_mergeAll {ts : List Descriptor}
    (hts : ∀ t ∈ ts, t.Closed cs) (hne : ts ≠ []) {q : String}
    (h : (mergeAll ts).preferredName? = some q) :
    ∀ t ∈ ts, names t.capabilities ⊆ names (mergeAll ts).capabilities →
      t.preferredName? = some q := by
  revert h
  refine mergeAll_induction (P := fun us v => v.preferredName? = some q →
    ∀ t ∈ us, names t.capabilities ⊆ names v.capabilities → t.preferredName? = some q)
    hts hne ?_ ?_
  · intro t _ ht
    exact List.forall_mem_singleton.mpr fun _ => ht
  · intro us t hus hnil ht ih h
    have hacc := closed_mergeAll hcs hus hnil
    obtain ⟨hleft, hright⟩ := (hacc.preferredName?_merge_eq_some_iff hcs ht).mp h
    have hnames := hacc.names_merge hcs ht
    intro u hu hsub
    rcases List.mem_append.mp hu with hu | hu
    · -- The earlier ones were as narrow already, so the last one cannot be narrower.
      have hlast : names (mergeAll us).capabilities ⊆ names t.capabilities := by
        intro n hn
        have hnu := (names_mergeAll hcs hus hnil n).mp hn u hu
        exact ((hnames n).mp (hsub hnu)).2
      have hq := hleft.resolve_right fun hnarrow => hnarrow.2 hlast
      exact ih hq u hu fun n hn => ((hnames n).mp (hsub hn)).1
    · obtain rfl := List.mem_singleton.mp hu
      exact hright.resolve_right fun hnarrow =>
        hnarrow.2 fun n hn => ((hnames n).mp (hsub hn)).1

theorem favours_of_preferredName?_mergeAll {ts : List Descriptor} (hts : ∀ t ∈ ts, t.Closed cs)
    (hne : ts ≠ []) {q : String} (h : (mergeAll ts).preferredName? = some q) : Favours ts q where
  preferring := (determined_of_preferredName?_mergeAll hcs hts hne h).1
  determined n hn :=
    (names_mergeAll hcs hts hne n).mp
      ((determined_of_preferredName?_mergeAll hcs hts hne h).2 n hn)
  narrowest t ht hcommon :=
    narrowest_of_preferredName?_mergeAll hcs hts hne h t ht fun n hn =>
      (names_mergeAll hcs hts hne n).mpr (hcommon n hn)

theorem foldl_merge_of_narrower {t : Descriptor} (ht : t.Closed cs) {us : List Descriptor}
    (hus : ∀ u ∈ us, u.Closed cs ∧ t.Narrower u) : us.foldl merge t = t := by
  induction us with
  | nil => rfl
  | cons u us ih =>
      obtain ⟨⟨hu, hnarrow⟩, hus⟩ := List.forall_mem_cons.mp hus
      rw [List.foldl_cons, ht.merge_of_narrower hcs hu hnarrow, ih hus]

/-- The order that leaves `q` merges those that prefer it first. -/
theorem exists_perm_of_favours {ts : List Descriptor} (hts : ∀ t ∈ ts, t.Closed cs) {q : String}
    (hq : Favours ts q) : ∃ us : List Descriptor, us.Perm ts ∧
      (mergeAll us).preferredName? = some q := by
  let front := ts.filter fun t => t.preferredName? == some q
  let back := ts.filter fun t => !(t.preferredName? == some q)
  have hfront : ∀ t, t ∈ front ↔ t ∈ ts ∧ t.preferredName? = some q := by simp [front]
  have hback : ∀ t, t ∈ back ↔ t ∈ ts ∧ t.preferredName? ≠ some q := by simp [back]
  have hne : front ≠ [] := by
    obtain ⟨t, ht, htq⟩ := hq.preferring
    exact List.ne_nil_of_mem ((hfront t).mpr ⟨ht, htq⟩)
  have hclosed : ∀ t ∈ front, t.Closed cs := fun t ht => hts t ((hfront t).mp ht).1
  have hnames : ∀ n ∈ names (mergeAll front).capabilities, ∀ t ∈ ts, n ∈ names t.capabilities := by
    intro n hn
    apply hq.determined n
    intro t ht htq
    exact (names_mergeAll hcs hclosed hne n).mp hn t ((hfront t).mpr ⟨ht, htq⟩)
  have hkeep : back.foldl merge (mergeAll front) = mergeAll front := by
    apply foldl_merge_of_narrower hcs (closed_mergeAll hcs hclosed hne)
    intro t ht
    obtain ⟨ht, htq⟩ := (hback t).mp ht
    refine ⟨hts t ht, fun n hn => hnames n hn t ht, ?_⟩
    intro hsub
    exact htq (hq.narrowest t ht fun n hn => hnames n (hsub hn))
  refine ⟨front ++ back, List.filter_append_perm _ ts, ?_⟩
  rw [mergeAll, List.foldl_append]
  change (back.foldl merge (mergeAll front)).preferredName? = some q
  rw [hkeep]
  exact preferredName?_mergeAll_of_forall (fun t ht => ((hfront t).mp ht).2) hne

/-- An imposed preference is left in every order: the first descriptor inside the bound is narrower
than all before it, and what is merged later is wider or prefers the same. -/
theorem preferredName?_mergeAll_of_imposes {ts : List Descriptor} (hts : ∀ t ∈ ts, t.Closed cs)
    {q : String} {bound : List String} (h : Imposes ts q bound) :
    (mergeAll ts).preferredName? = some q := by
  have hne : ts ≠ [] := by
    obtain ⟨t, ht, -⟩ := h.inside
    exact List.ne_nil_of_mem ht
  revert h
  refine mergeAll_induction (P := fun us v => Imposes us q bound → v.preferredName? = some q)
    hts hne ?_ ?_
  · rintro t - ⟨⟨u, hu, hin⟩, hsep⟩
    obtain rfl := List.mem_singleton.mp hu
    exact (hsep u hu hin).2
  · rintro us t hus hnil ht ih ⟨hin, hsep⟩
    have hacc := closed_mergeAll hcs hus hnil
    have hnames := names_mergeAll hcs hus hnil
    obtain ⟨hsepus, hsept⟩ := List.forall_mem_append.mp hsep
    have hsept := hsept t List.mem_cons_self
    rw [hacc.preferredName?_merge_eq_some_iff hcs ht]
    by_cases hearlier : ∃ u ∈ us, ¬bound ⊆ names u.capabilities
    · refine ⟨Or.inl (ih ⟨hearlier, hsepus⟩), ?_⟩
      by_cases hwide : bound ⊆ names t.capabilities
      · obtain ⟨u, hu, hinu⟩ := hearlier
        have hsub : names (mergeAll us).capabilities ⊆ names u.capabilities :=
          fun n hn => (hnames n).mp hn u hu
        refine Or.inr ⟨fun n hn => hwide ((hsepus u hu hinu).1 (hsub hn)), ?_⟩
        intro hback
        exact hinu fun n hn => hsub (hback (hwide hn))
      · exact Or.inl (hsept hwide).2
    · have hwide : bound ⊆ names (mergeAll us).capabilities := by
        intro n hn
        rw [hnames]
        intro u hu
        by_contra hnot
        exact hearlier ⟨u, hu, fun hsub => hnot (hsub hn)⟩
      have hint : ¬bound ⊆ names t.capabilities := by
        obtain ⟨u, hu, hinu⟩ := hin
        rcases List.mem_append.mp hu with hu | hu
        · exact absurd ⟨u, hu, hinu⟩ hearlier
        · exact List.mem_singleton.mp hu ▸ hinu
      obtain ⟨hsub, htq⟩ := hsept hint
      refine ⟨Or.inr ⟨fun n hn => hwide (hsub hn), ?_⟩, Or.inl htq⟩
      exact fun hback => hint fun n hn => hback (hwide hn)

omit hcs in
/-- From a front that does not leave `q`, the front can be extended until every further descriptor
would leave it. -/
theorem exists_last_front {q : String} {ts : List Descriptor}
    (hall : ∀ us : List Descriptor, us.Perm ts → (mergeAll us).preferredName? = some q)
    (back : List Descriptor) {front : List Descriptor} (hperm : (front ++ back).Perm ts)
    (hfront : (mergeAll front).preferredName? ≠ some q) :
    ∃ front' back' : List Descriptor, (front' ++ back').Perm ts ∧
      (mergeAll front').preferredName? ≠ some q ∧ back' ≠ [] ∧
      ∀ t ∈ back', (mergeAll (front' ++ [t])).preferredName? = some q := by
  induction hlength : back.length generalizing front back with
  | zero =>
      obtain rfl := List.length_eq_zero_iff.mp hlength
      exact absurd (hall front (by simpa using hperm)) hfront
  | succ l ih =>
      by_cases hstop : ∀ t ∈ back, (mergeAll (front ++ [t])).preferredName? = some q
      · refine ⟨front, back, hperm, hfront, ?_, hstop⟩
        rintro rfl
        cases hlength
      · push Not at hstop
        obtain ⟨t, ht, htq⟩ := hstop
        obtain ⟨before, after, rfl⟩ := List.append_of_mem ht
        have hperm' : ((front ++ [t]) ++ (before ++ after)).Perm ts := by
          refine List.Perm.trans ?_ hperm
          rw [List.append_assoc, List.singleton_append]
          exact List.Perm.append_left front List.perm_middle.symm
        refine ih (before ++ after) hperm' htq ?_
        simp only [List.length_append, List.length_cons] at hlength ⊢
        omega

/-- If every order leaves `q`, the names before the last turn are a bound. -/
theorem settled_of_forall_preferring {ts : List Descriptor} (hts : ∀ t ∈ ts, t.Closed cs)
    {q : String}
    (hall : ∀ us : List Descriptor, us.Perm ts → (mergeAll us).preferredName? = some q) :
    Settled ts := by
  obtain ⟨front, back, hperm, hfront, hback, hturn⟩ :=
    exists_last_front hall ts (List.Perm.refl ([] ++ ts)) (nofun)
  have hclosed : ∀ t ∈ front ++ back, t.Closed cs := fun t ht => hts t (hperm.mem_iff.mp ht)
  obtain ⟨hfrontClosed, hbackClosed⟩ := List.forall_mem_append.mp hclosed
  by_cases hempty : front = []
  · subst hempty
    refine Or.inl ⟨some q, fun t ht => hturn t (hperm.mem_iff.mpr ht)⟩
  · have hacc := closed_mergeAll hcs hfrontClosed hempty
    have hnarrow : ∀ t ∈ back, t.Narrower (mergeAll front) ∧ t.preferredName? = some q := by
      intro t ht
      have hmerge := hturn t ht
      rw [mergeAll_concat, hacc.preferredName?_merge_eq_some_iff hcs (hbackClosed t ht)] at hmerge
      have hleft := hmerge.1.resolve_left hfront
      exact ⟨hleft, hmerge.2.resolve_right fun hright => hright.2 hleft.1⟩
    refine Or.inr (Or.inl ⟨q, names (mergeAll front).capabilities, ?_, ?_⟩)
    · obtain ⟨t, ht⟩ := List.exists_mem_of_ne_nil back hback
      exact ⟨t, hperm.mem_iff.mp (List.mem_append_right front ht), (hnarrow t ht).1.2⟩
    · intro t ht hin
      have hmem := hperm.mem_iff.mpr ht
      rcases List.mem_append.mp hmem with ht | ht
      · have hwide : names (mergeAll front).capabilities ⊆ names t.capabilities :=
          fun n hn => (names_mergeAll hcs hfrontClosed hempty n).mp hn t ht
        exact absurd hwide hin
      · obtain ⟨hnarrow, htq⟩ := hnarrow t ht
        exact ⟨hnarrow.1, htq⟩

theorem Settled.preferredName?_mergeAll_perm {ts us : List Descriptor}
    (hts : ∀ t ∈ ts, t.Closed cs) (hsettled : Settled ts) (hperm : us.Perm ts) :
    (mergeAll us).preferredName? = (mergeAll ts).preferredName? := by
  have hus : ∀ u ∈ us, u.Closed cs := fun u hu => hts u (hperm.mem_iff.mp hu)
  rcases hsettled with ⟨p, hp⟩ | ⟨q, bound, hq⟩ | hnone
  · by_cases hempty : ts = []
    · subst hempty
      rw [hperm.eq_nil]
    · have hne : us ≠ [] := fun hnil => hempty (hnil ▸ hperm).symm.eq_nil
      rw [preferredName?_mergeAll_of_forall hp hempty,
        preferredName?_mergeAll_of_forall (fun u hu => hp u (hperm.mem_iff.mp hu)) hne]
  · rw [preferredName?_mergeAll_of_imposes hcs hts hq,
      preferredName?_mergeAll_of_imposes hcs hus (hq.of_perm hperm.symm)]
  · have hleft : ∀ vs : List Descriptor, vs.Perm ts → (mergeAll vs).preferredName? = none := by
      intro vs hvs
      by_cases hempty : vs = []
      · subst hempty
        rfl
      · rw [Option.eq_none_iff_forall_ne_some]
        intro q hq
        have hclosed : ∀ v ∈ vs, v.Closed cs := fun v hv => hts v (hvs.mem_iff.mp hv)
        exact hnone q ((favours_of_preferredName?_mergeAll hcs hclosed hempty hq).of_perm hvs)
    rw [hleft us hperm, hleft ts (List.Perm.refl ts)]

theorem forall_perm_preferredName?_iff {ts : List Descriptor} (hts : ∀ t ∈ ts, t.Closed cs) :
    (∀ us : List Descriptor, us.Perm ts →
        (mergeAll us).preferredName? = (mergeAll ts).preferredName?) ↔ Settled ts := by
  constructor
  · intro hall
    by_cases hfavoured : ∃ q, Favours ts q
    · obtain ⟨q, hq⟩ := hfavoured
      obtain ⟨us, hperm, husq⟩ := exists_perm_of_favours hcs hts hq
      have htsq : (mergeAll ts).preferredName? = some q := (hall us hperm).symm.trans husq
      exact settled_of_forall_preferring hcs hts fun vs hvs => (hall vs hvs).trans htsq
    · exact Or.inr (Or.inr fun q hq => hfavoured ⟨q, hq⟩)
  · exact fun hsettled us hperm => hsettled.preferredName?_mergeAll_perm hcs hts hperm

theorem names_mergeAll_perm {ts us : List Descriptor} (hts : ∀ t ∈ ts, t.Closed cs)
    (hperm : us.Perm ts) (n : String) :
    n ∈ names (mergeAll ts).capabilities ↔ n ∈ names (mergeAll us).capabilities := by
  by_cases hempty : ts = []
  · subst hempty
    rw [hperm.eq_nil]
  · have hne : us ≠ [] := fun hnil => hempty (hnil ▸ hperm).symm.eq_nil
    have hus : ∀ u ∈ us, u.Closed cs := fun u hu => hts u (hperm.mem_iff.mp hu)
    rw [names_mergeAll hcs hts hempty, names_mergeAll hcs hus hne]
    simp only [hperm.mem_iff]

theorem wellShaped_mergeAll {ts : List Descriptor} (hts : ∀ t ∈ ts, t.Closed cs) :
    (mergeAll ts).WellShaped := by
  by_cases hempty : ts = []
  · subst hempty
    exact wellShaped_missing
  · exact (closed_mergeAll hcs hts hempty).shaped

theorem agrees_mergeAll_perm_iff {ts us : List Descriptor} (hts : ∀ t ∈ ts, t.Closed cs)
    (hperm : us.Perm ts) :
    (mergeAll ts).agrees (mergeAll us) = true ↔
      (mergeAll us).preferredName? = (mergeAll ts).preferredName? := by
  have hus : ∀ u ∈ us, u.Closed cs := fun u hu => hts u (hperm.mem_iff.mp hu)
  rw [agrees_iff (wellShaped_mergeAll hcs hts) (wellShaped_mergeAll hcs hus)]
  constructor
  · exact fun h => h.1.symm
  · exact fun h => ⟨h.symm, names_mergeAll_perm hcs hts hperm⟩

end Descriptor

end ColumnTypes
