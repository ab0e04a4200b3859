import ColumnTypes.Proofs.MergeLaws
import Mathlib.Data.Finset.Dedup

namespace ColumnTypes.Descriptor

/-!
# Sets of descriptors

Agreement is an equivalence: the same preference, and the same names in some
order. The hashes of the names are joined in a way that forgets the order, so
descriptors that agree have the same hash. A set that is filled by hash then
holds one descriptor of each class, and how many that are does not depend on the
order in which they come.
-/

open Capability (names)

/-! ## Agreement -/

theorem agrees_iff_perm {t u : Descriptor} (ht : t.WellShaped) (hu : u.WellShaped) :
    t.agrees u = true ↔ t.hasPreferred = u.hasPreferred ∧ t.preferredName? = u.preferredName? ∧
      (names t.capabilities).Perm (names u.capabilities) := by
  rw [agrees_iff ht hu, List.perm_ext_iff_of_nodup ht.nodup_names hu.nodup_names]
  constructor
  · rintro ⟨hpreferred, hnames⟩
    refine ⟨?_, hpreferred, hnames⟩
    rw [← ht.isSome_preferredName?, ← hu.isSome_preferredName?, hpreferred]
  · exact fun h => h.2

/-- What two descriptors that agree have in common. -/
def signature (t : Descriptor) : Option String × Finset String :=
  (t.preferredName?, (names t.capabilities).toFinset)

theorem agrees_iff_signature {t u : Descriptor} (ht : t.WellShaped) (hu : u.WellShaped) :
    t.agrees u = true ↔ t.signature = u.signature := by
  rw [agrees_iff ht hu, signature, signature, Prod.mk.injEq, Finset.ext_iff]
  simp only [List.mem_toFinset]

/-! ## Hashes -/

/-- What is hashed of a descriptor: the flag and the hashes of the names, joined by exclusive or. -/
def hashInput (hash : String → UInt64) (t : Descriptor) : Bool × UInt64 :=
  (t.hasPreferred, t.capabilities.foldl (fun acc c => acc ^^^ hash c.name) 0)

theorem hashInput_eq_names (hash : String → UInt64) (t : Descriptor) :
    t.hashInput hash =
      (t.hasPreferred, (names t.capabilities).foldl (fun acc n => acc ^^^ hash n) 0) := by
  rw [hashInput, names, List.foldl_map]

theorem hashInput_eq_of_perm {t u : Descriptor} (hflag : t.hasPreferred = u.hasPreferred)
    (hnames : (names t.capabilities).Perm (names u.capabilities)) (hash : String → UInt64) :
    t.hashInput hash = u.hashInput hash := by
  have hcomm : RightCommutative fun (acc : UInt64) n => acc ^^^ hash n :=
    ⟨fun acc m n => by rw [UInt64.xor_assoc, UInt64.xor_comm (hash m), ← UInt64.xor_assoc]⟩
  rw [hashInput_eq_names, hashInput_eq_names, hflag, hnames.foldl_eq]

theorem hashInput_eq_of_agrees {t u : Descriptor} (ht : t.WellShaped) (hu : u.WellShaped)
    (h : t.agrees u = true) (hash : String → UInt64) : t.hashInput hash = u.hashInput hash := by
  obtain ⟨hflag, -, hnames⟩ := (agrees_iff_perm ht hu).mp h
  exact hashInput_eq_of_perm hflag hnames hash

/-- The hash that is one for a single name tells whether the name is listed. -/
theorem foldl_xor_indicator {ns : List String} (hns : ns.Nodup) (n : String) :
    ns.foldl (fun acc m => acc ^^^ if m = n then 1 else 0) (0 : UInt64) =
      if n ∈ ns then 1 else 0 := by
  induction ns using List.reverseRecOn with
  | nil => rfl
  | append_singleton ns m ih =>
      rw [List.nodup_append] at hns
      obtain ⟨hns, -, hfresh⟩ := hns
      rw [List.foldl_append, ih hns]
      by_cases hm : m = n
      · subst hm
        have hnot : m ∉ ns := fun h => hfresh m h m List.mem_cons_self rfl
        simp [hnot]
      · have hmem : n ∈ ns ++ [m] ↔ n ∈ ns := by simp [Ne.symm hm]
        simp [hm, hmem]

/-- Nothing more can be told from hashes than whether the flags and the sets of names agree. -/
theorem hashAgrees_iff_forall_hashInput {t u : Descriptor} (ht : t.WellShaped)
    (hu : u.WellShaped) :
    t.hashAgrees u = true ↔ ∀ hash, t.hashInput hash = u.hashInput hash := by
  simp only [hashAgrees, Bool.and_eq_true, beq_iff_eq, namesWithin_iff]
  constructor
  · rintro ⟨⟨hflag, htu⟩, hut⟩ hash
    refine hashInput_eq_of_perm hflag ?_ hash
    rw [List.perm_ext_iff_of_nodup ht.nodup_names hu.nodup_names]
    exact fun n => ⟨fun h => htu h, fun h => hut h⟩
  · intro h
    have hnames : ∀ n, n ∈ names t.capabilities ↔ n ∈ names u.capabilities := by
      intro n
      have hn := h fun m => if m = n then 1 else 0
      rw [hashInput_eq_names, hashInput_eq_names, foldl_xor_indicator ht.nodup_names,
        foldl_xor_indicator hu.nodup_names, Prod.mk.injEq] at hn
      have hone : (1 : UInt64) ≠ 0 := by decide
      by_cases hnt : n ∈ names t.capabilities <;> by_cases hnu : n ∈ names u.capabilities <;>
        simp_all
    exact ⟨⟨congrArg Prod.fst (h fun _ => 0), fun n hn => (hnames n).mp hn⟩,
      fun n hn => (hnames n).mpr hn⟩

/-! ## Sets -/

theorem distinct_concat (ts : List Descriptor) (t : Descriptor) :
    distinct (ts ++ [t]) =
      if (distinct ts).any t.agrees then distinct ts else distinct ts ++ [t] := by
  rw [distinct, List.foldl_append]
  rfl

theorem distinct_subset (ts : List Descriptor) : distinct ts ⊆ ts := by
  induction ts using List.reverseRecOn with
  | nil => exact List.Subset.refl []
  | append_singleton ts t ih =>
      rw [distinct_concat]
      split
      · exact List.subset_append_of_subset_left [t] ih
      · exact List.append_subset.mpr ⟨List.subset_append_of_subset_left [t] ih,
          List.subset_append_right ts [t]⟩

/-- Each class of descriptors that agree is represented exactly once. -/
theorem nodup_signature_distinct {ts : List Descriptor} (hts : ∀ t ∈ ts, t.WellShaped) :
    ((distinct ts).map signature).Nodup ∧
      ∀ s, s ∈ (distinct ts).map signature ↔ s ∈ ts.map signature := by
  induction ts using List.reverseRecOn with
  | nil => exact ⟨List.nodup_nil, fun _ => Iff.rfl⟩
  | append_singleton ts t ih =>
      obtain ⟨hts, ht⟩ := List.forall_mem_append.mp hts
      obtain ⟨hnodup, hmem⟩ := ih hts
      have hfound : (distinct ts).any t.agrees = true ↔ t.signature ∈ ts.map signature := by
        rw [List.any_eq_true, ← hmem, List.mem_map]
        refine exists_congr fun u => and_congr_right fun hu => ?_
        have hu := hts u (distinct_subset ts hu)
        rw [agrees_iff_signature (ht t List.mem_cons_self) hu, eq_comm]
      rw [distinct_concat]
      split
      · rename_i hany
        have hold := hfound.mp hany
        refine ⟨hnodup, fun s => ?_⟩
        rw [hmem, List.map_append, List.mem_append]
        refine ⟨Or.inl, ?_⟩
        rintro (hs | hs)
        · exact hs
        · rw [List.map_singleton, List.mem_singleton] at hs
          exact hs ▸ hold
      · rename_i hany
        have hnew : t.signature ∉ ts.map signature := fun h => hany (hfound.mpr h)
        rw [List.map_append, List.map_append]
        refine ⟨?_, fun s => by rw [List.mem_append, hmem, List.mem_append]⟩
        rw [List.map_singleton, List.nodup_append]
        refine ⟨hnodup, List.nodup_singleton _, ?_⟩
        rintro s hs _ hlast rfl
        rw [List.mem_singleton.mp hlast, hmem] at hs
        exact hnew hs

theorem length_distinct_of_perm {ts us : List Descriptor} (hts : ∀ t ∈ ts, t.WellShaped)
    (h : ts.Perm us) : (distinct ts).length = (distinct us).length := by
  obtain ⟨hnodup, hmem⟩ := nodup_signature_distinct hts
  obtain ⟨hnodup', hmem'⟩ := nodup_signature_distinct fun t ht => hts t (h.mem_iff.mpr ht)
  have hclasses : ((distinct ts).map signature).Perm ((distinct us).map signature) := by
    rw [List.perm_ext_iff_of_nodup hnodup hnodup']
    intro s
    rw [hmem, hmem', (h.map signature).mem_iff]
  simpa using hclasses.length_eq

section

variable {κ : Type} [BEq κ]

/-- Looks for a descriptor that agrees among those of the same key only, and files the new one if
there is none. -/
def fileUnder (key : Descriptor → κ) (set : List (κ × Descriptor)) (t : Descriptor) :
    List (κ × Descriptor) :=
  if set.any fun e => e.1 == key t && t.agrees e.2 then set else set ++ [(key t, t)]

/-- The set that is filled with the descriptors one after the other. -/
def filed (key : Descriptor → κ) (ts : List Descriptor) : List (κ × Descriptor) :=
  ts.foldl (fileUnder key) []

/-- If the key respects agreement, no descriptor that agrees is overlooked. -/
theorem filed_eq_distinct [LawfulBEq κ] {key : Descriptor → κ} {ts : List Descriptor}
    (hkey : ∀ t ∈ ts, ∀ u ∈ ts, t.agrees u = true → key t = key u) :
    filed key ts = (distinct ts).map fun t => (key t, t) := by
  induction ts using List.reverseRecOn with
  | nil => rfl
  | append_singleton ts t ih =>
      have hmem : ∀ u ∈ ts, u ∈ ts ++ [t] := fun u hu => List.mem_append_left [t] hu
      have hstep : filed key (ts ++ [t]) = fileUnder key (filed key ts) t := by
        rw [filed, List.foldl_append]
        rfl
      have hany : ((distinct ts).map fun u => (key u, u)).any
          (fun e => e.1 == key t && t.agrees e.2) = (distinct ts).any t.agrees := by
        rw [Bool.eq_iff_iff, List.any_map]
        simp only [List.any_eq_true, Function.comp_apply, Bool.and_eq_true, beq_iff_eq]
        refine exists_congr fun u => and_congr_right fun hu => and_iff_right_of_imp fun hagree => ?_
        exact (hkey t (List.mem_append_right ts List.mem_cons_self) u
          (hmem u (distinct_subset ts hu)) hagree).symm
      rw [hstep, ih fun u hu v hv => hkey u (hmem u hu) v (hmem v hv), fileUnder, hany,
        distinct_concat]
      split
      · rfl
      · rw [List.map_append]
        rfl

theorem filed_hashInput [LawfulBEq κ] {ts : List Descriptor} (hts : ∀ t ∈ ts, t.WellShaped)
    (hash : String → UInt64) (finish : Bool × UInt64 → κ) :
    filed (finish ∘ hashInput hash) ts =
      (distinct ts).map fun t => (finish (t.hashInput hash), t) := by
  apply filed_eq_distinct
  intro t ht u hu hagree
  exact congrArg finish (hashInput_eq_of_agrees (hts t ht) (hts u hu) hagree hash)

end

/-- Agreement is an equivalence: same flag, same preference, and the same names in some order. It
implies equal hashes, whatever names are hashed to, so a set that compares descriptors of equal
hashes only holds one of each class, and its size does not depend on the order of insertion. -/
theorem agrees_equivalence_hashed :
    (Equivalence fun t u : { t : Descriptor // t.Constructible } => t.1.agrees u.1 = true) ∧
      (∀ t u : Descriptor, t.Constructible → u.Constructible →
        (t.agrees u = true ↔ t.hasPreferred = u.hasPreferred ∧
          t.preferredName? = u.preferredName? ∧
          (names t.capabilities).Perm (names u.capabilities))) ∧
      (∀ t u : Descriptor, t.Constructible → u.Constructible → t.agrees u = true →
        ∀ hash, t.hashInput hash = u.hashInput hash) ∧
      ∀ ts : List Descriptor, (∀ t ∈ ts, t.Constructible) →
        ∀ (hash : String → UInt64) (κ : Type) [BEq κ] [LawfulBEq κ] (finish : Bool × UInt64 → κ),
          (filed (finish ∘ hashInput hash) ts).map Prod.snd = distinct ts ∧
            ∀ us, ts.Perm us → (filed (finish ∘ hashInput hash) us).length =
              (filed (finish ∘ hashInput hash) ts).length := by
  refine ⟨⟨?_, ?_, ?_⟩, ?_, ?_, ?_⟩
  · exact fun t => agrees_refl t.1
  · exact fun {t u} h => agrees_comm t.1 u.1 ▸ h
  · exact fun {t u v} htu huv =>
      agrees_trans t.2.wellShaped u.2.wellShaped v.2.wellShaped htu huv
  · exact fun t u ht hu => agrees_iff_perm ht.wellShaped hu.wellShaped
  · exact fun t u ht hu => hashInput_eq_of_agrees ht.wellShaped hu.wellShaped
  · intro ts hts hash κ _ _ finish
    have hts : ∀ t ∈ ts, t.WellShaped := fun t ht => (hts t ht).wellShaped
    constructor
    · rw [filed_hashInput hts, List.map_map]
      exact List.map_id _
    · intro us hperm
      have hus : ∀ u ∈ us, u.WellShaped := fun u hu => hts u (hperm.mem_iff.mpr hu)
      rw [filed_hashInput hts, filed_hashInput hus, List.length_map, List.length_map,
        length_distinct_of_perm hts hperm]

/-- A list agrees with the kind whose capabilities it lists, and takes no place of its own in a set,
wherever it comes. -/
theorem agrees_equivalence_hashed_numeric :
    (∀ t ∈ [ofKind .whole, unbound [.numeric, .comparable] true, ofKind .flag],
        t.Constructible) ∧
      (names (ofKind .whole).capabilities).Perm
        (names (unbound [.numeric, .comparable] true).capabilities) ∧
      (∀ hash, (ofKind .whole).hashInput hash =
        (unbound [.numeric, .comparable] true).hashInput hash) ∧
      ∀ hash : String → UInt64,
        (filed (hashInput hash)
          [unbound [.numeric, .comparable] true, ofKind .flag, ofKind .whole]).length = 2 := by
  have hlist : ofList true [.numeric, .comparable] =
      .ok (unbound [.numeric, .comparable] true) := rfl
  have hts : ∀ t ∈ [ofKind .whole, unbound [.numeric, .comparable] true, ofKind .flag],
      t.Constructible :=
    List.forall_mem_cons.mpr ⟨constructible_ofKind .whole, List.forall_mem_cons.mpr
      ⟨Obtainable.ofList (fun _ _ => trivial) hlist,
        List.forall_mem_singleton.mpr (constructible_ofKind .flag)⟩⟩
  obtain ⟨-, hiff, hhash, hsets⟩ := agrees_equivalence_hashed
  have hwhole := hts _ List.mem_cons_self
  have hpair := hts _ (List.mem_cons_of_mem _ List.mem_cons_self)
  have hagree : (ofKind .whole).agrees (unbound [.numeric, .comparable] true) = true := by decide
  refine ⟨hts, ((hiff _ _ hwhole hpair).mp hagree).2.2, hhash _ _ hwhole hpair hagree, ?_⟩
  intro hash
  obtain ⟨hset, hperm⟩ := hsets _ hts hash (Bool × UInt64) id
  have hrotated : [ofKind .whole, unbound [.numeric, .comparable] true, ofKind .flag].Perm
      [unbound [.numeric, .comparable] true, ofKind .flag, ofKind .whole] :=
    @List.perm_append_comm _ [ofKind .whole] [unbound [.numeric, .comparable] true, ofKind .flag]
  have hdistinct : distinct [ofKind .whole, unbound [.numeric, .comparable] true, ofKind .flag] =
      [ofKind .whole, ofKind .flag] := by decide
  have hlength := congrArg List.length (hset.trans hdistinct)
  rw [List.length_map] at hlength
  exact (hperm _ hrotated).trans hlength

end ColumnTypes.Descriptor
