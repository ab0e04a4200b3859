import ColumnTypes.Proofs.Closed
import ColumnTypes.Proofs.MergeLaws

namespace ColumnTypes

/-!
# Types of columns

The type of a column is the merge of the descriptors of its values. Whatever the
registry has been asked before, this is a fold over the kinds of the values that
are not missing; if all descriptors are closed, it intersects them.
-/

/-! ## Merging a list -/

namespace Descriptor

open Capability (Hierarchy isListed_iff names)

/-- The merge of a list from left to right, starting from missing. -/
def mergeAll (ts : List Descriptor) : Descriptor := ts.foldl merge missing

theorem mergeAll_concat (ts : List Descriptor) (t : Descriptor) :
    mergeAll (ts ++ [t]) = (mergeAll ts).merge t :=
  List.foldl_concat merge missing t ts

theorem mergeAll_induction {Good : Descriptor → Prop} {P : List Descriptor → Descriptor → Prop}
    {ts : List Descriptor} (hts : ∀ t ∈ ts, Good t) (hne : ts ≠ [])
    (single : ∀ t, Good t → P [t] t)
    (concat : ∀ us t, (∀ u ∈ us, Good u) → us ≠ [] → Good t → P us (mergeAll us) →
      P (us ++ [t]) ((mergeAll us).merge t)) : P ts (mergeAll ts) := by
  induction ts using List.reverseRecOn with
  | nil => exact absurd rfl hne
  | append_singleton ts t ih =>
      obtain ⟨hts, ht⟩ := List.forall_mem_append.mp hts
      have ht : Good t := ht t List.mem_cons_self
      by_cases hempty : ts = []
      · subst hempty
        exact single t ht
      · rw [mergeAll_concat]
        exact concat ts t hts hempty ht (ih hts hempty)

theorem isMissing_mergeAll_iff {ts : List Descriptor} :
    (mergeAll ts).isMissing = true ↔ ∀ t ∈ ts, t.isMissing = true := by
  induction ts using List.reverseRecOn with
  | nil => exact iff_of_true rfl nofun
  | append_singleton ts t ih =>
      rw [mergeAll_concat, isMissing_merge_iff, ih, List.forall_mem_append,
        List.forall_mem_singleton]

/-- What holds of all descriptors that are not missing, and of two lists intersected if it holds of
both, holds of the merge unless everything is missing. -/
theorem mergeAll_of_present {P : Descriptor → Prop} {ts : List Descriptor}
    (hts : ∀ t ∈ ts, t.isMissing = false → P t)
    (hboth : ∀ t u, P t → P u → P (t.intersection u))
    (hpresent : (mergeAll ts).isMissing = false) : P (mergeAll ts) := by
  induction ts using List.reverseRecOn with
  | nil => cases hpresent
  | append_singleton ts u ih =>
      obtain ⟨hts, hu⟩ := List.forall_mem_append.mp hts
      have hu := hu u List.mem_cons_self
      rw [mergeAll_concat] at hpresent ⊢
      cases haccm : (mergeAll ts).isMissing with
      | true =>
          rw [merge_of_isMissing_left haccm] at hpresent ⊢
          exact hu hpresent
      | false =>
          have hacc := ih hts haccm
          cases hum : u.isMissing with
          | true =>
              rw [merge_of_isMissing_right haccm hum]
              exact hacc
          | false => exact merge_induction hacc (hu hum) (hboth _ _ hacc (hu hum))

variable {cs : List Capability} (hcs : Hierarchy cs)
include hcs

/-- Each step of the fold keeps the descriptor closed and intersects the names. -/
theorem mergeAll_spec {ts : List Descriptor} (hts : ∀ t ∈ ts, t.Closed cs) (hne : ts ≠ []) :
    (mergeAll ts).Closed cs ∧
      ∀ n, n ∈ names (mergeAll ts).capabilities ↔ ∀ t ∈ ts, n ∈ names t.capabilities := by
  refine mergeAll_induction (P := fun us v => v.Closed cs ∧
    ∀ n, n ∈ names v.capabilities ↔ ∀ t ∈ us, n ∈ names t.capabilities) hts hne ?_ ?_
  · intro t ht
    exact ⟨ht, fun n => by rw [List.forall_mem_singleton]⟩
  · rintro us t - - ht ⟨hclosed, hnames⟩
    refine ⟨hclosed.merge hcs ht, ?_⟩
    intro n
    rw [hclosed.names_merge hcs ht, hnames, List.forall_mem_append, List.forall_mem_singleton]

theorem closed_mergeAll {ts : List Descriptor} (hts : ∀ t ∈ ts, t.Closed cs) (hne : ts ≠ []) :
    (mergeAll ts).Closed cs :=
  (mergeAll_spec hcs hts hne).1

theorem names_mergeAll {ts : List Descriptor} (hts : ∀ t ∈ ts, t.Closed cs) (hne : ts ≠ [])
    (n : String) :
    n ∈ names (mergeAll ts).capabilities ↔ ∀ t ∈ ts, n ∈ names t.capabilities :=
  (mergeAll_spec hcs hts hne).2 n

theorem supports_mergeAll {ts : List Descriptor} (hts : ∀ t ∈ ts, t.Closed cs) (hne : ts ≠ [])
    (c : Capability) :
    (mergeAll ts).supports c = true ↔ ∀ t ∈ ts, t.supports c = true := by
  rw [(closed_mergeAll hcs hts hne).supports_iff_isListed hcs, isListed_iff,
    names_mergeAll hcs hts hne]
  constructor
  · intro h t ht
    exact supports_of_isListed (isListed_iff.mpr (h t ht))
  · intro h t ht
    have hlisted := ((hts t ht).supports_iff_isListed hcs).mp (h t ht)
    exact isListed_iff.mp hlisted

end Descriptor

/-! ## Inference -/

namespace FallibleQuery

variable {α β : Type}

theorem value_bind_of_ok {x : FallibleQuery α} {f : α → FallibleQuery β} {m : Memo} {a : α}
    (h : (x.run m).value.1 = .ok a) :
    ((x >>= f).run m).value = ((f a).run (x.run m).value.2).value := by
  have hbind : ((x >>= f).run m).value =
      ((ExceptT.bindCont f (x.run m).value.1).run (x.run m).value.2).value := rfl
  rw [hbind, h]
  rfl

end FallibleQuery

namespace Catalog

open Descriptor (mergeAll)
open Memo (Faithful)

variable {c : Catalog}

/-- The value is missing or of a registered kind. -/
def Accepts (c : Catalog) (v : Value) : Prop :=
  v.kind = missingKind ∨ ∃ k ∈ c.kinds, v.kind = k.name

def kindsOf (c : Catalog) (values : List Value) : List Kind :=
  values.filterMap fun v => c.kind? v.kind

theorem kindsOf_cons_of_none {v : Value} (hk : c.kind? v.kind = none) (values : List Value) :
    c.kindsOf (v :: values) = c.kindsOf values := by
  simp [kindsOf, hk]

theorem kindsOf_cons_of_some {v : Value} {k : Kind} (hk : c.kind? v.kind = some k)
    (values : List Value) : c.kindsOf (v :: values) = k :: c.kindsOf values := by
  simp [kindsOf, hk]

def typesOf (c : Catalog) (values : List Value) : List Descriptor :=
  (c.kindsOf values).map Descriptor.ofKind

/-- The type that is inferred by a registry that was asked the calls before. -/
def inferred (c : Catalog) (calls : List Call) (values : List Value) :
    Except Descriptor.Error Descriptor :=
  ((c.infer values).run (c.memoAfter calls)).value.1

namespace WellFormed

variable (hc : c.WellFormed)
include hc

theorem kind?_missingKind : c.kind? missingKind = none := by
  rw [Option.eq_none_iff_forall_ne_some]
  intro k hk
  obtain ⟨hmem, hname⟩ := hc.kind?_eq_some_iff.mp hk
  exact hc.name_ne_missingKind hmem hname

theorem kind?_eq_none_iff {v : Value} (hv : c.Accepts v) :
    c.kind? v.kind = none ↔ v.kind = missingKind := by
  constructor
  · intro hnone
    rcases hv with hv | ⟨k, hk, hv⟩
    · exact hv
    · rw [hc.kind?_eq_some_iff.mpr ⟨hk, hv.symm⟩] at hnone
      cases hnone
  · intro hv
    rw [hv, hc.kind?_missingKind]

theorem named_eq {v : Value} (hv : c.Accepts v) :
    c.named v.kind = .ok (((c.kind? v.kind).map Descriptor.ofKind).getD Descriptor.missing) := by
  unfold named
  split
  · rename_i hmissing
    rw [hmissing, hc.kind?_missingKind]
    rfl
  · rename_i hpresent
    cases hk : c.kind? v.kind with
    | none => exact absurd ((hc.kind?_eq_none_iff hv).mp hk) hpresent
    | some k => rfl

/-- Missing values change nothing, and every other value merges the descriptor of its kind. -/
theorem inferSteps_spec {values : List Value} (hvalues : ∀ v ∈ values, c.Accepts v)
    {t : Descriptor} (ht : t.WellShaped) {m : Memo} (hm : Faithful c m) :
    ∃ steps, ((c.inferSteps t values).run m).value.1 = .ok steps ∧
      steps.getLastD t = (c.typesOf values).foldl Descriptor.merge t := by
  induction values generalizing t m with
  | nil => exact ⟨[], rfl, rfl⟩
  | cons v values ih =>
      obtain ⟨hv, hvalues⟩ := List.forall_mem_cons.mp hvalues
      obtain ⟨hnamed, hm'⟩ := descriptorNamed_spec hm v.kind
      rw [hc.named_eq hv] at hnamed
      rw [inferSteps, FallibleQuery.value_bind_of_ok hnamed]
      cases hk : c.kind? v.kind with
      | none =>
          have hnext : t.merge Descriptor.missing = t := Descriptor.merge_missing ht
          obtain ⟨steps, hsteps, hlast⟩ := ih hvalues ht hm'
          refine ⟨t :: steps, ?_, ?_⟩
          · simp only [Option.map_none, Option.getD_none, hnext]
            rw [FallibleQuery.value_bind_of_ok hsteps]
            rfl
          · rw [List.getLastD_cons, hlast, typesOf, typesOf, kindsOf_cons_of_none hk]
      | some k =>
          have hnext := Descriptor.wellShaped_merge ht (Descriptor.wellShaped_ofKind k)
          obtain ⟨steps, hsteps, hlast⟩ := ih hvalues hnext hm'
          refine ⟨t.merge (Descriptor.ofKind k) :: steps, ?_, ?_⟩
          · simp only [Option.map_some, Option.getD_some]
            rw [FallibleQuery.value_bind_of_ok hsteps]
            rfl
          · rw [List.getLastD_cons, hlast, typesOf, typesOf, kindsOf_cons_of_some hk,
              List.map_cons, List.foldl_cons]

/-- Inference is the merge of the descriptors of the kinds, whatever was asked before. -/
theorem inferred_eq {values : List Value} (hvalues : ∀ v ∈ values, c.Accepts v)
    (calls : List Call) :
    c.inferred calls values = .ok (mergeAll (c.typesOf values)) := by
  obtain ⟨steps, hsteps, hlast⟩ := hc.inferSteps_spec hvalues Descriptor.wellShaped_missing
    (faithful_memoAfter c calls)
  unfold inferred infer
  rw [FallibleQuery.value_bind_of_ok hsteps, hlast]
  rfl

theorem mem_kinds_of_mem_kindsOf {values : List Value} {k : Kind} (hk : k ∈ c.kindsOf values) :
    k ∈ c.kinds := by
  obtain ⟨v, -, hk⟩ := List.mem_filterMap.mp hk
  exact (hc.kind?_eq_some_iff.mp hk).1

theorem typesOf_eq_nil_iff {values : List Value} (hvalues : ∀ v ∈ values, c.Accepts v) :
    c.typesOf values = [] ↔ ∀ v ∈ values, v.kind = missingKind := by
  rw [typesOf, List.map_eq_nil_iff, kindsOf, List.filterMap_eq_nil_iff]
  constructor
  · exact fun h v hv => (hc.kind?_eq_none_iff (hvalues v hv)).mp (h v hv)
  · exact fun h v hv => (hc.kind?_eq_none_iff (hvalues v hv)).mpr (h v hv)

theorem closed_of_mem_typesOf {values : List Value}
    (hclosed : ∀ k ∈ c.kindsOf values,
      Capability.ParentClosed (Descriptor.ofKind k).capabilities) :
    ∀ t ∈ c.typesOf values, t.Closed c.capabilities := by
  intro t ht
  obtain ⟨k, hk, rfl⟩ := List.mem_map.mp ht
  exact hc.closed_ofKind (hc.mem_kinds_of_mem_kindsOf hk) (hclosed k hk)

end WellFormed

/-- If kinds implement what they prefer, the type of a column is missing for missing values only,
and otherwise lists exactly what every kind among the values offers. -/
theorem inferred_intersection (hc : c.Built)
    (hprefers : ∀ k ∈ c.kinds, k.discovery.prefersImplemented = true) (calls : List Call)
    {values : List Value} (hvalues : ∀ v ∈ values, c.Accepts v) :
    ∃ t, c.inferred calls values = .ok t ∧
      ((∀ v ∈ values, v.kind = missingKind) → t = Descriptor.missing) ∧
      ((∃ v ∈ values, v.kind ≠ missingKind) →
        (∀ cap : Capability, cap.isListed t.capabilities = true ↔
          ∀ k ∈ c.kindsOf values, cap.isListed k.discovery.capabilities = true) ∧
        ∀ cap, t.supports cap = true ↔
          ∀ k ∈ c.kindsOf values, (Descriptor.ofKind k).supports cap = true) := by
  have hwf := hc.wellFormed
  refine ⟨_, hwf.inferred_eq hvalues calls, ?_, ?_⟩
  · intro hmissing
    rw [(hwf.typesOf_eq_nil_iff hvalues).mpr hmissing]
    rfl
  · rintro ⟨v, hv, hpresent⟩
    have hkind : ∀ k ∈ c.kindsOf values, k ∈ c.kinds := fun _ => hwf.mem_kinds_of_mem_kindsOf
    have hclosed := hwf.closed_of_mem_typesOf fun k hk =>
      hwf.parentClosed_ofKind (hkind k hk) (hprefers k (hkind k hk))
    have hne : c.typesOf values ≠ [] := by
      rw [Ne, hwf.typesOf_eq_nil_iff hvalues]
      exact fun hmissing => hpresent (hmissing v hv)
    constructor
    · intro cap
      rw [Capability.isListed_iff, Descriptor.names_mergeAll hwf.hierarchy hclosed hne,
        typesOf, List.forall_mem_map]
      refine forall₂_congr fun k hk => ?_
      rw [Descriptor.names_ofKind (hprefers k (hkind k hk)), Capability.isListed_iff]
    · intro cap
      rw [Descriptor.supports_mergeAll hwf.hierarchy hclosed hne, typesOf, List.forall_mem_map]

theorem accepts_whole_missing_flag :
    ∀ v ∈ [Value.whole 1, .missing, .flag true], builtin.Accepts v := by
  simp only [List.forall_mem_cons]
  exact ⟨Or.inr ⟨.whole, by decide, rfl⟩, Or.inl rfl, Or.inr ⟨.flag, by decide, rfl⟩, nofun⟩

theorem inferred_intersection_whole_missing_flag :
    (∀ k ∈ builtin.kinds, k.discovery.prefersImplemented = true) ∧
      (∀ v ∈ [Value.whole 1, .missing, .flag true], builtin.Accepts v) ∧
      ∃ t, builtin.inferred [] [.whole 1, .missing, .flag true] = .ok t ∧
        ∀ cap, t.supports cap = true ↔
          ∀ k ∈ [Kind.whole, Kind.flag], (Descriptor.ofKind k).supports cap = true := by
  have hprefers : ∀ k ∈ builtin.kinds, k.discovery.prefersImplemented = true := by decide
  obtain ⟨t, ht, -, hpresent⟩ :=
    inferred_intersection Built.builtin hprefers [] accepts_whole_missing_flag
  exact ⟨hprefers, accepts_whole_missing_flag, t, ht,
    (hpresent ⟨.whole 1, List.mem_cons_self, by decide⟩).2⟩

end Catalog

end ColumnTypes
