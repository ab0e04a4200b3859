import ColumnTypes.Proofs.Metadata
import ColumnTypes.Proofs.ShortestText

namespace ColumnTypes

/-!
# Columns of integers

The builtin catalog sorts and shows integers by their numeric view, which is a
double. Up to `2 ^ 53` nothing is lost on the way. Beyond it, two integers that
are read as the same double are equal for the order, and the text is that of the
shortest integer that is read as this double.
-/

open Binary64

/-! ## Integers of sixty-four bits -/

theorem natAbs_toInt_le (n : Int64) : n.toInt.natAbs ≤ 2 ^ 63 := by
  have hlow := n.le_toInt
  have hhigh := n.toInt_lt
  omega

theorem ValueOrder.numeric_compareCells_whole (n m : Int64) :
    numeric.compareCells (.whole n) (.whole m) =
      Ord.compare (nearestInt n.toInt) (nearestInt m.toInt) :=
  compareNumber_ofInt (log2_lt_of_le (natAbs_toInt_le n)) (log2_lt_of_le (natAbs_toInt_le m))

theorem ValueOrder.numeric_compareCells_whole_eq_iff (n m : Int64) :
    numeric.compareCells (.whole n) (.whole m) = Ord.compare n.toInt m.toInt ↔
      n = m ∨ nearestInt n.toInt ≠ nearestInt m.toInt := by
  rw [numeric_compareCells_whole, compare_nearestInt_eq_iff, Int64.toInt_inj]

theorem Renderer.numeric_render_whole (n : Int64) :
    ∃ k, Shortest n.toInt.natAbs k ∧
      (numeric none).render (.whole n) = Value.wholeText (withSign n.toInt k) :=
  display_ofInt (natAbs_toInt_le n)

theorem Renderer.numeric_render_whole_eq_iff (n : Int64) :
    (numeric none).render (.whole n) = Value.wholeText n.toInt ↔
      Shortest n.toInt.natAbs n.toInt.natAbs := by
  obtain ⟨k, hk, hrender⟩ := numeric_render_whole n
  rw [hrender]
  constructor
  · intro h
    have hsign : withSign n.toInt k = withSign n.toInt n.toInt.natAbs :=
      (wholeText_inj h).trans (withSign_natAbs n.toInt).symm
    exact withSign_inj.mp hsign ▸ hk
  · intro h
    rw [hk.unique h, withSign_natAbs]

/-- A column that does not ask for decimals is shown without them. -/
theorem RendererRule.numeric_forColumn {column : Column}
    (h : column.get? Column.decimalsKey = none) :
    (numeric.forColumn column).value = some (.numeric none) := by
  have hdecimals : column.decimals? = ⟨none, []⟩ := by
    rw [Column.decimals?, h]
  change some (Renderer.numeric column.decimals?.value) = some (Renderer.numeric none)
  rw [hdecimals]

namespace Catalog

section

variable {calls : List Call} (hcalls : ∀ call ∈ calls, builtin.IsOwn call)
include hcalls

theorem builtin_answer_order_whole :
    builtin.answerAfter calls (.order (Descriptor.ofKind .whole)) = .order .numeric := by
  have hown : (Call.order (Descriptor.ofKind .whole)).lookups ⊆ builtin.capabilities := by decide
  exact (Option.some.inj (Built.builtin.wellFormed.answer?_bundles hcalls rfl hown)).symm

/-- Of the two capabilities of integers only the numeric one declares a renderer. -/
theorem builtin_answer_renderers_whole {column : Column}
    (h : column.get? Column.decimalsKey = none) :
    builtin.answerAfter calls (.renderers (Descriptor.ofKind .whole) column) =
      .renderers ⟨.numeric none, []⟩ := by
  have hown : (Call.renderers (Descriptor.ofKind .whole) column).lookups ⊆
      builtin.capabilities :=
    (by decide : (Descriptor.ofKind .whole).capabilities ⊆ builtin.capabilities)
  have hanswer := Built.builtin.wellFormed.answer?_bundles hcalls rfl hown
  have hrenderers : (Metadata.ofBundles
      ((Descriptor.ofKind .whole).capabilities.map Capability.bundle)).renderers column =
        ⟨.numeric none, []⟩ := by
    have hnumeric : (Capability.numeric.bundle.rendererFor column).value = some (.numeric none) :=
      RendererRule.numeric_forColumn h
    change Renderers.ofList (List.filterMap (fun b => (b.rendererFor column).value)
      [Capability.numeric.bundle, Capability.comparable.bundle]) = _
    rw [List.filterMap_cons, hnumeric]
    rfl
  exact (Option.some.inj hanswer).symm.trans (congrArg Answer.renderers hrenderers)

/-- Whatever was asked about registered capabilities before, integers are ordered as the doubles
nearest to them. So they are in their own order, except that two that are read as the same double
are equal. Without a number of decimals they are shown as the shortest integer that is read as the
same double. Up to `2 ^ 53` both are exact. -/
theorem whole_columns_by_nearest :
    (∃ o, builtin.answerAfter calls (.order (Descriptor.ofKind .whole)) = .order o ∧
      ∀ n m : Int64,
        o.compareCells (.whole n) (.whole m) =
            Ord.compare (nearestInt n.toInt) (nearestInt m.toInt) ∧
          (o.compareCells (.whole n) (.whole m) = Ord.compare n.toInt m.toInt ↔
            n = m ∨ nearestInt n.toInt ≠ nearestInt m.toInt) ∧
          (n.toInt.natAbs ≤ 2 ^ 53 → m.toInt.natAbs ≤ 2 ^ 53 →
            o.compareCells (.whole n) (.whole m) = Ord.compare n.toInt m.toInt)) ∧
      ∀ column : Column, column.get? Column.decimalsKey = none →
        ∃ rs, builtin.answerAfter calls (.renderers (Descriptor.ofKind .whole) column) =
            .renderers rs ∧
          ∀ n : Int64,
            (∃ k, Shortest n.toInt.natAbs k ∧
                rs.render (.whole n) = Value.wholeText (withSign n.toInt k)) ∧
              (rs.render (.whole n) = Value.wholeText n.toInt ↔
                Shortest n.toInt.natAbs n.toInt.natAbs) ∧
              (n.toInt.natAbs ≤ 2 ^ 53 → rs.render (.whole n) = Value.wholeText n.toInt) := by
  constructor
  · refine ⟨.numeric, builtin_answer_order_whole hcalls, fun n m => ⟨?_, ?_, fun hn hm => ?_⟩⟩
    · exact ValueOrder.numeric_compareCells_whole n m
    · exact ValueOrder.numeric_compareCells_whole_eq_iff n m
    · rw [ValueOrder.numeric_compareCells_whole, nearestInt_of_le hn, nearestInt_of_le hm]
  · intro column hcolumn
    refine ⟨_, builtin_answer_renderers_whole hcalls hcolumn, fun n => ⟨?_, ?_, fun hn => ?_⟩⟩
    · exact Renderer.numeric_render_whole n
    · exact Renderer.numeric_render_whole_eq_iff n
    · exact (Renderer.numeric_render_whole_eq_iff n).mpr (shortest_of_le hn)

end

/-- The two even neighbours of `2 ^ 53 + 1` are told apart. -/
theorem whole_columns_by_nearest_even :
    (∀ call ∈ [Call.bundle .numeric], builtin.IsOwn call) ∧
      (∃ o, builtin.answerAfter [Call.bundle .numeric] (.order (Descriptor.ofKind .whole)) =
          .order o ∧
        o.compareCells (.whole 9007199254740992) (.whole 9007199254740994) = .lt) ∧
      (Column.named "count").get? Column.decimalsKey = none ∧
      ∃ rs, builtin.answerAfter [Call.bundle .numeric]
          (.renderers (Descriptor.ofKind .whole) (Column.named "count")) = .renderers rs ∧
        rs.render (.whole (-9007199254740992)) = "-9007199254740992" := by
  have hcalls : ∀ call ∈ [Call.bundle .numeric], builtin.IsOwn call := by decide
  obtain ⟨⟨o, ho, horder⟩, hrenderers⟩ := whole_columns_by_nearest hcalls
  obtain ⟨rs, hrs, hrender⟩ := hrenderers (Column.named "count") rfl
  refine ⟨hcalls, ⟨o, ho, ?_⟩, rfl, rs, hrs, ?_⟩
  · exact (horder _ _).1.trans (by decide +kernel)
  · exact ((hrender _).2.2 (by decide)).trans (by decide +kernel)

/-- The first odd number that is no double is equal to the even one below it and shown as this. -/
theorem whole_columns_round_odd :
    builtin.answerAfter [] (.order (Descriptor.ofKind .whole)) = .order .numeric ∧
      Ord.compare (9007199254740992 : Int64).toInt (9007199254740993 : Int64).toInt = .lt ∧
      ValueOrder.numeric.compareCells (.whole 9007199254740992) (.whole 9007199254740993) = .eq ∧
      builtin.answerAfter [] (.renderers (Descriptor.ofKind .whole) (Column.named "count")) =
        .renderers ⟨.numeric none, []⟩ ∧
      Value.wholeText (9007199254740993 : Int64).toInt = "9007199254740993" ∧
      (Renderers.mk (.numeric none) []).render (.whole 9007199254740993) = "9007199254740992" := by
  have hcalls : ∀ call ∈ ([] : List Call), builtin.IsOwn call := nofun
  refine ⟨builtin_answer_order_whole hcalls, by decide, by decide +kernel,
    builtin_answer_renderers_whole hcalls rfl, by decide +kernel, by decide +kernel⟩

end Catalog

end ColumnTypes
