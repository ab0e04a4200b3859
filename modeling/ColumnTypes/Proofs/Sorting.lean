import ColumnTypes.Value.Order
import Mathlib.Order.Compare

namespace ColumnTypes

/-!
# Sorting columns

The order of a column turns around with its sides and puts missing values first,
whatever the values are. It compares values that have its view by the view, and
all others by their texts, so it is transitive unless the two ways disagree: a
value without the view stands, by the texts, between two values that the view
puts the other way round.
-/

/-! ## Orders on texts and views -/

instance : Std.TransCmp compareText :=
  inferInstanceAs (Std.TransCmp fun s t : String => compare s t)

instance : Std.TransCmp compareNumber :=
  inferInstanceAs (Std.TransCmp (compareOn Binary64.position))

instance : Std.TransCmp compareFlag := inferInstanceAs (Std.TransCmp (compareOn Bool.toNat))

theorem compareText_swap (s t : String) : compareText t s = (compareText s t).swap :=
  Std.OrientedCmp.eq_swap

theorem compareText_isLE_trans {s t u : String} (hst : (compareText s t).isLE = true)
    (htu : (compareText t u).isLE = true) : (compareText s u).isLE = true :=
  Std.TransCmp.isLE_trans hst htu

section

variable {α : Type} {view : Value → Option α} {order : α → α → Ordering}

theorem compareView_of_lacks {a b : Value} (h : (view a).isSome = false ∨ (view b).isSome = false) :
    compareView view order a b = compareText a.display b.display := by
  unfold compareView
  cases ha : view a with
  | none => rfl
  | some x =>
      cases hb : view b with
      | none => rfl
      | some y => simp [ha, hb] at h

theorem compareView_swap [Std.OrientedCmp order] (a b : Value) :
    compareView view order b a = (compareView view order a b).swap := by
  unfold compareView
  cases view a with
  | none => cases view b <;> exact compareText_swap _ _
  | some x =>
      cases view b with
      | none => exact compareText_swap _ _
      | some y => exact Std.OrientedCmp.eq_swap

theorem compareView_isLE_trans [Std.TransCmp order] {a b c : Value} (ha : (view a).isSome = true)
    (hb : (view b).isSome = true) (hc : (view c).isSome = true)
    (hab : (compareView view order a b).isLE = true)
    (hbc : (compareView view order b c).isLE = true) :
    (compareView view order a c).isLE = true := by
  obtain ⟨x, hx⟩ := Option.isSome_iff_exists.mp ha
  obtain ⟨y, hy⟩ := Option.isSome_iff_exists.mp hb
  obtain ⟨z, hz⟩ := Option.isSome_iff_exists.mp hc
  simp only [compareView, hx, hy, hz] at hab hbc ⊢
  exact Std.TransCmp.isLE_trans hab hbc

end

namespace ValueOrder

/-- Whether the value has the view that is compared. Every text is one. -/
def offers (o : ValueOrder) (v : Value) : Bool :=
  match o with
  | numeric => v.number?.isSome
  | lexical => v.text?.isSome
  | logical => v.flag?.isSome
  | text => !v.isMissing

theorem isMissing_of_offers {o : ValueOrder} {v : Value} (h : o.offers v = true) :
    v.isMissing = false := by
  cases v with
  | missing => cases o <;> cases h
  | whole | real | text | flag | foreign => rfl

theorem compare_of_lacks (o : ValueOrder) {a b : Value}
    (h : o.offers a = false ∨ o.offers b = false) :
    o.compare a b = compareText a.display b.display := by
  cases o with
  | numeric | lexical | logical => exact compareView_of_lacks h
  | text => rfl

theorem compare_swap (o : ValueOrder) (a b : Value) : o.compare b a = (o.compare a b).swap := by
  cases o with
  | numeric | lexical | logical => exact compareView_swap a b
  | text => exact compareText_swap _ _

theorem compare_isLE_trans_of_offers (o : ValueOrder) {a b c : Value} (ha : o.offers a = true)
    (hb : o.offers b = true) (hc : o.offers c = true) (hab : (o.compare a b).isLE = true)
    (hbc : (o.compare b c).isLE = true) : (o.compare a c).isLE = true := by
  cases o with
  | numeric | lexical | logical => exact compareView_isLE_trans ha hb hc hab hbc
  | text => exact compareText_isLE_trans hab hbc

instance (o : ValueOrder) : Std.OrientedCmp o.compare where
  eq_swap := o.compare_swap _ _

/-! ## Columns -/

theorem compareCells_swap (o : ValueOrder) (a b : Value) :
    o.compareCells b a = (o.compareCells a b).swap := by
  unfold compareCells
  cases a.isMissing <;> cases b.isMissing
  · exact o.compare_swap a b
  · rfl
  · rfl
  · rfl

theorem compareCells_of_missing (o : ValueOrder) {a b : Value} (ha : a.isMissing = true)
    (hb : b.isMissing = false) : o.compareCells a b = .lt := by
  simp [compareCells, ha, hb]

/-- Two values with the view and one without it, which their texts put between the two and which
the view puts in the opposite order, or does not tell apart while the texts do. -/
structure Tangled (o : ValueOrder) (x y w : Value) : Prop where
  left_offers : o.offers x = true
  right_offers : o.offers y = true
  lacks : o.offers w = false
  present : w.isMissing = false
  by_view : (o.compare x y).isLE = true
  above : (compareText y.display w.display).isLE = true
  below : (compareText w.display x.display).isLE = true
  strict : o.compare x y = .lt ∨ compareText y.display x.display = .lt

section

variable {o : ValueOrder} {a b c : Value}

theorem isLE_trans_of_lacks_left (ha : o.offers a = false) (hb : o.offers b = true)
    (hc : o.offers c = true) (ham : a.isMissing = false) (hfree : ¬o.Tangled b c a)
    (hab : (o.compare a b).isLE = true) (hbc : (o.compare b c).isLE = true) :
    (o.compare a c).isLE = true := by
  rw [o.compare_of_lacks (Or.inl ha)] at hab ⊢
  by_contra hac
  have hca := Std.OrientedCmp.lt_of_not_isLE hac
  have hcb := Std.TransCmp.lt_of_lt_of_isLE hca hab
  exact hfree ⟨hb, hc, ha, ham, hbc, Ordering.isLE_of_eq_lt hca, hab, Or.inr hcb⟩

theorem isLE_trans_of_lacks_middle (ha : o.offers a = true) (hb : o.offers b = false)
    (hc : o.offers c = true) (hbm : b.isMissing = false) (hfree : ¬o.Tangled c a b)
    (hab : (o.compare a b).isLE = true) (hbc : (o.compare b c).isLE = true) :
    (o.compare a c).isLE = true := by
  rw [o.compare_of_lacks (Or.inr hb)] at hab
  rw [o.compare_of_lacks (Or.inl hb)] at hbc
  by_contra hac
  have hca := Std.OrientedCmp.lt_of_not_isLE hac
  exact hfree ⟨hc, ha, hb, hbm, Ordering.isLE_of_eq_lt hca, hab, hbc, Or.inl hca⟩

theorem isLE_trans_of_lacks_right (ha : o.offers a = true) (hb : o.offers b = true)
    (hc : o.offers c = false) (hcm : c.isMissing = false) (hfree : ¬o.Tangled a b c)
    (hab : (o.compare a b).isLE = true) (hbc : (o.compare b c).isLE = true) :
    (o.compare a c).isLE = true := by
  rw [o.compare_of_lacks (Or.inr hc)] at hbc ⊢
  by_contra hac
  have hca := Std.OrientedCmp.lt_of_not_isLE hac
  have hba := Std.TransCmp.lt_of_isLE_of_lt hbc hca
  exact hfree ⟨ha, hb, hc, hcm, hab, hbc, Ordering.isLE_of_eq_lt hca, Or.inr hba⟩

/-- With at most one of the three views, all is compared by text. -/
theorem isLE_trans_of_two_lack (hab : o.offers a = false ∨ o.offers b = false)
    (hbc : o.offers b = false ∨ o.offers c = false) (hac : o.offers a = false ∨ o.offers c = false)
    (hle : (o.compare a b).isLE = true) (hle' : (o.compare b c).isLE = true) :
    (o.compare a c).isLE = true := by
  rw [o.compare_of_lacks hab] at hle
  rw [o.compare_of_lacks hbc] at hle'
  rw [o.compare_of_lacks hac]
  exact compareText_isLE_trans hle hle'

/-- Only where exactly one of the three lacks the view can the step over `b` fail, and then the
other two are tangled with it. -/
theorem compare_isLE_trans (ham : a.isMissing = false) (hbm : b.isMissing = false)
    (hcm : c.isMissing = false) (hleft : ¬o.Tangled b c a) (hmiddle : ¬o.Tangled c a b)
    (hright : ¬o.Tangled a b c) (hab : (o.compare a b).isLE = true)
    (hbc : (o.compare b c).isLE = true) : (o.compare a c).isLE = true := by
  cases ha : o.offers a with
  | true =>
      cases hb : o.offers b with
      | true =>
          cases hc : o.offers c with
          | true => exact o.compare_isLE_trans_of_offers ha hb hc hab hbc
          | false => exact isLE_trans_of_lacks_right ha hb hc hcm hright hab hbc
      | false =>
          cases hc : o.offers c with
          | true => exact isLE_trans_of_lacks_middle ha hb hc hbm hmiddle hab hbc
          | false =>
              exact isLE_trans_of_two_lack (Or.inr hb) (Or.inl hb) (Or.inr hc) hab hbc
  | false =>
      cases hb : o.offers b with
      | true =>
          cases hc : o.offers c with
          | true => exact isLE_trans_of_lacks_left ha hb hc ham hleft hab hbc
          | false =>
              exact isLE_trans_of_two_lack (Or.inl ha) (Or.inr hc) (Or.inl ha) hab hbc
      | false => exact isLE_trans_of_two_lack (Or.inl ha) (Or.inl hb) (Or.inl ha) hab hbc

/-- A missing value in front is not after anything, and nothing else stands before one. -/
theorem compareCells_isLE_trans (hleft : ¬o.Tangled b c a) (hmiddle : ¬o.Tangled c a b)
    (hright : ¬o.Tangled a b c) (hab : (o.compareCells a b).isLE = true)
    (hbc : (o.compareCells b c).isLE = true) : (o.compareCells a c).isLE = true := by
  cases ham : a.isMissing with
  | true =>
      cases hcm : c.isMissing with
      | true => simp [compareCells, ham, hcm]
      | false => simp [compareCells, ham, hcm]
  | false =>
      cases hbm : b.isMissing with
      | true => simp [compareCells, ham, hbm] at hab
      | false =>
          cases hcm : c.isMissing with
          | true => simp [compareCells, hbm, hcm] at hbc
          | false =>
              rw [o.compareCells_of_not_missing ham hbm] at hab
              rw [o.compareCells_of_not_missing hbm hcm] at hbc
              rw [o.compareCells_of_not_missing ham hcm]
              exact compare_isLE_trans ham hbm hcm hleft hmiddle hright hab hbc

end

/-- Whatever is not after a second value, which is not after a third one, is not after that one. -/
def TransitiveOn (o : ValueOrder) (vs : List Value) : Prop :=
  ∀ a ∈ vs, ∀ b ∈ vs, ∀ c ∈ vs, o.compareCells a b ≠ .gt → o.compareCells b c ≠ .gt →
    o.compareCells a c ≠ .gt

/-- By the view `x` is not after `y`, and by the texts `y` is not after `w` and `w` not after `x`.
Steps along such a circle would make all three equal. -/
theorem Tangled.not_transitiveOn {o : ValueOrder} {x y w : Value} (h : o.Tangled x y w) :
    ¬o.TransitiveOn [x, y, w] := by
  intro htrans
  have hxm := isMissing_of_offers h.left_offers
  have hym := isMissing_of_offers h.right_offers
  have hstep : ∀ a ∈ [x, y, w], ∀ b ∈ [x, y, w], ∀ c ∈ [x, y, w], (o.compare a b).isLE = true →
      (o.compare b c).isLE = true → (o.compare a c).isLE = true := by
    intro a ha b hb c hc hab hbc
    have hpresent : ∀ v ∈ [x, y, w], v.isMissing = false :=
      List.forall_mem_cons.mpr ⟨hxm, List.forall_mem_cons.mpr
        ⟨hym, List.forall_mem_singleton.mpr h.present⟩⟩
    have hcells := htrans a ha b hb c hc
    rw [o.compareCells_of_not_missing (hpresent a ha) (hpresent b hb),
      o.compareCells_of_not_missing (hpresent b hb) (hpresent c hc),
      o.compareCells_of_not_missing (hpresent a ha) (hpresent c hc)] at hcells
    rw [Ordering.isLE_iff_ne_gt] at hab hbc ⊢
    exact hcells hab hbc
  have hx : x ∈ [x, y, w] := List.mem_cons_self
  have hy : y ∈ [x, y, w] := List.mem_cons_of_mem x List.mem_cons_self
  have hw : w ∈ [x, y, w] := List.mem_cons_of_mem x (List.mem_cons_of_mem y List.mem_cons_self)
  have hyw : (o.compare y w).isLE = true := by
    rw [o.compare_of_lacks (Or.inr h.lacks)]
    exact h.above
  have hwx : (o.compare w x).isLE = true := by
    rw [o.compare_of_lacks (Or.inl h.lacks)]
    exact h.below
  rcases h.strict with hview | htext
  · exact Std.OrientedCmp.not_isLE_of_lt hview (hstep y hy w hw x hx hyw hwx)
  · have hxw := hstep x hx y hy w hw h.by_view hyw
    have hwy := hstep w hw x hx y hy hwx h.by_view
    rw [o.compare_of_lacks (Or.inr h.lacks)] at hxw
    rw [o.compare_of_lacks (Or.inl h.lacks)] at hwy
    exact Std.OrientedCmp.not_isLE_of_lt htext (compareText_isLE_trans hxw hwy)

theorem TransitiveOn.of_subset {o : ValueOrder} {vs us : List Value} (h : o.TransitiveOn vs)
    (hus : us ⊆ vs) : o.TransitiveOn us :=
  fun a ha b hb c hc => h a (hus ha) b (hus hb) c (hus hc)

theorem transitiveOn_iff (o : ValueOrder) (vs : List Value) :
    o.TransitiveOn vs ↔ ∀ x ∈ vs, ∀ y ∈ vs, ∀ w ∈ vs, ¬o.Tangled x y w := by
  constructor
  · intro htrans x hx y hy w hw htangled
    refine htangled.not_transitiveOn (htrans.of_subset ?_)
    exact List.cons_subset.mpr ⟨hx, List.cons_subset.mpr ⟨hy, List.cons_subset.mpr
      ⟨hw, List.nil_subset vs⟩⟩⟩
  · intro hfree a ha b hb c hc hab hbc
    rw [Ne, ← Ordering.isLE_iff_ne_gt] at hab hbc ⊢
    exact compareCells_isLE_trans (hfree b hb c hc a ha) (hfree c hc a ha b hb)
      (hfree a ha b hb c hc) hab hbc

theorem transitiveOn_of_uniform {o : ValueOrder} {vs : List Value}
    (h : (∀ v ∈ vs, v.isMissing = false → o.offers v = true) ∨ ∀ v ∈ vs, o.offers v = false) :
    o.TransitiveOn vs := by
  rw [transitiveOn_iff]
  intro x hx y _ w hw htangled
  rcases h with hall | hnone
  · exact Bool.false_ne_true (htangled.lacks.symm.trans (hall w hw htangled.present))
  · exact Bool.false_ne_true ((hnone x hx).symm.trans htangled.left_offers)

instance (o : ValueOrder) (x y w : Value) : Decidable (o.Tangled x y w) :=
  decidable_of_iff
    (o.offers x = true ∧ o.offers y = true ∧ o.offers w = false ∧ w.isMissing = false ∧
      (o.compare x y).isLE = true ∧ (compareText y.display w.display).isLE = true ∧
      (compareText w.display x.display).isLE = true ∧
      (o.compare x y = .lt ∨ compareText y.display x.display = .lt))
    ⟨fun ⟨hx, hy, hw, hwm, hview, habove, hbelow, hstrict⟩ =>
      ⟨hx, hy, hw, hwm, hview, habove, hbelow, hstrict⟩,
      fun ⟨hx, hy, hw, hwm, hview, habove, hbelow, hstrict⟩ =>
      ⟨hx, hy, hw, hwm, hview, habove, hbelow, hstrict⟩⟩

/-- An order of columns turns around with its sides, and missing values come first. It is transitive
on exactly those columns in which no value is tangled with two others; on a column whose values all
have the view, missing ones aside, or all lack it, it always is. -/
theorem compareCells_transitiveOn_iff (o : ValueOrder) :
    (∀ a b, o.compareCells b a = (o.compareCells a b).swap) ∧
      (∀ a b, a.isMissing = true → b.isMissing = false → o.compareCells a b = .lt) ∧
      (∀ vs, o.TransitiveOn vs ↔ ∀ x ∈ vs, ∀ y ∈ vs, ∀ w ∈ vs, ¬o.Tangled x y w) ∧
      ∀ vs, (∀ v ∈ vs, v.isMissing = false → o.offers v = true) ∨
        (∀ v ∈ vs, o.offers v = false) → o.TransitiveOn vs :=
  ⟨o.compareCells_swap, fun _ _ => o.compareCells_of_missing, o.transitiveOn_iff,
    fun _ => transitiveOn_of_uniform⟩

/-- The text comes behind those of both numbers. -/
theorem compareCells_transitiveOn_iff_units :
    (∀ x ∈ [Value.missing, .whole 9, .whole 10, .text "km"],
        ∀ y ∈ [Value.missing, .whole 9, .whole 10, .text "km"],
        ∀ w ∈ [Value.missing, .whole 9, .whole 10, .text "km"], ¬numeric.Tangled x y w) ∧
      numeric.TransitiveOn [.missing, .whole 9, .whole 10, .text "km"] ∧
      numeric.compareCells .missing (.whole 9) = .lt := by
  obtain ⟨-, hmissing, hiff, -⟩ := compareCells_transitiveOn_iff numeric
  have hfree : ∀ x ∈ [Value.missing, .whole 9, .whole 10, .text "km"],
      ∀ y ∈ [Value.missing, .whole 9, .whole 10, .text "km"],
      ∀ w ∈ [Value.missing, .whole 9, .whole 10, .text "km"], ¬numeric.Tangled x y w := by
    decide +kernel
  exact ⟨hfree, (hiff _).mpr hfree, hmissing _ _ rfl rfl⟩

/-- Nine is before ten, the text of ten before the text five, and this before the text of nine. -/
theorem numeric_mixes_numbers_and_texts :
    numeric.compareCells (.whole 9) (.whole 10) = .lt ∧
      numeric.compareCells (.whole 10) (.text "5") = .lt ∧
      numeric.compareCells (.whole 9) (.text "5") = .gt ∧
      ¬numeric.TransitiveOn [.whole 9, .whole 10, .text "5"] := by
  have hnumbers : numeric.compareCells (.whole 9) (.whole 10) = .lt := by decide +kernel
  have hten : numeric.compareCells (.whole 10) (.text "5") = .lt := by decide +kernel
  have hnine : numeric.compareCells (.whole 9) (.text "5") = .gt := by decide +kernel
  refine ⟨hnumbers, hten, hnine, fun htrans => ?_⟩
  refine htrans _ List.mem_cons_self _ (List.mem_cons_of_mem _ List.mem_cons_self) _
    (List.mem_cons_of_mem _ (List.mem_cons_of_mem _ List.mem_cons_self)) ?_ ?_ hnine
  · rw [hnumbers]
    exact Ordering.noConfusion
  · rw [hten]
    exact Ordering.noConfusion

end ValueOrder

end ColumnTypes
