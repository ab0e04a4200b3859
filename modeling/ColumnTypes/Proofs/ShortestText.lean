import ColumnTypes.Proofs.Nearest
import Mathlib.Data.Nat.Dist

namespace ColumnTypes

/-!
# The text of an integer that is read as a double

The text names an integer that is read as the same double. Among these it is the
one with the most trailing zeros, of several the one nearest to the double, and
of two as near the greater one. So it is the text of the integer itself exactly
where no other one is preferred.
-/

open Decimal

namespace Binary64

/-! ## The shortest integer -/

/-- `k` is no farther from `r` than `l` is, and above it if both are as far. -/
def Closer (r k l : Nat) : Prop := k.dist r < l.dist r ∨ k.dist r = l.dist r ∧ l ≤ k

/-- `k` is what the double nearest to `n` is shown as. -/
structure Shortest (n k : Nat) : Prop where
  rounds : nearest k = nearest n
  zeros : ∀ l j, nearest l = nearest n → 10 ^ j ∣ l → 10 ^ j ∣ k
  closest : ∀ l, nearest l = nearest n → (∀ j, 10 ^ j ∣ k → 10 ^ j ∣ l) → Closer (nearest n) k l

theorem Closer.antisymm {r k l : Nat} (hkl : Closer r k l) (hlk : Closer r l k) : k = l := by
  unfold Closer at hkl hlk
  omega

theorem Shortest.unique {n k l : Nat} (hk : Shortest n k) (hl : Shortest n l) : k = l := by
  have hkl := hk.closest l hl.rounds fun j hj => hl.zeros k j hk.rounds hj
  have hlk := hl.closest k hk.rounds fun j hj => hk.zeros l j hl.rounds hj
  exact hkl.antisymm hlk

theorem Closer.refl (r k : Nat) : Closer r k k := Or.inr ⟨rfl, Nat.le_refl k⟩

theorem shortest_of_lt {n : Nat} (h : n < 2 ^ 53) : Shortest n n := by
  have honly : ∀ {l}, nearest l = nearest n → l = n := by
    intro l hl
    rw [nearest_of_lt h] at hl
    exact (nearest_eq_iff_of_lt h).mp hl
  exact ⟨rfl, fun l j hl hj => honly hl ▸ hj, fun l hl _ => honly hl ▸ Closer.refl _ l⟩

/-- The next integer is rounded to `2 ^ 53` as well. It has no trailing zeros and is not as
near. -/
theorem shortest_two_pow : Shortest (2 ^ 53) (2 ^ 53) := by
  have hself : nearest (2 ^ 53) = 2 ^ 53 := nearest_of_le (Nat.le_refl _)
  have honly : ∀ {l}, nearest l = nearest (2 ^ 53) → l = 2 ^ 53 ∨ l = 2 ^ 53 + 1 := by
    intro l hl
    rw [hself] at hl
    rcases Nat.lt_or_ge l (2 ^ 53) with hlt | hge
    · rw [nearest_of_lt hlt] at hl
      omega
    · have hnext : nearest (2 ^ 53 + 2) = 2 ^ 53 + 2 := by decide +kernel
      have hlt : l < 2 ^ 53 + 2 := by
        refine Nat.lt_of_not_le fun hle => ?_
        have hmono := nearest_mono hle
        omega
      omega
  refine ⟨rfl, fun l j hl hj => ?_, fun l hl _ => ?_⟩
  · rcases honly hl with rfl | rfl
    · exact hj
    · cases j with
      | zero => exact Nat.one_dvd _
      | succ j => exact absurd ((Nat.dvd_mul_left 10 (10 ^ j)).trans hj) (by decide)
  · rcases honly hl with rfl | rfl
    · exact Closer.refl _ _
    · rw [hself]
      exact Or.inl (by decide)

theorem shortest_of_le {n : Nat} (h : n ≤ 2 ^ 53) : Shortest n n := by
  rcases h.lt_or_eq with hlt | rfl
  · exact shortest_of_lt hlt
  · exact shortest_two_pow

theorem Shortest.ne_zero {n k : Nat} (h : Shortest n k) (hn : n ≠ 0) : k ≠ 0 := by
  rintro rfl
  have hround : 0 = nearest n := h.rounds
  exact (nearest_pos hn).ne hround

/-! ## Mantissa and exponent -/

/-- `r` is `m * 2 ^ (t - 52)`, where `m` has fifty-three bits. -/
structure Mantissa (r t m : Nat) : Prop where
  low : exponentWeight ≤ m
  high : m < 2 * exponentWeight
  value : r * exponentWeight = m * 2 ^ t

/-- A significand of `2 ^ 53` is carried into the exponent. -/
theorem exists_mantissa {n : Nat} (hn : n ≠ 0) :
    ∃ t m, Mantissa (nearest n) t m ∧ natBits n = (t + 1022) * exponentWeight + m := by
  obtain ⟨hlow, hhigh⟩ := significand_bounds hn
  have hvalue := nearest_mul_weight n
  have hbits := natBits_eq hn
  rcases hhigh.lt_or_eq with hlt | heq
  · exact ⟨n.log2, significand n, ⟨hlow, hlt, hvalue⟩, hbits⟩
  · refine ⟨n.log2 + 1, exponentWeight, ⟨Nat.le_refl _, by decide, ?_⟩, ?_⟩
    · rw [hvalue, heq]
      ring
    · rw [hbits, heq]
      ring

section

variable {r t m : Nat}

theorem Mantissa.scaled (h : Mantissa r t m) : r * 2 ^ (52 - t) = m * 2 ^ (t - 52) := by
  have hpow : 2 ^ (52 - t) * 2 ^ t = exponentWeight * 2 ^ (t - 52) := by
    rw [← Nat.pow_add, (by decide : exponentWeight = 2 ^ 52), ← Nat.pow_add]
    congr 1
    omega
  refine Nat.eq_of_mul_eq_mul_right (by decide : 0 < exponentWeight) ?_
  calc
    r * 2 ^ (52 - t) * exponentWeight = r * exponentWeight * 2 ^ (52 - t) := by ring
    _ = m * (2 ^ (52 - t) * 2 ^ t) := by rw [h.value]; ring
    _ = m * 2 ^ (t - 52) * exponentWeight := by rw [hpow]; ring

theorem magnitude_of_absBits {x : Binary64} (h : Mantissa r t m)
    (hbits : x.absBits = (t + 1022) * exponentWeight + m) (ht : t < 1024) :
    x.magnitude = .finite m (t - 52) := by
  have hlow := h.low
  have hhigh := h.high
  have hfield : x.exponentField = t + 1023 := by
    unfold exponentField
    rw [hbits]
    unfold exponentWeight at *
    omega
  have hfraction : exponentWeight + x.fractionField = m := by
    unfold fractionField
    rw [hbits]
    unfold exponentWeight at *
    omega
  have hexponent : ((t + 1023 : Nat) : Int) - 1075 = t - 52 := by omega
  rw [magnitude, hfield, if_neg (by omega), if_neg (by omega), hfraction, hexponent]

/-! ## Integers that round to a double -/

/-- How far below the double its interval begins, in quarters of the distance to the next one. -/
def below (m : Nat) : Nat := if m = exponentWeight then 1 else 2

theorem ofBinary_middle (h : Mantissa r t m) :
    (RoundingInterval.ofBinary m (t - 52)).middle =
      r * (RoundingInterval.ofBinary m (t - 52)).unit := by
  have hup : ((t : Int) - 52).toNat = t - 52 := by omega
  have hdown : (-((t : Int) - 52)).toNat = 52 - t := by omega
  simp only [RoundingInterval.ofBinary, Nat.pow_eq, hup, hdown]
  rw [Nat.mul_assoc, ← h.scaled]
  ring

/-- Here everything is multiplied by four and the distance to the next double is
`2 ^ (t - 52)`, or less than one. -/
theorem ofBinary_contains_iff (h : Mantissa r t m) (l : Nat) :
    (RoundingInterval.ofBinary m (t - 52)).contains l 1 = true ↔
      if m % 2 = 0 then
        4 * (r * 2 ^ (52 - t)) ≤ 4 * (l * 2 ^ (52 - t)) + below m * 2 ^ (t - 52) ∧
          4 * (l * 2 ^ (52 - t)) ≤ 4 * (r * 2 ^ (52 - t)) + 2 * 2 ^ (t - 52)
      else
        4 * (r * 2 ^ (52 - t)) < 4 * (l * 2 ^ (52 - t)) + below m * 2 ^ (t - 52) ∧
          4 * (l * 2 ^ (52 - t)) < 4 * (r * 2 ^ (52 - t)) + 2 * 2 ^ (t - 52) := by
  have hup : ((t : Int) - 52).toNat = t - 52 := by omega
  have hdown : (-((t : Int) - 52)).toNat = 52 - t := by omega
  have hbelow : (if m = 0x10000000000000 ∧ (t : Int) - 52 ≠ -1074 then 1 else 2) = below m := by
    unfold below exponentWeight
    congr 1
    simp
    omega
  have hle : below m ≤ 4 * m := by
    have hlow := h.low
    unfold below
    unfold exponentWeight at *
    split <;> omega
  have hsub : (4 * m - below m) * 2 ^ (t - 52) + below m * 2 ^ (t - 52) =
      4 * (m * 2 ^ (t - 52)) := by
    rw [← Nat.add_mul, Nat.sub_add_cancel hle, Nat.mul_assoc]
  have hassoc : l * (4 * 2 ^ (52 - t)) = 4 * (l * 2 ^ (52 - t)) := Nat.mul_left_comm l 4 _
  have hhigh : (4 * m + 2) * 2 ^ (t - 52) = 4 * (m * 2 ^ (t - 52)) + 2 * 2 ^ (t - 52) := by ring
  rw [h.scaled]
  simp only [RoundingInterval.contains, RoundingInterval.ofBinary, Nat.pow_eq, hup, hdown, hbelow,
    Nat.mul_one, hassoc, hhigh, decide_eq_true_eq]
  split <;> simp only [Bool.and_eq_true, decide_eq_true_eq] <;> omega

/-- Below `2 ^ 53` the interval is shorter than the distance between integers. -/
theorem ofBinary_contains_of_le (h : Mantissa r t m) (ht : t ≤ 52) (l : Nat) :
    (RoundingInterval.ofBinary m (t - 52)).contains l 1 = true ↔ nearest l = r := by
  have hscaled := h.scaled
  have hhigh := h.high
  have hunit : 0 < 2 ^ (52 - t) := Nat.two_pow_pos _
  have hbelow : below m = 1 ∨ below m = 2 := by
    unfold below
    split <;> simp
  rw [ofBinary_contains_iff h]
  rw [Nat.sub_eq_zero_of_le ht, Nat.pow_zero] at hscaled ⊢
  have hr : r < 2 ^ 53 := by
    have hle : r * 1 ≤ r * 2 ^ (52 - t) := Nat.mul_le_mul_left r hunit
    unfold exponentWeight at hhigh
    omega
  rw [nearest_eq_iff_of_lt hr]
  generalize 2 ^ (52 - t) = unit at hunit ⊢
  rcases Nat.lt_trichotomy l r with hlt | rfl | hgt
  · have hstep : (l + 1) * unit ≤ r * unit := Nat.mul_le_mul_right unit hlt
    rw [Nat.succ_mul] at hstep
    split <;> omega
  · split <;> omega
  · have hstep : (r + 1) * unit ≤ l * unit := Nat.mul_le_mul_right unit hgt
    rw [Nat.succ_mul] at hstep
    split <;> omega

/-- `r` is on a grid of step `2 ^ (t - 52)`, between the powers of two `2 ^ t` and
`2 ^ (t + 1)`. -/
theorem Mantissa.between (h : Mantissa r t m) (ht : 52 < t) :
    r = m * 2 ^ (t - 52) ∧ 2 ^ t = exponentWeight * 2 ^ (t - 52) ∧ 2 ^ t ≤ r ∧
      r + 2 ^ (t - 52) ≤ 2 * 2 ^ t := by
  have hr := h.scaled
  rw [Nat.sub_eq_zero_of_le ht.le, Nat.pow_zero, Nat.mul_one] at hr
  have hpow : 2 ^ t = exponentWeight * 2 ^ (t - 52) := by
    rw [(by decide : exponentWeight = 2 ^ 52), ← Nat.pow_add, Nat.add_sub_cancel' ht.le]
  refine ⟨hr, hpow, ?_, ?_⟩
  · rw [hpow, hr]
    exact Nat.mul_le_mul_right _ h.low
  · rw [hpow, hr, ← Nat.succ_mul, ← Nat.mul_assoc]
    exact Nat.mul_le_mul_right _ h.high

/-- An integer with the same powers of two around it is rounded on the grid of the double. -/
theorem nearest_eq_iff_of_log2_eq (h : Mantissa r t m) (ht : 52 < t) {l : Nat} (hl : l.log2 = t) :
    nearest l = r ↔
      if m % 2 = 0 then 2 * r ≤ 2 * l + 2 ^ (t - 52) ∧ 2 * l ≤ 2 * r + 2 ^ (t - 52)
      else 2 * r < 2 * l + 2 ^ (t - 52) ∧ 2 * l < 2 * r + 2 ^ (t - 52) := by
  have hr := (h.between ht).1
  have hgap : gap l = 2 ^ (t - 52) := by rw [gap, hl]
  rw [hr, ← roundHalfEven_eq_iff (Nat.two_pow_pos _), nearest, hgap]
  exact Nat.mul_left_inj (Nat.two_pow_pos _).ne'

/-- One from the next lower powers of two is rounded on a grid of half that step. -/
theorem nearest_eq_iff_of_log2_succ_eq (h : Mantissa r t m) (ht : 52 < t) {l : Nat}
    (hl : l.log2 + 1 = t) :
    nearest l = r ↔ 4 * r ≤ 4 * l + 2 ^ (t - 52) ∧ 4 * l ≤ 4 * r + 2 ^ (t - 52) := by
  have hr := (h.between ht).1
  have hhalf : 2 ^ (t - 52) = 2 * gap l := by
    rw [gap, ← Nat.pow_succ']
    congr 1
    omega
  have hdouble : m * (2 * gap l) = 2 * m * gap l := by ring
  rw [hr, hhalf, hdouble, nearest, Nat.mul_left_inj (gap_pos l).ne',
    roundHalfEven_eq_iff (gap_pos l), if_pos (Nat.mul_mod_right 2 m)]
  omega

/-- Far below or far above `2 ^ t`, rounded or not, or between the powers of two on either side. -/
theorem log2_cases (l t : Nat) :
    2 * l < 2 ^ t ∧ 2 * nearest l ≤ 2 ^ t ∨ 2 * 2 ^ t ≤ l ∧ 2 * 2 ^ t ≤ nearest l ∨
      l.log2 + 1 = t ∧ l < 2 ^ t ∨ l.log2 = t ∧ 2 ^ t ≤ l := by
  rcases Nat.eq_zero_or_pos l with rfl | hpos
  · have hzero : nearest 0 = 0 := rfl
    rw [hzero]
    exact Or.inl ⟨Nat.two_pow_pos t, Nat.zero_le _⟩
  · have hlow : 2 ^ l.log2 ≤ l := Nat.log2_self_le hpos.ne'
    have hhigh : l < 2 ^ (l.log2 + 1) := Nat.lt_log2_self
    obtain ⟨hround, hround'⟩ := nearest_bounds hpos.ne'
    rcases Nat.lt_trichotomy (l.log2 + 1) t with hlt | heq | hgt
    · have hpow : 2 ^ (l.log2 + 1 + 1) ≤ 2 ^ t := Nat.pow_le_pow_right Nat.two_pos hlt
      rw [Nat.pow_succ] at hpow
      exact Or.inl (by omega)
    · exact Or.inr (Or.inr (Or.inl ⟨heq, hhigh.trans_eq (by rw [heq])⟩))
    · rcases (Nat.le_of_lt_succ hgt).lt_or_eq with hlt | heq
      · have hpow : 2 ^ (t + 1) ≤ 2 ^ l.log2 := Nat.pow_le_pow_right Nat.two_pos hlt
        rw [Nat.pow_succ] at hpow
        exact Or.inr (Or.inl (by omega))
      · exact Or.inr (Or.inr (Or.inr ⟨heq.symm, (by rw [heq]; exact hlow)⟩))

/-- Only a power of two has a shorter interval on its lower side. -/
theorem below_cases (h : Mantissa r t m) (ht : 52 < t) :
    m % 2 = 0 ∧ r = 2 ^ t ∧ below m = 1 ∨
      2 ^ t + 2 ^ (t - 52) ≤ r ∧ below m = 2 := by
  obtain ⟨hr, hpow, -, -⟩ := h.between ht
  rcases h.low.eq_or_lt with heq | hlt
  · exact Or.inl ⟨by rw [← heq]; rfl, by rw [hr, hpow, heq], if_pos heq.symm⟩
  · refine Or.inr ⟨?_, if_neg hlt.ne'⟩
    rw [hr, hpow, ← Nat.succ_mul]
    exact Nat.mul_le_mul_right _ hlt

/-- From `2 ^ 53` on, the powers of two around `l` decide on which grid it is rounded. Too far
from `r` to round to it, it is not in the interval either. -/
theorem ofBinary_contains_of_lt (h : Mantissa r t m) (ht : 52 < t) (l : Nat) :
    (RoundingInterval.ofBinary m (t - 52)).contains l 1 = true ↔ nearest l = r := by
  obtain ⟨-, hpow, hlow, hhigh⟩ := h.between ht
  have hgap : 0 < 2 ^ (t - 52) := Nat.two_pow_pos _
  have hone : 2 ^ (52 - t) = 1 := by rw [Nat.sub_eq_zero_of_le ht.le, Nat.pow_zero]
  rw [ofBinary_contains_iff h, hone, Nat.mul_one, Nat.mul_one]
  unfold exponentWeight at hpow
  rcases below_cases h ht with ⟨heven, hr, hbelow⟩ | ⟨hr, hbelow⟩
  · -- Below a power of two the grid is finer, so the interval is shorter on that side.
    rw [hbelow, if_pos heven]
    rcases log2_cases l t with ⟨hl, hround⟩ | ⟨hl, hround⟩ | ⟨hlog, hl⟩ | ⟨hlog, hl⟩
    · exact iff_of_false (by omega) (by omega)
    · exact iff_of_false (by omega) (by omega)
    · rw [nearest_eq_iff_of_log2_succ_eq h ht hlog]
      omega
    · rw [nearest_eq_iff_of_log2_eq h ht hlog, if_pos heven]
      omega
  · -- Otherwise nothing below `2 ^ t` is near enough.
    rw [hbelow]
    rcases log2_cases l t with ⟨hl, hround⟩ | ⟨hl, hround⟩ | ⟨hlog, hl⟩ | ⟨hlog, hl⟩
    · refine iff_of_false ?_ (by omega)
      split <;> omega
    · refine iff_of_false ?_ (by omega)
      split <;> omega
    · rw [nearest_eq_iff_of_log2_succ_eq h ht hlog]
      split <;> omega
    · rw [nearest_eq_iff_of_log2_eq h ht hlog]
      split <;> omega

/-- The interval of the double `r`, which holds the integers that round to it. -/
structure Rounds (i : RoundingInterval) (r : Nat) : Prop where
  unit_pos : 0 < i.unit
  middle : i.middle = r * i.unit
  contains : ∀ l, i.contains l 1 = true ↔ nearest l = r

theorem rounds_ofBinary (h : Mantissa r t m) :
    Rounds (RoundingInterval.ofBinary m (t - 52)) r where
  unit_pos := Nat.mul_pos (by decide) (Nat.two_pow_pos _)
  middle := ofBinary_middle h
  contains l := by
    rcases Nat.lt_or_ge 52 t with hlt | hge
    · exact ofBinary_contains_of_lt h hlt l
    · exact ofBinary_contains_of_le h hge l

theorem Mantissa.nearest_eq (h : Mantissa r t m) : nearest r = r := by
  have hgap : 0 < 2 ^ (t - 52) := Nat.two_pow_pos _
  have hbelow : 0 < below m * 2 ^ (t - 52) := by
    refine Nat.mul_pos ?_ hgap
    unfold below
    split <;> decide
  rw [← (rounds_ofBinary h).contains, ofBinary_contains_iff h]
  split <;> omega

end

/-! ## Grids -/

section

variable {i : RoundingInterval} {r s : Nat}

/-- On a grid of whole steps the two neighbours of `r` are tried. -/
theorem Rounds.onGrid_eq (h : Rounds i r) (s : Nat) :
    i.onGrid s =
      if nearest (r / 10 ^ s * 10 ^ s) = r ∧
          ¬(nearest ((r / 10 ^ s + 1) * 10 ^ s) = r ∧ 10 ^ s ≤ 2 * (r % 10 ^ s)) then
        some (r / 10 ^ s)
      else if nearest ((r / 10 ^ s + 1) * 10 ^ s) = r then some (r / 10 ^ s + 1)
      else none := by
  have hup : (s : Int).toNat = s := rfl
  have hdown : (-(s : Int)).toNat = 0 := by omega
  have hquotient : r * i.unit / (i.unit * 10 ^ s) = r / 10 ^ s := by
    rw [Nat.mul_comm r, Nat.mul_div_mul_left _ _ h.unit_pos]
  have hrest : 2 * (r * i.unit % (i.unit * 10 ^ s)) = i.unit * (2 * (r % 10 ^ s)) := by
    rw [Nat.mul_comm r, Nat.mul_mod_mul_left, Nat.mul_left_comm]
  unfold RoundingInterval.onGrid
  simp only [hup, hdown, Nat.pow_eq, Nat.pow_zero, Nat.mul_one, h.middle, hquotient, hrest,
    Nat.mul_le_mul_left_iff h.unit_pos, Bool.and_eq_true, Bool.not_eq_true', ← Bool.not_eq_true,
    decide_eq_true_eq, h.contains]

/-- Rounding is monotone, so if any multiple of the step rounds to `r`, the neighbour of `r` on its
side does. -/
theorem neighbour_of_dvd (hr : nearest r = r) {l : Nat} (hl : nearest l = r) (hdvd : 10 ^ s ∣ l) :
    l ≤ r / 10 ^ s * 10 ^ s ∧ nearest (r / 10 ^ s * 10 ^ s) = r ∨
      (r / 10 ^ s + 1) * 10 ^ s ≤ l ∧ nearest ((r / 10 ^ s + 1) * 10 ^ s) = r := by
  have hpos : 0 < 10 ^ s := Nat.pos_of_neZero _
  have hsum : r / 10 ^ s * 10 ^ s + r % 10 ^ s = r := Nat.div_add_mod' r _
  have hrest : r % 10 ^ s < 10 ^ s := Nat.mod_lt r hpos
  obtain ⟨c, hc⟩ := hdvd
  rw [Nat.mul_comm] at hc
  subst hc
  rcases Nat.lt_or_ge (r / 10 ^ s) c with hlt | hge
  · have hstep : (r / 10 ^ s + 1) * 10 ^ s ≤ c * 10 ^ s := Nat.mul_le_mul_right _ hlt
    have hlow : r ≤ (r / 10 ^ s + 1) * 10 ^ s := by
      rw [Nat.succ_mul]
      omega
    refine Or.inr ⟨hstep, Nat.le_antisymm ?_ ?_⟩
    · exact (nearest_mono hstep).trans hl.le
    · exact hr.symm.le.trans (nearest_mono hlow)
  · have hstep : c * 10 ^ s ≤ r / 10 ^ s * 10 ^ s := Nat.mul_le_mul_right _ hge
    refine Or.inl ⟨hstep, Nat.le_antisymm ?_ ?_⟩
    · exact (nearest_mono (by omega)).trans hr.le
    · exact hl.symm.le.trans (nearest_mono hstep)

theorem Rounds.onGrid_eq_none (h : Rounds i r) (hr : nearest r = r) (hgrid : i.onGrid s = none)
    {l : Nat} (hl : nearest l = r) : ¬10 ^ s ∣ l := by
  intro hdvd
  have hneighbour := neighbour_of_dvd hr hl hdvd
  rw [h.onGrid_eq] at hgrid
  split at hgrid
  · cases hgrid
  · rename_i hlower
    split at hgrid
    · cases hgrid
    · rename_i hupper
      rcases hneighbour with ⟨-, hbelow⟩ | ⟨-, habove⟩
      · exact hlower ⟨hbelow, fun hboth => hupper hboth.1⟩
      · exact hupper habove

theorem Rounds.onGrid_eq_some (h : Rounds i r) (hr : nearest r = r) {q : Nat}
    (hgrid : i.onGrid s = some q) :
    nearest (q * 10 ^ s) = r ∧
      ∀ l, nearest l = r → 10 ^ s ∣ l → Closer r (q * 10 ^ s) l := by
  have hpos : 0 < 10 ^ s := Nat.pos_of_neZero _
  have hsum : r / 10 ^ s * 10 ^ s + r % 10 ^ s = r := Nat.div_add_mod' r _
  have hrest : r % 10 ^ s < 10 ^ s := Nat.mod_lt r hpos
  have hnext : (r / 10 ^ s + 1) * 10 ^ s = r / 10 ^ s * 10 ^ s + 10 ^ s := Nat.succ_mul _ _
  rw [h.onGrid_eq] at hgrid
  split at hgrid
  · rename_i hlower
    obtain rfl := Option.some.inj hgrid
    refine ⟨hlower.1, fun l hl hdvd => ?_⟩
    unfold Closer Nat.dist
    rcases neighbour_of_dvd hr hl hdvd with ⟨hle, -⟩ | ⟨hge, hupper⟩
    · omega
    · have hnear : ¬10 ^ s ≤ 2 * (r % 10 ^ s) := fun hfar => hlower.2 ⟨hupper, hfar⟩
      omega
  · rename_i hlower
    split at hgrid
    · rename_i hupper
      obtain rfl := Option.some.inj hgrid
      refine ⟨hupper, fun l hl hdvd => ?_⟩
      unfold Closer Nat.dist
      rcases neighbour_of_dvd hr hl hdvd with ⟨hle, hbelow⟩ | ⟨hge, -⟩
      · have hfar : 10 ^ s ≤ 2 * (r % 10 ^ s) := by
          by_contra hnear
          exact hlower ⟨hbelow, fun hboth => hnear hboth.2⟩
        omega
      · omega
    · cases hgrid

/-! ## The search -/

/-- What a search is to find: a multiple of the coarsest step that any number that rounds to `r`
is on, and of these the closest to `r`. -/
structure Found (r q s : Nat) : Prop where
  rounds : nearest (q * 10 ^ s) = r
  coarsest : ∀ l j, nearest l = r → 10 ^ j ∣ l → j ≤ s
  closest : ∀ l, nearest l = r → 10 ^ s ∣ l → Closer r (q * 10 ^ s) l

theorem Found.shortest {n q : Nat} (h : Found (nearest n) q s) : Shortest n (q * 10 ^ s) where
  rounds := h.rounds
  zeros l j hl hj := (Nat.pow_dvd_pow 10 (h.coarsest l j hl hj)).trans (Nat.dvd_mul_left _ q)
  closest l hl hdvd := h.closest l hl (hdvd s (Nat.dvd_mul_left _ q))

theorem Rounds.found (h : Rounds i r) (hr : nearest r = r) {q : Nat} (hgrid : i.onGrid s = some q)
    (habove : ∀ l j, nearest l = r → 10 ^ j ∣ l → j ≤ s) : Found r q s := by
  obtain ⟨hrounds, hclosest⟩ := h.onGrid_eq_some hr hgrid
  exact ⟨hrounds, habove, hclosest⟩

/-- With no step left the search answers with `r` itself, which is right at step one. -/
theorem Rounds.search_zero (h : Rounds i r) : i.search 0 0 = (r, 0) := by
  simp [RoundingInterval.search, h.middle, Nat.mul_div_cancel r h.unit_pos]

theorem found_self (hr : nearest r = r) (habove : ∀ l j, nearest l = r → 10 ^ j ∣ l → j ≤ 0) :
    Found r r 0 := by
  refine ⟨by rw [Nat.pow_zero, Nat.mul_one, hr], habove, fun l _ _ => ?_⟩
  unfold Closer
  rw [Nat.pow_zero, Nat.mul_one, Nat.dist_self]
  rcases Nat.eq_zero_or_pos (l.dist r) with hzero | hpos
  · exact Or.inr ⟨hzero.symm, (Nat.eq_of_dist_eq_zero hzero).le⟩
  · exact Or.inl hpos

/-- By induction on the step: a grid without a hit rules its step out, and the next one is tried.
The grid of step one has a hit, `r`. -/
theorem Rounds.search_found (h : Rounds i r) (hr : nearest r = r) {tries : Nat} (hle : s ≤ tries)
    (habove : ∀ l j, nearest l = r → 10 ^ j ∣ l → j ≤ s) :
    ∃ q p : Nat, i.search tries s = (q, (p : Int)) ∧ Found r q p := by
  induction s generalizing tries with
  | zero =>
      cases tries with
      | zero => exact ⟨r, 0, h.search_zero, found_self hr habove⟩
      | succ tries =>
          rw [RoundingInterval.search]
          cases hgrid : i.onGrid ((0 : Nat) : Int) with
          | some q => exact ⟨q, 0, rfl, h.found hr hgrid habove⟩
          | none => exact absurd (Nat.one_dvd r) (h.onGrid_eq_none hr hgrid hr)
  | succ s ih =>
      obtain ⟨tries, rfl⟩ := Nat.exists_eq_add_of_lt (Nat.lt_of_lt_of_le s.succ_pos hle)
      rw [RoundingInterval.search]
      cases hgrid : i.onGrid ((s + 1 : Nat) : Int) with
      | some q => exact ⟨q, s + 1, rfl, h.found hr hgrid habove⟩
      | none =>
          have hstep : ((s + 1 : Nat) : Int) - 1 = s := by omega
          simp only [hstep]
          refine ih (by omega) fun l j hl hj => ?_
          refine Nat.le_of_lt_succ ((habove l j hl hj).lt_of_ne ?_)
          rintro rfl
          exact h.onGrid_eq_none hr hgrid hl hj

theorem lt_pow_length_toDigits (n : Nat) : n < 10 ^ (Nat.toDigits 10 n).length :=
  (Nat.length_toDigits_le_iff (by decide) Nat.length_toDigits_pos).mp (Nat.le_refl _)

theorem pow_length_toDigits_le {n : Nat} (hn : 0 < n) :
    10 ^ ((Nat.toDigits 10 n).length - 1) ≤ n := by
  rcases Nat.eq_zero_or_pos ((Nat.toDigits 10 n).length - 1) with hzero | hpos
  · rw [hzero]
    exact hn
  · refine Nat.le_of_not_lt fun hsmall => ?_
    have hshort := (Nat.length_toDigits_le_iff (by decide) hpos).mpr hsmall
    omega

/-- The lengths of both numbers find the place up to one. -/
theorem topPlace_spec {unit : Nat} (hr : r ≠ 0) (hunit : 0 < unit) (hlt : r < 10 ^ 19) :
    ∃ p : Nat, topPlace (r * unit) unit = p ∧ p ≤ 20 ∧ r < 10 ^ p := by
  have hnum := lt_pow_length_toDigits (r * unit)
  have hden := lt_pow_length_toDigits unit
  have hden' := pow_length_toDigits_le hunit
  have hlow : (Nat.toDigits 10 unit).length ≤ (Nat.toDigits 10 (r * unit)).length := by
    refine (Nat.length_toDigits_le_iff (by decide) Nat.length_toDigits_pos).mpr ?_
    exact (Nat.le_mul_of_pos_left unit (Nat.pos_of_ne_zero hr)).trans_lt hnum
  have hhigh : (Nat.toDigits 10 (r * unit)).length ≤ 19 + (Nat.toDigits 10 unit).length := by
    refine (Nat.length_toDigits_le_iff (by decide) (by omega)).mpr ?_
    rw [Nat.pow_add]
    exact Nat.mul_lt_mul'' hlt hden
  have hpos : 0 < (Nat.toDigits 10 unit).length := Nat.length_toDigits_pos
  rw [topPlace]
  generalize (Nat.toDigits 10 (r * unit)).length = a at *
  generalize (Nat.toDigits 10 unit).length = b at *
  refine ⟨a + 1 - b, by omega, by omega, ?_⟩
  refine Nat.lt_of_mul_lt_mul_right (a := 10 ^ (b - 1)) ?_
  rw [← Nat.pow_add, (by omega : a + 1 - b + (b - 1) = a)]
  exact (Nat.mul_le_mul_left r hden').trans_lt hnum

theorem lt_two_mul_nearest {l : Nat} (h : l ≠ 0) : l < 2 * nearest l := by
  have hlow := (nearest_bounds h).1
  have hhigh : l < 2 ^ (l.log2 + 1) := Nat.lt_log2_self
  rw [Nat.pow_succ] at hhigh
  omega

theorem step_le_of_lt {p : Nat} (hr : r ≠ 0) (hlt : r < 10 ^ p) {l j : Nat} (hl : nearest l = r)
    (hdvd : 10 ^ j ∣ l) : j ≤ p := by
  have hl0 : l ≠ 0 := by
    rintro rfl
    exact hr hl.symm
  have hdouble := lt_two_mul_nearest hl0
  have hle : 10 ^ j ≤ l := Nat.le_of_dvd (Nat.pos_of_ne_zero hl0) hdvd
  have hpow : 10 ^ j < 10 ^ (p + 1) := by
    rw [Nat.pow_succ]
    omega
  exact Nat.le_of_lt_succ ((Nat.pow_lt_pow_iff_right (by decide)).mp hpow)

theorem Mantissa.shortest_found {t m : Nat} (h : Mantissa r t m) (hr : r ≠ 0) (hlt : r < 10 ^ 19) :
    ∃ q p : Nat, shortest m (t - 52) = (q, (p : Int)) ∧ Found r q p := by
  have hrounds := rounds_ofBinary h
  obtain ⟨p, htop, hle, htopLt⟩ := topPlace_spec hr hrounds.unit_pos hlt
  rw [shortest, hrounds.middle, htop]
  exact hrounds.search_found h.nearest_eq hle fun l j => step_le_of_lt hr htopLt

end

/-! ## Texts -/

theorem toDigits_inj {k l : Nat} (h : Nat.toDigits 10 k = Nat.toDigits 10 l) : k = l := by
  rw [← Nat.ofDigitChars_ten_toDigits (n := k), h, Nat.ofDigitChars_ten_toDigits]

theorem cons_minus_ne_toDigits (s : List Char) (k : Nat) : '-' :: s ≠ Nat.toDigits 10 k := by
  intro h
  have hmem : '-' ∈ Nat.toDigits 10 k := h ▸ List.mem_cons_self
  exact absurd (Nat.isDigit_of_mem_toDigits (by decide) (by decide) hmem) (by decide)

theorem wholeText_inj {i j : Int} (h : Value.wholeText i = Value.wholeText j) : i = j := by
  have hlist := String.ofList_injective h
  by_cases hi : i < 0 <;> by_cases hj : j < 0 <;>
    simp only [hi, hj, if_true, if_false, List.nil_append, List.cons_append] at hlist
  · have habs := toDigits_inj (List.cons.inj hlist).2
    omega
  · exact absurd hlist (cons_minus_ne_toDigits _ _)
  · exact absurd hlist.symm (cons_minus_ne_toDigits _ _)
  · have habs := toDigits_inj hlist
    omega

theorem display_of_magnitude {x : Binary64} {m : Nat} {e : Int} {q p : Nat} (hm : m ≠ 0)
    (hx : x.magnitude = .finite m e) (hshortest : shortest m e = (q, (p : Int))) :
    x.display = String.ofList (x.signText ++ Nat.toDigits 10 (q * 10 ^ p)) := by
  obtain ⟨m, rfl⟩ := Nat.exists_eq_succ_of_ne_zero hm
  have hdigits : positional q (p : Int) = Nat.toDigits 10 (q * 10 ^ p) := by
    simp [positional]
  simp only [display, hx, hshortest, hdigits]

theorem wholeText_withSign {i : Int} {k : Nat} (hk : k ≠ 0) :
    Value.wholeText (withSign i k) =
      String.ofList ((if i < 0 then ['-'] else []) ++ Nat.toDigits 10 k) := by
  have hneg : withSign i k < 0 ↔ i < 0 := by
    unfold withSign
    split <;> omega
  have habs : (withSign i k).natAbs = k := by
    unfold withSign
    split <;> omega
  simp only [Value.wholeText, hneg, habs]

theorem log2_lt_of_le {n : Nat} (h : n ≤ 2 ^ 63) : n.log2 < 1023 := by
  have hlog := log2_mono h
  rw [Nat.log2_two_pow] at hlog
  omega

/-- The double nearest to an integer is shown as an integer with the same sign. -/
theorem display_ofInt {i : Int} (hi : i.natAbs ≤ 2 ^ 63) :
    ∃ k, Shortest i.natAbs k ∧ (ofInt i).display = Value.wholeText (withSign i k) := by
  have hlog := log2_lt_of_le hi
  rcases eq_or_ne i 0 with rfl | hne
  · exact ⟨0, shortest_of_lt (by decide), by decide +kernel⟩
  · have hne' : i.natAbs ≠ 0 := Int.natAbs_ne_zero.mpr hne
    have hround : nearest i.natAbs < 10 ^ 19 :=
      (nearest_mono hi).trans_lt (by decide +kernel)
    obtain ⟨t, m, hm, hbits⟩ := exists_mantissa hne'
    have hmagnitude : (ofInt i).magnitude = .finite m (t - 52) := by
      refine magnitude_of_absBits hm ((absBits_ofInt hlog).trans hbits) ?_
      have hfinite := natBits_lt hlog
      have hlow := hm.low
      rw [hbits] at hfinite
      unfold exponentWeight at *
      omega
    obtain ⟨q, p, hshortest, hfound⟩ := hm.shortest_found (nearest_pos hne').ne' hround
    have hm0 : m ≠ 0 := (Nat.lt_of_lt_of_le (by decide) hm.low).ne'
    refine ⟨q * 10 ^ p, hfound.shortest, ?_⟩
    rw [display_of_magnitude hm0 hmagnitude hshortest,
      wholeText_withSign (hfound.shortest.ne_zero hne'), signText, isNegative_ofInt hlog]
    simp only [decide_eq_true_eq]

end Binary64

end ColumnTypes
