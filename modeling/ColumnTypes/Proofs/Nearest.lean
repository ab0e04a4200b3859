import ColumnTypes.Value.Order
import Mathlib.Data.Nat.Log
import Mathlib.Tactic.Ring

namespace ColumnTypes

/-!
# The double nearest to an integer

A double has fifty-three significant bits, so an integer is read as the nearest
number of that kind, and a tie goes to the even neighbour. Two integers that are
read as doubles keep their order, unless both are read as the same one.
-/

/-! ## Rounding -/

theorem roundHalfEven_mul_right (num den : Nat) {c : Nat} (hc : 0 < c) :
    roundHalfEven (num * c) (den * c) = roundHalfEven num den := by
  have hquotient : num * c / (den * c) = num / den := Nat.mul_div_mul_right num den hc
  have htwice : 2 * (num * c % (den * c)) = 2 * (num % den) * c := by
    rw [Nat.mul_mod_mul_right, Nat.mul_assoc]
  simp only [roundHalfEven, hquotient, htwice, Nat.mul_lt_mul_right hc]

theorem roundHalfEven_mono {num num' : Nat} (h : num ≤ num') (den : Nat) :
    roundHalfEven num den ≤ roundHalfEven num' den := by
  rcases (Nat.div_le_div_right h : num / den ≤ num' / den).lt_or_eq with hlt | heq
  · exact (roundHalfEven_le_succ num den).trans
      (Nat.le_trans hlt (div_le_roundHalfEven num' den))
  · have hnum := Nat.div_add_mod num den
    have hnum' := Nat.div_add_mod num' den
    rw [← heq] at hnum'
    have hrest : num % den ≤ num' % den := by omega
    simp only [roundHalfEven, ← heq]
    (repeat' split) <;> omega

/-- The quotient is within a half of its rounding; the two ends round to the even number. -/
theorem roundHalfEven_eq_iff {num den q : Nat} (hden : 0 < den) :
    roundHalfEven num den = q ↔
      if q % 2 = 0 then 2 * (q * den) ≤ 2 * num + den ∧ 2 * num ≤ 2 * (q * den) + den
      else 2 * (q * den) < 2 * num + den ∧ 2 * num < 2 * (q * den) + den := by
  have hsum : num / den * den + num % den = num := Nat.div_add_mod' num den
  have hrest : num % den < den := Nat.mod_lt num hden
  simp only [roundHalfEven]
  generalize num / den = quotient at hsum ⊢
  generalize num % den = rest at hsum hrest ⊢
  have hnext : (quotient + 1) * den = quotient * den + den := Nat.succ_mul quotient den
  by_cases hq : q = quotient ∨ q = quotient + 1
  · rcases hq with rfl | rfl
    · (repeat' split) <;> omega
    · rw [hnext]
      (repeat' split) <;> omega
  · have hfar : q * den + den ≤ quotient * den ∨ (quotient + 1) * den + den ≤ q * den := by
      rw [← Nat.succ_mul, ← Nat.succ_mul]
      rcases Nat.lt_or_gt_of_ne (not_or.mp hq).1 with hlt | hgt
      · exact Or.inl (Nat.mul_le_mul_right den hlt)
      · exact Or.inr (Nat.mul_le_mul_right den (by omega))
    (repeat' split) <;> omega

namespace Binary64

/-! ## Fifty-three significant bits -/

/-- The distance of the doubles between the same two powers of two as `n`, at least one. -/
def gap (n : Nat) : Nat := 2 ^ (n.log2 - 52)

def nearest (n : Nat) : Nat := roundHalfEven n (gap n) * gap n

theorem gap_pos (n : Nat) : 0 < gap n := Nat.two_pow_pos _

theorem gap_of_lt {n : Nat} (h : n < 2 ^ 53) : gap n = 1 := by
  rcases Nat.eq_zero_or_pos n with rfl | hpos
  · rfl
  · have hlog : n.log2 < 53 := (Nat.log2_lt hpos.ne').mpr h
    have hzero : n.log2 - 52 = 0 := by omega
    rw [gap, hzero, Nat.pow_zero]

theorem two_pow_eq_mul_gap {n : Nat} (h : 2 ^ 53 ≤ n) (k : Nat) :
    2 ^ (n.log2 + k) = 2 ^ (52 + k) * gap n := by
  have hlog : 53 ≤ n.log2 := (Nat.le_log2 (by omega)).mpr h
  rw [gap, ← Nat.pow_add]
  congr 1
  omega

theorem nearest_of_lt {n : Nat} (h : n < 2 ^ 53) : nearest n = n := by
  rw [nearest, gap_of_lt h, Nat.mul_one]
  simpa using roundHalfEven_mul n Nat.one_pos

theorem mul_gap_le_nearest {n k : Nat} (h : k * gap n ≤ n) : k * gap n ≤ nearest n := by
  refine Nat.mul_le_mul_right _ ?_
  calc
    k = roundHalfEven (k * gap n) (gap n) := (roundHalfEven_mul k (gap_pos n)).symm
    _ ≤ roundHalfEven n (gap n) := roundHalfEven_mono h _

theorem nearest_le_mul_gap {n k : Nat} (h : n ≤ k * gap n) : nearest n ≤ k * gap n := by
  refine Nat.mul_le_mul_right _ ?_
  calc
    roundHalfEven n (gap n) ≤ roundHalfEven (k * gap n) (gap n) := roundHalfEven_mono h _
    _ = k := roundHalfEven_mul k (gap_pos n)

/-- Rounding stays between the powers of two around `n`. -/
theorem nearest_bounds {n : Nat} (h : n ≠ 0) :
    2 ^ n.log2 ≤ nearest n ∧ nearest n ≤ 2 ^ (n.log2 + 1) := by
  have hlow : 2 ^ n.log2 ≤ n := Nat.log2_self_le h
  have hhigh : n ≤ 2 ^ (n.log2 + 1) := Nat.lt_log2_self.le
  rcases Nat.lt_or_ge n (2 ^ 53) with hsmall | hlarge
  · rw [nearest_of_lt hsmall]
    exact ⟨hlow, hhigh⟩
  · have hbelow := two_pow_eq_mul_gap hlarge 0
    have habove := two_pow_eq_mul_gap hlarge 1
    rw [Nat.add_zero] at hbelow
    rw [hbelow] at hlow ⊢
    rw [habove] at hhigh ⊢
    exact ⟨mul_gap_le_nearest hlow, nearest_le_mul_gap hhigh⟩

theorem nearest_pos {n : Nat} (h : n ≠ 0) : 0 < nearest n :=
  Nat.lt_of_lt_of_le (Nat.two_pow_pos _) (nearest_bounds h).1

theorem log2_mono {a b : Nat} (h : a ≤ b) : a.log2 ≤ b.log2 := by
  rw [Nat.log2_eq_log_two, Nat.log2_eq_log_two]
  exact Nat.log_mono_right h

theorem nearest_mono {a b : Nat} (h : a ≤ b) : nearest a ≤ nearest b := by
  rcases Nat.eq_zero_or_pos a with rfl | hpos
  · exact Nat.zero_le _
  · rcases (log2_mono h).lt_or_eq with hlt | heq
    · calc
        nearest a ≤ 2 ^ (a.log2 + 1) := (nearest_bounds hpos.ne').2
        _ ≤ 2 ^ b.log2 := Nat.pow_le_pow_right Nat.two_pos hlt
        _ ≤ nearest b := (nearest_bounds (hpos.trans_le h).ne').1
    · have hgap : gap a = gap b := by rw [gap, heq, gap]
      rw [nearest, nearest, hgap]
      exact Nat.mul_le_mul_right _ (roundHalfEven_mono h _)

/-- Below `2 ^ 53` nothing is rounded, and nothing above is rounded to there. -/
theorem nearest_eq_iff_of_lt {n r : Nat} (h : r < 2 ^ 53) : nearest n = r ↔ n = r := by
  constructor
  · intro heq
    rcases Nat.lt_or_ge n (2 ^ 53) with hsmall | hlarge
    · rw [← heq, nearest_of_lt hsmall]
    · have hle : 2 ^ 53 ≤ nearest n := nearest_mono hlarge
      omega
  · rintro rfl
    exact nearest_of_lt h

theorem nearest_of_le {n : Nat} (h : n ≤ 2 ^ 53) : nearest n = n := by
  rcases h.lt_or_eq with hlt | rfl
  · exact nearest_of_lt hlt
  · decide +kernel

/-! ## The bits of an integer -/

/-- The mantissa that `n` is rounded to, with `2 ^ 53` not yet carried. -/
def significand (n : Nat) : Nat := roundHalfEven (n * exponentWeight) (Nat.pow 2 n.log2)

theorem natBits_eq {n : Nat} (h : n ≠ 0) :
    natBits n = (n.log2 + 1022) * exponentWeight + significand n := by
  simp [natBits, h, significand]

theorem nearest_mul_weight (n : Nat) :
    nearest n * exponentWeight = significand n * 2 ^ n.log2 := by
  rcases Nat.lt_or_ge n (2 ^ 53) with hsmall | hlarge
  · rcases Nat.eq_zero_or_pos n with rfl | hpos
    · rfl
    · have hlog : n.log2 < 53 := (Nat.log2_lt hpos.ne').mpr hsmall
      have hweight : exponentWeight = 2 ^ (52 - n.log2) * 2 ^ n.log2 := by
        rw [← Nat.pow_add, Nat.sub_add_cancel (Nat.le_of_lt_succ hlog)]
        rfl
      have hround : significand n = n * 2 ^ (52 - n.log2) := by
        rw [significand, hweight, ← Nat.mul_assoc]
        exact roundHalfEven_mul _ (Nat.two_pow_pos _)
      rw [nearest_of_lt hsmall, hround, Nat.mul_assoc, ← hweight]
  · have hpow : 2 ^ n.log2 = gap n * exponentWeight := by
      rw [Nat.mul_comm]
      exact two_pow_eq_mul_gap hlarge 0
    have hround : significand n = roundHalfEven n (gap n) := by
      rw [significand, Nat.pow_eq, hpow]
      exact roundHalfEven_mul_right n (gap n) (by decide)
    rw [nearest, hround, hpow, Nat.mul_assoc]

theorem significand_bounds {n : Nat} (h : n ≠ 0) :
    exponentWeight ≤ significand n ∧ significand n ≤ 2 * exponentWeight := by
  obtain ⟨hlow, hhigh⟩ := nearest_bounds h
  have hpos : 0 < 2 ^ n.log2 := Nat.two_pow_pos _
  constructor
  · refine Nat.le_of_mul_le_mul_right ?_ hpos
    rw [← nearest_mul_weight, Nat.mul_comm]
    exact Nat.mul_le_mul_right _ hlow
  · refine Nat.le_of_mul_le_mul_right ?_ hpos
    rw [← nearest_mul_weight]
    calc
      nearest n * exponentWeight ≤ 2 ^ (n.log2 + 1) * exponentWeight :=
        Nat.mul_le_mul_right _ hhigh
      _ = 2 * exponentWeight * 2 ^ n.log2 := by ring

theorem nearest_lt_iff (a b : Nat) :
    nearest a < nearest b ↔ significand a * 2 ^ a.log2 < significand b * 2 ^ b.log2 := by
  have hweight : 0 < exponentWeight := by decide
  rw [← nearest_mul_weight, ← nearest_mul_weight, Nat.mul_lt_mul_right hweight]

/-- A mantissa that is carried has the bits of the next power of two. -/
theorem natBits_lt_iff_of_log2_lt {a b : Nat} (ha : a ≠ 0) (hb : b ≠ 0)
    (hlog : a.log2 < b.log2) :
    natBits a ≤ natBits b ∧ (natBits a < natBits b ↔ nearest a < nearest b) := by
  obtain ⟨d, hd⟩ := Nat.exists_eq_add_of_lt hlog
  have hnearest : nearest a < nearest b ↔ significand a < significand b * 2 ^ (d + 1) := by
    rw [nearest_lt_iff, hd, Nat.add_assoc, Nat.add_comm a.log2, Nat.pow_add, ← Nat.mul_assoc,
      Nat.mul_lt_mul_right (Nat.two_pow_pos a.log2)]
  obtain ⟨hlowA, hhighA⟩ := significand_bounds ha
  obtain ⟨hlowB, hhighB⟩ := significand_bounds hb
  rw [hnearest, natBits_eq ha, natBits_eq hb, hd]
  unfold exponentWeight at *
  cases d with
  | zero =>
      constructor
      · omega
      · constructor <;> intro h <;> omega
  | succ d =>
      -- Two powers of two apart a carry does not reach.
      have hfar : significand b * 4 ≤ significand b * 2 ^ (d + 1 + 1) :=
        Nat.mul_le_mul_left _ (Nat.pow_le_pow_right Nat.two_pos (by omega : 2 ≤ d + 1 + 1))
      constructor
      · omega
      · constructor <;> intro h <;> omega

theorem natBits_lt_iff_of_le {a b : Nat} (h : a ≤ b) :
    natBits a ≤ natBits b ∧ (natBits a < natBits b ↔ nearest a < nearest b) := by
  rcases Nat.eq_zero_or_pos a with rfl | ha
  · rcases Nat.eq_zero_or_pos b with rfl | hb
    · exact ⟨Nat.le_refl _, by simp⟩
    · have hbits : 0 < natBits b := by
        have hlow := (significand_bounds hb.ne').1
        rw [natBits_eq hb.ne']
        unfold exponentWeight at *
        omega
      exact ⟨Nat.zero_le _, iff_of_true hbits (nearest_pos hb.ne')⟩
  · have hb : b ≠ 0 := (ha.trans_le h).ne'
    rcases (log2_mono h).lt_or_eq with hlt | heq
    · exact natBits_lt_iff_of_log2_lt ha.ne' hb hlt
    · have hround : significand a ≤ significand b := by
        rw [significand, heq, significand]
        exact roundHalfEven_mono (Nat.mul_le_mul_right _ h) _
      rw [nearest_lt_iff, natBits_eq ha.ne', natBits_eq hb, heq,
        Nat.mul_lt_mul_right (Nat.two_pow_pos _)]
      exact ⟨Nat.add_le_add_left hround _, Nat.add_lt_add_iff_left⟩

/-- Bits order integers as their rounded values do. -/
theorem natBits_lt_iff (a b : Nat) : natBits a < natBits b ↔ nearest a < nearest b := by
  rcases Nat.le_total a b with hab | hba
  · exact (natBits_lt_iff_of_le hab).2
  · exact iff_of_false (Nat.not_lt_of_le (natBits_lt_iff_of_le hba).1)
      (Nat.not_lt_of_le (nearest_mono hba))

/-! ## Signs -/

/-- `k` or its negative, whichever has the sign of `i`. -/
def withSign (i : Int) (k : Nat) : Int := if i < 0 then -k else k

theorem withSign_natAbs (i : Int) : withSign i i.natAbs = i := by
  unfold withSign
  split <;> omega

theorem withSign_inj {i : Int} {k l : Nat} : withSign i k = withSign i l ↔ k = l := by
  unfold withSign
  split <;> omega

def nearestInt (i : Int) : Int := withSign i (nearest i.natAbs)

theorem nearestInt_of_le {i : Int} (h : i.natAbs ≤ 2 ^ 53) : nearestInt i = i := by
  rw [nearestInt, nearest_of_le h, withSign_natAbs]

theorem nearestInt_mono {i j : Int} (h : i ≤ j) : nearestInt i ≤ nearestInt j := by
  unfold nearestInt withSign
  split
  · split
    · have hle : nearest j.natAbs ≤ nearest i.natAbs := nearest_mono (by omega)
      omega
    · omega
  · have hle : nearest i.natAbs ≤ nearest j.natAbs := nearest_mono (by omega)
    split <;> omega

/-- Nothing is rounded up to the infinities here, nor are the sign bits reached. -/
theorem natBits_lt {n : Nat} (h : n.log2 < 1023) : natBits n < 2047 * exponentWeight := by
  rcases Nat.eq_zero_or_pos n with rfl | hpos
  · decide
  · have hhigh := (significand_bounds hpos.ne').2
    rw [natBits_eq hpos.ne']
    unfold exponentWeight at *
    omega

section

variable {i j : Int}

theorem toNat_bits_ofInt (hi : i.natAbs.log2 < 1023) :
    (ofInt i).bits.toNat = (if i < 0 then signWeight else 0) + natBits i.natAbs := by
  have hbits := natBits_lt hi
  refine Nat.mod_eq_of_lt ?_
  unfold signWeight
  unfold exponentWeight at hbits
  split <;> omega

theorem isNegative_ofInt (hi : i.natAbs.log2 < 1023) : (ofInt i).isNegative = decide (i < 0) := by
  have hbits := natBits_lt hi
  unfold isNegative
  rw [toNat_bits_ofInt hi, decide_eq_decide]
  unfold signWeight
  unfold exponentWeight at hbits
  split <;> omega

theorem absBits_ofInt (hi : i.natAbs.log2 < 1023) : (ofInt i).absBits = natBits i.natAbs := by
  have hbits := natBits_lt hi
  unfold absBits
  rw [toNat_bits_ofInt hi]
  unfold signWeight
  unfold exponentWeight at hbits
  split <;> omega

theorem position_ofInt_lt_iff (hi : i.natAbs.log2 < 1023) (hj : j.natAbs.log2 < 1023) :
    (ofInt i).position < (ofInt j).position ↔ nearestInt i < nearestInt j := by
  have hij := natBits_lt_iff i.natAbs j.natAbs
  have hji := natBits_lt_iff j.natAbs i.natAbs
  have hpos : i < 0 → 0 < nearest i.natAbs := fun h => nearest_pos (by omega)
  have hpos' : j < 0 → 0 < nearest j.natAbs := fun h => nearest_pos (by omega)
  unfold position nearestInt withSign
  rw [isNegative_ofInt hi, isNegative_ofInt hj, absBits_ofInt hi, absBits_ofInt hj]
  simp only [decide_eq_true_eq]
  split <;> split <;> omega

theorem position_ofInt_eq_iff (hi : i.natAbs.log2 < 1023) (hj : j.natAbs.log2 < 1023) :
    (ofInt i).position = (ofInt j).position ↔ nearestInt i = nearestInt j := by
  have hij := position_ofInt_lt_iff hi hj
  have hji := position_ofInt_lt_iff hj hi
  omega

theorem compareNumber_ofInt (hi : i.natAbs.log2 < 1023) (hj : j.natAbs.log2 < 1023) :
    compareNumber (ofInt i) (ofInt j) = compare (nearestInt i) (nearestInt j) := by
  change compareOfLessAndEq _ _ = compareOfLessAndEq _ _
  simp only [compareOfLessAndEq, position_ofInt_lt_iff hi hj, position_ofInt_eq_iff hi hj]

end

/-- The comparison of two integers survives the rounding unless it brings them together. -/
theorem compare_nearestInt_eq_iff (i j : Int) :
    compare (nearestInt i) (nearestInt j) = compare i j ↔
      i = j ∨ nearestInt i ≠ nearestInt j := by
  rcases Int.lt_trichotomy i j with hlt | rfl | hgt
  · rw [Int.compare_eq_lt.mpr hlt, Int.compare_eq_lt, or_iff_right hlt.ne]
    exact (nearestInt_mono hlt.le).lt_iff_ne
  · simp
  · rw [Int.compare_eq_gt.mpr hgt, Int.compare_eq_gt, or_iff_right hgt.ne']
    exact (nearestInt_mono hgt.le).lt_iff_ne.trans ne_comm

end Binary64

end ColumnTypes
