import Mathlib.Algebra.Ring.Nat
import RowSecurity.Json.Number

-- The values of binary64 numbers, and what is left of an integer that is rounded to one.
namespace RowSecurity.Binary64

variable {x y : Binary64}

def value (x : Binary64) : Int := if x.negative then -x.units else x.units

theorem units_scaled (x : Binary64) : x.units = x.mantissa * 2 ^ x.scale := rfl

theorem value_natAbs (x : Binary64) : x.value.natAbs = x.units := by
  unfold value
  split <;> omega

theorem scale_mono (less : x.units ≤ y.units) : x.scale ≤ y.scale := by
  apply Nat.le_of_not_lt
  intro deeper
  have full : 2 ^ 52 ≤ x.mantissa := x.full.resolve_left (by omega)
  have short : y.mantissa < 2 ^ 53 := y.mantissa_lt
  have wider : y.units < x.units := calc
    y.units < 2 ^ 53 * 2 ^ y.scale := Nat.mul_lt_mul_of_pos_right short (Nat.two_pow_pos _)
    _ = 2 ^ 52 * 2 ^ (y.scale + 1) := by rw [Nat.pow_succ 2 y.scale]; omega
    _ ≤ x.mantissa * 2 ^ x.scale :=
      Nat.mul_le_mul full (Nat.pow_le_pow_right (by decide) deeper)
  omega

theorem units_unique (same : x.units = y.units) : x.mantissa = y.mantissa ∧ x.scale = y.scale := by
  have scales := Nat.le_antisymm (scale_mono (Nat.le_of_eq same)) (scale_mono (Nat.le_of_eq same.symm))
  rw [units_scaled, units_scaled, scales] at same
  exact ⟨Nat.eq_of_mul_eq_mul_right (Nat.two_pow_pos _) same, scales⟩

theorem units_zero : x.units = 0 ↔ x.mantissa = 0 := by
  rw [units_scaled, Nat.mul_eq_zero, or_iff_left (Nat.ne_of_gt (Nat.two_pow_pos _))]

theorem same_value : x.same y = true ↔ x.value = y.value := by
  simp only [same, Bool.and_eq_true, Bool.or_eq_true, beq_iff_eq]
  constructor
  · rintro ⟨⟨mantissas, scales⟩, signs⟩
    have magnitudes : x.units = y.units := by rw [units_scaled, units_scaled, mantissas, scales]
    rcases signs with signs | nothing
    · simp only [value, signs, magnitudes]
    · have none := units_zero.mpr nothing
      simp only [value]
      split <;> split <;> omega
  · intro values
    have magnitudes : x.units = y.units := by rw [← value_natAbs, values, value_natAbs]
    refine ⟨units_unique magnitudes, ?_⟩
    rw [← units_zero]
    unfold value at values
    cases left : x.negative <;> cases right : y.negative <;> simp [left, right] at values ⊢ <;> omega

section Rounding

variable {negative : Bool} {magnitude : Nat}

theorem make?_some {mantissa scale : Nat} (made : make? negative mantissa scale = some x) :
    x.negative = negative ∧ x.units = mantissa * 2 ^ scale := by
  unfold make? at made
  split at made
  · cases made
    exact ⟨rfl, rfl⟩
  · cases made

theorem roundHalfEven_floor (numerator denominator : Nat) :
    numerator / denominator ≤ roundHalfEven numerator denominator := by
  simp only [roundHalfEven]
  split
  · omega
  · split <;> omega

theorem roundHalfEven_ceiling (numerator denominator : Nat) :
    roundHalfEven numerator denominator ≤ numerator / denominator + 1 := by
  simp only [roundHalfEven]
  split
  · omega
  · split <;> omega

theorem roundHalfEven_exact {denominator : Nat} (positive : 0 < denominator) (whole : Nat) :
    roundHalfEven (whole * denominator) denominator = whole := by
  simp [roundHalfEven, positive]

theorem nearest_negative (rounded : nearestUnits? negative magnitude 1 = some x) :
    x.negative = negative := by
  simp only [nearestUnits?] at rounded
  split at rounded
  · exact (make?_some rounded).1
  · exact (make?_some rounded).1

theorem rounded_full (full : 52 ≤ magnitude.log2) :
    2 ^ 52 ≤ roundHalfEven magnitude (1 * 2 ^ (magnitude.log2 - 52)) := by
  have present : magnitude ≠ 0 := by
    rintro rfl
    simp at full
  refine Nat.le_trans ?_ (roundHalfEven_floor _ _)
  rw [Nat.one_mul, Nat.le_div_iff_mul_le (Nat.two_pow_pos _), ← Nat.pow_add,
    Nat.add_sub_cancel' full]
  exact Nat.log2_self_le present

theorem rounded_short (magnitude : Nat) :
    roundHalfEven magnitude (1 * 2 ^ (magnitude.log2 - 52)) ≤ 2 ^ 53 := by
  have short : magnitude / 2 ^ (magnitude.log2 - 52) < 2 ^ 53 := by
    rw [Nat.div_lt_iff_lt_mul (Nat.two_pow_pos _), ← Nat.pow_add]
    exact Nat.lt_of_lt_of_le Nat.lt_log2_self (Nat.pow_le_pow_right (by decide) (by omega))
  have next := roundHalfEven_ceiling magnitude (1 * 2 ^ (magnitude.log2 - 52))
  rw [Nat.one_mul] at next ⊢
  omega

theorem nearest_total (negative : Bool) (bounded : magnitude.log2 ≤ 2096) :
    ∃ x, nearestUnits? negative magnitude 1 = some x := by
  have short := rounded_short magnitude
  have full : magnitude.log2 - 52 = 0 ∨
      2 ^ 52 ≤ roundHalfEven magnitude (1 * 2 ^ (magnitude.log2 - 52)) := by
    by_cases shallow : magnitude.log2 ≤ 52
    · exact .inl (by omega)
    · exact .inr (rounded_full (by omega))
  simp only [nearestUnits?, Nat.div_one, Nat.pow_eq]
  generalize roundHalfEven magnitude (1 * 2 ^ (magnitude.log2 - 52)) = mantissa at *
  split
  · refine ⟨_, dif_pos ⟨?_, ?_, .inr ?_⟩⟩
    · simp
    · omega
    · simp
  · refine ⟨_, dif_pos ⟨?_, ?_, full⟩⟩
    · simp only [Nat.pow_eq]
      omega
    · omega

theorem nearest_floor (rounded : nearestUnits? negative magnitude 1 = some x)
    (full : 52 ≤ magnitude.log2) : 2 ^ magnitude.log2 ≤ x.units := by
  have split : 2 ^ 52 * 2 ^ (magnitude.log2 - 52) = 2 ^ magnitude.log2 := by
    rw [← Nat.pow_add, Nat.add_sub_cancel' full]
  simp only [nearestUnits?, Nat.div_one, Nat.pow_eq] at rounded
  split at rounded
  · rw [(make?_some rounded).2, ← split]
    exact Nat.mul_le_mul_left _ (Nat.pow_le_pow_right (by decide) (Nat.le_succ _))
  · rw [(make?_some rounded).2, ← split]
    exact Nat.mul_le_mul_right _ (rounded_full full)

theorem nearest_exact (negative : Bool) (divides : 2 ^ (magnitude.log2 - 52) ∣ magnitude)
    (bounded : magnitude.log2 - 52 ≤ 2045) :
    ∃ x, nearestUnits? negative magnitude 1 = some x ∧ x.negative = negative ∧
      x.units = magnitude := by
  obtain ⟨whole, product⟩ := divides
  rw [Nat.mul_comm] at product
  have short : whole < 2 ^ 53 := by
    apply Nat.lt_of_mul_lt_mul_right (a := 2 ^ (magnitude.log2 - 52))
    rw [← product, ← Nat.pow_add]
    exact Nat.lt_of_lt_of_le Nat.lt_log2_self (Nat.pow_le_pow_right (by decide) (by omega))
  have full : magnitude.log2 - 52 = 0 ∨ 2 ^ 52 ≤ whole := by
    by_cases shallow : magnitude.log2 ≤ 52
    · exact .inl (by omega)
    · refine .inr (Nat.le_of_mul_le_mul_right ?_ (Nat.two_pow_pos (magnitude.log2 - 52)))
      rw [← product, ← Nat.pow_add]
      have present : magnitude ≠ 0 := by
        rintro rfl
        simp at shallow
      refine Nat.le_trans (Nat.pow_le_pow_right (by decide) ?_) (Nat.log2_self_le present)
      omega
  refine ⟨⟨negative, whole, magnitude.log2 - 52, short, bounded, full⟩, ?_, rfl, product.symm⟩
  have rounds : roundHalfEven magnitude (2 ^ (magnitude.log2 - 52)) = whole :=
    (congrArg (roundHalfEven · _) product).trans (roundHalfEven_exact (Nat.two_pow_pos _) whole)
  simp only [nearestUnits?, Nat.div_one, Nat.one_mul, Nat.pow_eq, rounds]
  rw [if_neg (Nat.ne_of_lt short), make?, dif_pos ⟨short, bounded, full⟩]

end Rounding

section Integers

variable {m n : Int}

theorem log2_scaled {whole : Nat} (present : whole ≠ 0) (scale : Nat) :
    (whole * 2 ^ scale).log2 = whole.log2 + scale := by
  have positive := Nat.two_pow_pos scale
  rw [Nat.log2_eq_iff (Nat.ne_of_gt (Nat.mul_pos (Nat.pos_of_ne_zero present) positive)),
    Nat.add_right_comm, Nat.pow_add, Nat.pow_add]
  exact ⟨Nat.mul_le_mul_right _ (Nat.log2_self_le present),
    Nat.mul_lt_mul_of_pos_right Nat.lt_log2_self positive⟩

-- The exponent has a name, so that the power itself is never computed.
theorem unitsPerOne_pow : ∃ scale, scale = 1074 ∧ unitsPerOne = 2 ^ scale := by
  refine ⟨1074, rfl, ?_⟩
  unfold unitsPerOne
  generalize 1074 = scale
  rfl

theorem unitsPerOne_pos : 0 < unitsPerOne := by
  obtain ⟨scale, _, power⟩ := unitsPerOne_pow
  rw [power]
  exact Nat.two_pow_pos scale

theorem inUnits_unique (same : m * (unitsPerOne : Int) = n * unitsPerOne) : m = n :=
  Int.eq_of_mul_eq_mul_right (Int.natCast_ne_zero.mpr (Nat.ne_of_gt unitsPerOne_pos)) same

theorem log2_units {whole : Nat} (present : whole ≠ 0) :
    (whole * unitsPerOne).log2 = whole.log2 + 1074 := by
  obtain ⟨scale, depth, power⟩ := unitsPerOne_pow
  rw [power, log2_scaled present, depth]

theorem ofInt?_floor (rounded : ofInt? n = some x) (present : n ≠ 0) :
    2 ^ n.natAbs.log2 * unitsPerOne ≤ x.units := by
  have logarithm := log2_units (Int.natAbs_ne_zero.mpr present)
  have kept := nearest_floor rounded (by omega)
  obtain ⟨scale, depth, power⟩ := unitsPerOne_pow
  rwa [logarithm, ← depth, Nat.pow_add, ← power] at kept

theorem ofInt?_sign (rounded : ofInt? n = some x) : x.value < 0 ↔ n < 0 := by
  have sign : x.negative = decide (n < 0) := nearest_negative rounded
  by_cases below : n < 0
  · have kept := ofInt?_floor rounded (by omega)
    have positive := Nat.mul_pos (Nat.two_pow_pos n.natAbs.log2) unitsPerOne_pos
    simp only [value, sign, below, decide_true, reduceIte, iff_true]
    omega
  · simp only [value, sign, below, decide_false, Bool.false_eq_true, reduceIte, iff_false]
    omega

theorem ofInt?_exact
    (divides : 2 ^ ((n.natAbs * unitsPerOne).log2 - 52) ∣ n.natAbs * unitsPerOne)
    (bounded : (n.natAbs * unitsPerOne).log2 - 52 ≤ 2045) :
    ∃ x, ofInt? n = some x ∧ x.value = n * unitsPerOne := by
  obtain ⟨x, rounded, sign, magnitude⟩ := nearest_exact (decide (n < 0)) divides bounded
  refine ⟨x, rounded, ?_⟩
  by_cases below : n < 0
  · simp only [value, sign, below, decide_true, reduceIte, magnitude, Int.natCast_mul]
    rw [← Int.neg_mul]
    congr 1
    omega
  · simp only [value, sign, below, decide_false, Bool.false_eq_true, reduceIte, magnitude,
      Int.natCast_mul]
    congr 1
    omega

theorem ofInt?_small (small : n.natAbs < 2 ^ 53) :
    ∃ x, ofInt? n = some x ∧ x.value = n * unitsPerOne := by
  have shallow : (n.natAbs * unitsPerOne).log2 - 52 ≤ 1074 := by
    by_cases zero : n.natAbs = 0
    · simp [zero]
    · have bits := (Nat.log2_lt zero).mpr small
      rw [log2_units zero]
      omega
  obtain ⟨scale, depth, power⟩ := unitsPerOne_pow
  have divides := Nat.pow_dvd_pow 2 (Nat.le_trans shallow (Nat.le_of_eq depth.symm))
  rw [← power] at divides
  exact ofInt?_exact (Nat.dvd_trans divides (Nat.dvd_mul_left unitsPerOne _)) (by omega)

theorem ofInt?_represented (same : x.value = n * unitsPerOne) :
    ∃ y, ofInt? n = some y ∧ y.value = n * unitsPerOne := by
  have magnitude : n.natAbs * unitsPerOne = x.units := by
    rw [← value_natAbs, same, Int.natAbs_mul, Int.natAbs_natCast]
  have deep : x.units.log2 - 52 ≤ x.scale := by
    by_cases zero : x.units = 0
    · simp [zero]
    · have short : x.units < 2 ^ (53 + x.scale) := by
        rw [Nat.pow_add]
        exact Nat.mul_lt_mul_of_pos_right x.mantissa_lt (Nat.two_pow_pos _)
      have bits := (Nat.log2_lt zero).mpr short
      omega
  apply ofInt?_exact
  · rw [magnitude]
    exact Nat.dvd_mul_left_of_dvd (Nat.pow_dvd_pow 2 deep) _
  · rw [magnitude]
    exact Nat.le_trans deep x.scale_le

theorem ofInt?_total (fits : n.natAbs < 2 ^ 64) : ∃ x, ofInt? n = some x := by
  apply nearest_total
  by_cases zero : n.natAbs = 0
  · simp [zero]
  · have bits := (Nat.log2_lt zero).mpr fits
    rw [log2_units zero]
    omega

theorem ofInt?_keeps_sign (rounded : ofInt? n = some x) : x.value.sign = n.sign := by
  rcases Int.lt_trichotomy n 0 with below | rfl | above
  · rw [Int.sign_eq_neg_one_of_neg below, Int.sign_eq_neg_one_of_neg]
    exact (ofInt?_sign rounded).mpr below
  · obtain ⟨_, exactly, same⟩ := ofInt?_small (n := 0) (by decide)
    cases rounded.symm.trans exactly
    rw [same, Int.zero_mul]
  · have kept := ofInt?_floor rounded (by omega)
    have positive := Nat.mul_pos (Nat.two_pow_pos n.natAbs.log2) unitsPerOne_pos
    have sign := (ofInt?_sign rounded).not.mpr (by omega)
    have magnitude := x.value_natAbs
    rw [Int.sign_eq_one_of_pos above, Int.sign_eq_one_of_pos]
    omega

def Nearest (x : Binary64) (n : Int) : Prop :=
  ∃ rounded, ofInt? n = some rounded ∧ rounded.value = x.value

theorem nearest_value (left : x.Nearest n) : y.Nearest n ↔ x.value = y.value := by
  obtain ⟨rounded, nearest, same⟩ := left
  simp [Nearest, nearest, same]

theorem nearest_represented (same : x.value = n * unitsPerOne) : x.Nearest n := by
  obtain ⟨rounded, nearest, exactly⟩ := ofInt?_represented same
  exact ⟨rounded, nearest, exactly.trans same.symm⟩

theorem nearest_small (near : x.Nearest n) (small : n.natAbs < 2 ^ 53) :
    x.value = n * unitsPerOne := by
  obtain ⟨rounded, nearest, same⟩ := near
  obtain ⟨_, exactly, kept⟩ := ofInt?_small small
  cases nearest.symm.trans exactly
  exact same.symm.trans kept

-- Only integers from 2^53 on share what they are rounded to.
theorem nearest_shared (left : x.Nearest m) (right : x.Nearest n) (different : m ≠ n) :
    2 ^ 53 ≤ m.natAbs := by
  apply Nat.le_of_not_lt
  intro small
  have exactly := nearest_small left small
  by_cases alike : n.natAbs < 2 ^ 53
  · exact different (inUnits_unique (exactly.symm.trans (nearest_small right alike)))
  · have magnitude : x.units = m.natAbs * unitsPerOne := by
      rw [← value_natAbs, exactly, Int.natAbs_mul, Int.natAbs_natCast]
    obtain ⟨rounded, nearest, same⟩ := right
    have kept := ofInt?_floor nearest (by omega)
    rw [← value_natAbs, same, value_natAbs, magnitude] at kept
    have bits := (Nat.le_log2 (by omega)).mpr (Nat.le_of_not_lt alike)
    have least := Nat.le_trans (Nat.pow_le_pow_right (by decide) bits)
      (Nat.le_of_mul_le_mul_right kept unitsPerOne_pos)
    omega

end Integers

end RowSecurity.Binary64
