import FpgaQuaternions.Half.Values

/-!
# How float_to_half rounds

Adding half a unit before the mantissa is cut off takes every value to the nearest value
of the half format and, where two are equally near, to the one away from zero
(`roundsUp_code`): in the normal branch, in the denormal branch that takes the constant
out again, and where the carry changes the branch.

    ties go to the even significand only if the lower neighbour is odd  (round_to_even_iff)
    order is kept, and the conversions are inverse               (monotone_and_inverse)
-/

namespace FpgaQuat.Half

open Minifloat

/-! ## The magnitude code -/

theorem roundsUp_of_nat {X n : Nat}
    (hb : ∀ m, m + 1 = n → (mag 10 m + mag 10 n) * 2 ^ 125 ≤ 2 * mag 23 X)
    (ha : 2 * mag 23 X < (mag 10 n + mag 10 (n + 1)) * 2 ^ 125) : RoundsUp halfMag (floatMag X) n where
  below m hm := by
    have h : (((mag 10 m + mag 10 n) * 2 ^ 125 : Nat) : ℚ) ≤ (2 * mag 23 X : Nat) := Nat.cast_le.mpr (hb m hm)
    push_cast at h
    unfold halfMag floatMag
    linarith
  above := by
    have h : ((2 * mag 23 X : Nat) : ℚ) < (((mag 10 n + mag 10 (n + 1)) * 2 ^ 125 : Nat) : ℚ) :=
      Nat.cast_lt.mpr ha
    push_cast at h
    unfold halfMag floatMag
    linarith

/-- A code that starts a block of `2 ^ 13`, as the codes of normal halves do. -/
theorem mag_block {W r : Nat} (hW : W % 2 ^ 13 = 0) (hr : r ≤ 2 ^ 13) :
    mag 23 (W + r) = mag 23 W + r * 2 ^ (W / 2 ^ 23 - 1) := mag_add 23 W r (by omega)

theorem mag_normal {n W : Nat} (hn : 2 ^ 10 ≤ n) (hW : W = 2 ^ 13 * (n + 112 * 2 ^ 10)) :
    mag 10 n * 2 ^ 125 = mag 23 W := by
  rw [← mag_wide, wide, if_pos hn, hW]

/-- A normal result: the nearest multiple of `2 ^ 13` among the codes. -/
theorem rounds_normal {X : Nat} (h : 112 < (X + 0x1000) / 2 ^ 23) :
    RoundsUp halfMag (floatMag X) ((X + 0x1000) / 2 ^ 13 - 112 * 2 ^ 10) := by
  obtain ⟨n, hn⟩ : ∃ n, (X + 0x1000) / 2 ^ 13 - 112 * 2 ^ 10 = n := ⟨_, rfl⟩
  have hn1 : 2 ^ 10 ≤ n := by omega
  obtain ⟨W, hW⟩ : ∃ W, W = 2 ^ 13 * (n + 112 * 2 ^ 10) := ⟨_, rfl⟩
  have hWX : W ≤ X + 2 ^ 12 ∧ X < W + 2 ^ 12 := by omega
  have hW0 : W % 2 ^ 13 = 0 := by omega
  have hmono := mag_strictMono 23
  have en := mag_normal hn1 hW
  rw [hn]
  apply roundsUp_of_nat
  · intro m hm
    rw [Nat.add_mul, en]
    by_cases hm1 : 2 ^ 10 ≤ m
    · -- the block below
      obtain ⟨V, hV⟩ : ∃ V, W = V + 2 ^ 13 := ⟨W - 2 ^ 13, by omega⟩
      have hV0 : V % 2 ^ 13 = 0 := by omega
      have hX := hmono.monotone (show V + 2 ^ 12 ≤ X by omega)
      rw [mag_normal hm1 (W := V) (by omega), hV, mag_block hV0 le_rfl]
      rw [mag_block hV0 (by decide)] at hX
      omega
    · -- the last denormal lies below
      obtain ⟨rfl, rfl⟩ : m = 1023 ∧ W = 113 * 2 ^ 23 := by
        clear en
        omega
      have hX : mag 23 (113 * 2 ^ 23 - 2 ^ 12) ≤ mag 23 X := hmono.monotone (by clear en; omega)
      have e1 : mag 23 (113 * 2 ^ 23) = 2 ^ 135 := by norm_num [mag]
      have e2 : mag 23 (113 * 2 ^ 23 - 2 ^ 12) = 2 ^ 135 - 2 ^ 123 := by norm_num [mag]
      have e3 : mag 10 1023 = 1023 := by norm_num [mag]
      rw [e1, e3]
      rw [e2] at hX
      omega
  · have hX := hmono hWX.2
    rw [mag_block hW0 (by decide)] at hX
    rw [Nat.add_mul, en, mag_normal (n := n + 1) (W := W + 2 ^ 13) (by omega) (by omega),
      mag_block hW0 le_rfl]
    omega

theorem mag_denormal {k : Nat} (h : k < 2 ^ 11) : mag 10 k = k := by
  by_cases hk : k < 2 ^ 10
  · exact mag_of_lt hk
  · have hd : k / 2 ^ 10 - 1 = 0 := by omega
    rw [mag_of_le (Nat.le_of_not_lt hk), hd, Nat.pow_zero]
    omega

/-- Shifting by one place less and rounding the last bit is rounding to nearest, halves going up.
`d` is what a carry into the next binade leaves out. -/
theorem shift_round {t d P : Nat} (hP : 0 < P) (hd : d = 0 ∨ ∃ c, P * c = t + d ∧ 0 < d ∧ d ≤ P) :
    let n := (t / P + 1) / 2
    (∀ m, m + 1 = n → (m + n) * (2 * P) ≤ 2 * t + d) ∧ 2 * t + d < (n + (n + 1)) * (2 * P) := by
  intro n
  have hq : P * (t / P) ≤ t := Nat.mul_div_le t P
  have hq' : t < P * (t / P + 1) := Nat.lt_mul_div_succ t hP
  constructor
  · intro m hm
    have hmn : m + n ≤ t / P := by omega
    calc (m + n) * (2 * P) ≤ t / P * (2 * P) := Nat.mul_le_mul_right _ hmn
      _ = 2 * (P * (t / P)) := by ring
      _ ≤ 2 * t + d := by omega
  · have hn : t / P + 1 ≤ n + (n + 1) := by omega
    calc 2 * t + d < 2 * (P * (t / P + 1)) := by
          rcases hd with rfl | ⟨c, hc, hd0, hdP⟩
          · omega
          · -- the carry stops at the end of a block
            have hle : P * c ≤ P * (t / P + 1) := by
              refine Nat.mul_le_mul_left P (Nat.le_of_lt_succ ?_)
              refine Nat.lt_of_mul_lt_mul_left (a := P) ?_
              rw [hc, Nat.mul_succ]
              omega
            omega
      _ = (t / P + 1) * (2 * P) := by ring
      _ ≤ (n + (n + 1)) * (2 * P) := Nat.mul_le_mul_right _ hn

/-- A denormal result: the magnitude counted in units of `2 ^ 125`, rounded. -/
theorem rounds_denormal {X : Nat} (h1 : 101 < (X + 0x1000) / 2 ^ 23) (h2 : (X + 0x1000) / 2 ^ 23 < 113) :
    RoundsUp halfMag (floatMag X)
      (((0x7FF000 + (X + 0x1000) % 2 ^ 23) / 2 ^ (125 - (X + 0x1000) / 2 ^ 23) + 1) / 2) := by
  obtain ⟨e, he⟩ : ∃ e, (X + 0x1000) / 2 ^ 23 = e + 2 := ⟨(X + 0x1000) / 2 ^ 23 - 2, by omega⟩
  obtain ⟨t, ht⟩ : ∃ t, 0x7FF000 + (X + 0x1000) % 2 ^ 23 = t := ⟨_, rfl⟩
  obtain ⟨j, hj⟩ : ∃ j, 125 - (e + 2) = j + 13 := ⟨110 - e, by omega⟩
  have hj10 : j ≤ 10 := by omega
  have hscale : 2 ^ 125 = 2 * 2 ^ (j + 13) * 2 ^ (e + 1) := by
    rw [← Nat.pow_succ', ← Nat.pow_add, show j + 13 + 1 + (e + 1) = 125 by omega]
  have hP : 2 ^ 13 ≤ 2 ^ (j + 13) := Nat.pow_le_pow_right (by decide) (by omega)
  -- twice the magnitude, with and without a carry
  obtain ⟨d, hd, hv⟩ : ∃ d, (d = 0 ∨ ∃ c, 2 ^ (j + 13) * c = t + d ∧ 0 < d ∧ d ≤ 2 ^ (j + 13)) ∧
      2 * mag 23 X = (2 * t + d) * 2 ^ (e + 1) := by
    by_cases hc : X / 2 ^ 23 = e + 2
    · refine ⟨0, Or.inl rfl, ?_⟩
      rw [mag_of_le (by omega), hc, show e + 2 - 1 = e + 1 from rfl]
      have : 2 ^ 23 + X % 2 ^ 23 = t := by omega
      rw [this]
      ring
    · have hX : X / 2 ^ 23 = e + 1 := by omega
      refine ⟨(e + 2) * 2 ^ 23 - X, Or.inr ⟨2 ^ (10 - j), ?_, by omega, by omega⟩, ?_⟩
      · rw [← Nat.pow_add, show j + 13 + (10 - j) = 23 by omega]
        omega
      · have : 2 * t + ((e + 2) * 2 ^ 23 - X) = 2 ^ 23 + X % 2 ^ 23 := by omega
        rw [mag_of_le (by omega), hX, show e + 1 - 1 = e from rfl, this]
        ring
  obtain ⟨hb, ha⟩ := shift_round (Nat.two_pow_pos (j + 13)) hd
  have hn : (t / 2 ^ (j + 13) + 1) / 2 ≤ 1024 := by
    have := @Nat.div_le_div_left _ _ t hP (by decide)
    omega
  rw [he, ht, hj]
  generalize (t / 2 ^ (j + 13) + 1) / 2 = n at hb ha hn
  apply roundsUp_of_nat
  · intro m hm
    rw [mag_denormal (by omega), mag_denormal (by omega), hv, hscale, ← Nat.mul_assoc]
    exact Nat.mul_le_mul_right _ (hb m hm)
  · rw [mag_denormal (by omega), mag_denormal (by omega), hv, hscale, ← Nat.mul_assoc]
    exact Nat.mul_lt_mul_of_pos_right ha (Nat.two_pow_pos _)

/-- Less than half the smallest denormal. -/
theorem rounds_zero {X : Nat} (h : (X + 0x1000) / 2 ^ 23 < 102) : RoundsUp halfMag (floatMag X) 0 := by
  apply roundsUp_of_nat
  · intro m hm
    omega
  · have hX : mag 23 X < mag 23 (102 * 2 ^ 23) := mag_strictMono 23 (by omega)
    have e1 : mag 23 (102 * 2 ^ 23) = 2 ^ 124 := by norm_num [mag]
    rw [mag_denormal (by decide), mag_denormal (by decide)]
    omega

/-- **The magnitude code rounds to nearest, halves going up.** -/
theorem roundsUp_code {X : Nat} (h : (X + 0x1000) / 2 ^ 23 < 144) :
    RoundsUp halfMag (floatMag X) (code (X + 0x1000)) := by
  rw [code, if_neg (by omega)]
  split
  · next h1 => exact rounds_normal h1
  · next h1 =>
    split
    · next h2 => exact rounds_denormal h2 (by omega)
    · next h2 => exact rounds_zero (by omega)

/-! ## Signs -/

/-- The sign of a value. -/
def unit (negative : Bool) : ℚ := if negative then -1 else 1

theorem unit_mul_self (s : Bool) : unit s * unit s = 1 := by cases s <;> norm_num [unit]

theorem abs_unit_mul (s : Bool) (q : ℚ) : |unit s * q| = |q| := by
  cases s <;> simp [unit]

theorem abs_unit_sub (s : Bool) (a b : ℚ) : |unit s * a - b| = |a - unit s * b| := by
  have h : unit s * a - b = unit s * (a - unit s * b) := by
    rw [mul_sub, ← mul_assoc, unit_mul_self, one_mul]
  rw [h, abs_unit_mul]

theorem floatValue_unit (x : BitVec 32) : floatValue x = unit x.msb * floatMag (x.toNat % 2 ^ 31) := by
  rw [floatValue_eq, unit]
  split <;> ring

theorem halfValue_unit (h : BitVec 16) : halfValue h = unit h.msb * halfMag (h.toNat % 2 ^ 15) := by
  rw [halfValue_eq, unit]
  split <;> ring

/-- The pattern of a signed magnitude. -/
def pattern (negative : Bool) (n : Nat) : BitVec 16 := BitVec.ofNat 16 (if negative then 2 ^ 15 + n else n)

theorem halfValue_pattern (s : Bool) {n : Nat} (h : n < 2 ^ 15) :
    halfValue (pattern s n) = unit s * halfMag n := by
  have hp : (pattern s n).toNat = if s then 2 ^ 15 + n else n := by
    rw [pattern, BitVec.toNat_ofNat]
    cases s <;> simp <;> omega
  have hmsb : (pattern s n).msb = s := by
    rw [msb_half, hp]
    cases s
    · exact decide_eq_false (by simpa using h)
    · exact decide_eq_true (by simp)
  have hmod : (pattern s n).toNat % 2 ^ 15 = n := by
    rw [hp]
    cases s <;> simp <;> omega
  rw [halfValue_unit, hmsb, hmod]

/-- The fields of a result. -/
theorem floatToHalf_fields {x : BitVec 32} (h : x.toNat % 2 ^ 31 < 0x7FFFF000) :
    (floatToHalf x).msb = x.msb ∧ (floatToHalf x).toNat % 2 ^ 15 = code (x.toNat % 2 ^ 31 + 0x1000) := by
  have hx := x.isLt
  have hy := toNat_floatToHalf_of_lt h
  have hc := code_lt (x.toNat % 2 ^ 31 + 0x1000)
  refine ⟨?_, by omega⟩
  rw [msb_half, msb_eq, hy]
  exact decide_eq_decide.mpr (by omega)

/-! ## Round to nearest even -/

/-- The value of the result is a value of the format nearest to `x`, and of two that are equally
near it is the one with the even significand field. -/
structure RoundsToEven (x : BitVec 32) : Prop where
  nearest : ∀ h, |floatValue x - halfValue (floatToHalf x)| ≤ |floatValue x - halfValue h|
  ties : ∀ h, halfValue h ≠ halfValue (floatToHalf x) →
    |floatValue x - halfValue h| = |floatValue x - halfValue (floatToHalf x)| →
    Even ((floatToHalf x).toNat % 2 ^ 10)

/-- In the middle between two neighbouring magnitudes, the smaller of them even. -/
def TieAboveEven (v : ℚ) : Prop :=
  ∃ k, k + 1 < 2 ^ 15 ∧ Even k ∧ 2 * v = halfValue (.ofNat 16 k) + halfValue (.ofNat 16 (k + 1))

theorem tieAboveEven_iff (v : ℚ) :
    TieAboveEven v ↔ ∃ k, k + 1 < 2 ^ 15 ∧ Even k ∧ 2 * v = halfMag k + halfMag (k + 1) := by
  refine exists_congr fun k => and_congr_right fun hk => and_congr_right fun _ => ?_
  have h : ∀ n, n < 2 ^ 15 → halfValue (.ofNat 16 n) = halfMag n := fun n hn => by
    simpa [pattern, unit] using halfValue_pattern false hn
  rw [h k (by omega), h (k + 1) hk]

/-- Up to the largest half no word saturates. -/
theorem code_of_bounded {x : BitVec 32} (h : |floatValue x| ≤ 131008) :
    x.toNat % 2 ^ 31 ≤ 0x47FFE000 := by
  have hmax : floatMag 0x47FFE000 = 131008 := by norm_num [floatMag, mag]
  rw [floatValue_unit, abs_unit_mul, abs_of_nonneg (floatMag_nonneg _), ← hmax] at h
  exact floatMag_strictMono.le_iff_le.mp h

section
variable {x : BitVec 32}

/-- The result on the scale of magnitudes. -/
theorem dist_floatToHalf (h : BitVec 16) : |floatValue x - halfValue h| =
    |floatMag (x.toNat % 2 ^ 31) - unit x.msb * halfValue h| := by
  rw [floatValue_unit, abs_unit_sub]

theorem unit_halfValue_result (h : x.toNat % 2 ^ 31 < 0x7FFFF000) :
    unit x.msb * halfValue (floatToHalf x) = halfMag (code (x.toNat % 2 ^ 31 + 0x1000)) := by
  obtain ⟨hs, hn⟩ := floatToHalf_fields h
  rw [halfValue_unit, hs, hn, ← mul_assoc, unit_mul_self, one_mul]

theorem unit_halfValue (s : Bool) (h : BitVec 16) : ∃ k,
    unit s * halfValue h = halfMag k ∨ unit s * halfValue h = -halfMag k := by
  refine ⟨h.toNat % 2 ^ 15, ?_⟩
  rw [halfValue_unit, ← mul_assoc]
  generalize h.msb = t
  cases s <;> cases t <;> simp [unit]

/-- A value on the other side of zero is no nearer than zero. -/
theorem nearest_signed {v : ℚ} {n : Nat} (hv : 0 ≤ v) (h : RoundsUp halfMag v n) (k : Nat) :
    |v - halfMag n| ≤ |v - -halfMag k| := by
  have h0 := h.nearest halfMag_strictMono 0
  rw [halfMag_zero, sub_zero, abs_of_nonneg hv] at h0
  have hk := halfMag_nonneg k
  rw [sub_neg_eq_add, abs_of_nonneg (add_nonneg hv hk)]
  linarith

/-- And as near as that is only zero itself. -/
theorem tie_signed {v : ℚ} {n k : Nat} (hv : 0 ≤ v) (h : RoundsUp halfMag v n)
    (ht : |v - -halfMag k| = |v - halfMag n|) : halfMag k = 0 := by
  have h0 := h.nearest halfMag_strictMono 0
  rw [halfMag_zero, sub_zero, abs_of_nonneg hv, ← ht] at h0
  have hk := halfMag_nonneg k
  rw [sub_neg_eq_add, abs_of_nonneg (add_nonneg hv hk)] at h0
  linarith

theorem nearest_floatToHalf (hx : x.toNat % 2 ^ 31 ≤ 0x47FFE000) (h : BitVec 16) :
    |floatValue x - halfValue (floatToHalf x)| ≤ |floatValue x - halfValue h| := by
  have hr := roundsUp_code (X := x.toNat % 2 ^ 31) (by omega)
  rw [dist_floatToHalf, dist_floatToHalf, unit_halfValue_result (by omega)]
  obtain ⟨k, hk | hk⟩ := unit_halfValue x.msb h
  · rw [hk]
    exact hr.nearest halfMag_strictMono k
  · rw [hk]
    exact nearest_signed (floatMag_nonneg _) hr k

/-- Another value as near as the result is the lower neighbour, in the middle. -/
theorem tie_floatToHalf (hx : x.toNat % 2 ^ 31 ≤ 0x47FFE000) {h : BitVec 16}
    (hne : halfValue h ≠ halfValue (floatToHalf x))
    (ht : |floatValue x - halfValue h| = |floatValue x - halfValue (floatToHalf x)|) :
    ∃ k, k + 1 = code (x.toNat % 2 ^ 31 + 0x1000) ∧
      2 * floatMag (x.toNat % 2 ^ 31) = halfMag k + halfMag (k + 1) := by
  have hr := roundsUp_code (X := x.toNat % 2 ^ 31) (by omega)
  have hres := unit_halfValue_result (x := x) (by omega)
  rw [dist_floatToHalf, dist_floatToHalf, hres] at ht
  obtain ⟨k, hk⟩ : ∃ k, unit x.msb * halfValue h = halfMag k := by
    obtain ⟨k, hk | hk⟩ := unit_halfValue x.msb h
    · exact ⟨k, hk⟩
    · rw [hk] at ht
      exact ⟨0, by rw [hk, tie_signed (floatMag_nonneg _) hr ht]; simp⟩
  rw [hk] at ht
  rcases hr.tie halfMag_strictMono ht with rfl | ⟨hkn, hmid⟩
  · -- the same value
    refine absurd ?_ hne
    have heq : unit x.msb * halfValue h = unit x.msb * halfValue (floatToHalf x) := hk.trans hres.symm
    have := congrArg (unit x.msb * ·) heq
    simpa only [← mul_assoc, unit_mul_self, one_mul] using this
  · exact ⟨k, hkn, by rw [hmid, hkn]⟩

theorem even_mod (n : Nat) : Even (n % 2 ^ 10) ↔ Even n := by
  rw [Nat.even_iff, Nat.even_iff]
  omega

theorem abs_floatValue (x : BitVec 32) : |floatValue x| = floatMag (x.toNat % 2 ^ 31) := by
  rw [floatValue_unit, abs_unit_mul, abs_of_nonneg (floatMag_nonneg _)]

theorem even_significand (hx : x.toNat % 2 ^ 31 ≤ 0x47FFE000) :
    Even ((floatToHalf x).toNat % 2 ^ 10) ↔ Even (code (x.toNat % 2 ^ 31 + 0x1000)) := by
  obtain ⟨-, hn⟩ := floatToHalf_fields (x := x) (by omega)
  rw [even_mod, ← hn, Nat.even_iff, Nat.even_iff]
  omega

/-- A tie above an even significand is decided against the rule. -/
theorem not_roundsToEven_of_tie (hx : x.toNat % 2 ^ 31 ≤ 0x47FFE000) (h : TieAboveEven |floatValue x|) :
    ¬ RoundsToEven x := by
  rw [abs_floatValue, tieAboveEven_iff] at h
  obtain ⟨k, hk, heven, hmid⟩ := h
  have hr := roundsUp_code (X := x.toNat % 2 ^ 31) (by omega)
  have hcode := hr.unique halfMag_strictMono (RoundsUp.of_mid halfMag_strictMono hmid)
  -- the neighbour below, with the sign of `x`
  have hval : unit x.msb * halfValue (pattern x.msb k) = halfMag k := by
    rw [halfValue_pattern _ (by omega), ← mul_assoc, unit_mul_self, one_mul]
  have hres := unit_halfValue_result (x := x) (by omega)
  rw [hcode] at hres
  have hlt := halfMag_strictMono (Nat.lt_succ_self k)
  have hne : halfValue (pattern x.msb k) ≠ halfValue (floatToHalf x) := by
    intro he
    rw [he, hres] at hval
    exact hlt.ne hval.symm
  have htie : |floatValue x - halfValue (pattern x.msb k)| = |floatValue x - halfValue (floatToHalf x)| := by
    rw [dist_floatToHalf, dist_floatToHalf, hval, hres, abs_of_nonneg (by linarith),
      abs_of_nonpos (by linarith)]
    linarith
  intro h
  have hodd := h.ties _ hne htie
  rw [even_significand hx, hcode] at hodd
  exact Nat.even_add_one.mp hodd heven

theorem roundsToEven_of_not_tie (hx : x.toNat % 2 ^ 31 ≤ 0x47FFE000) (h : ¬ TieAboveEven |floatValue x|) :
    RoundsToEven x := by
  rw [abs_floatValue, tieAboveEven_iff] at h
  refine ⟨nearest_floatToHalf hx, fun g hne ht => ?_⟩
  obtain ⟨k, hk, hmid⟩ := tie_floatToHalf hx hne ht
  rw [even_significand hx, ← hk, Nat.even_add_one]
  have := code_lt (x.toNat % 2 ^ 31 + 0x1000)
  exact fun he => h ⟨k, by omega, he, hmid⟩

/-- **When float_to_half rounds to nearest even.**  The result is always nearest; of two values that
are equally near it is the one away from zero, so that exactly the ties above an even significand
are decided against the rule.  The bound leaves out infinities and what is not a number, so `Finite`
follows from it; it stays for the reader, who is told of finite numbers only. -/
theorem round_to_even_iff (x : BitVec 32) (_hfin : Finite x) (hmax : |floatValue x| ≤ 131008) :
    RoundsToEven x ↔ ¬ TieAboveEven |floatValue x| :=
  ⟨fun h ht => not_roundsToEven_of_tie (code_of_bounded hmax) ht h,
    roundsToEven_of_not_tie (code_of_bounded hmax)⟩

/-- The value 1 is no tie. -/
theorem round_to_even_one : RoundsToEven 0x3F800000 := by
  have habs : |floatValue 0x3F800000| = halfMag 0x3C00 := by
    rw [abs_floatValue, show (0x3F800000 : BitVec 32).toNat % 2 ^ 31 = 0x3F800000 from rfl]
    norm_num [floatMag, halfMag, mag]
  refine (round_to_even_iff 0x3F800000 (by unfold Finite; decide) ?_).mpr ?_
  · rw [habs]
    norm_num [halfMag, mag]
  · rw [habs, tieAboveEven_iff]
    rintro ⟨k, -, -, hmid⟩
    have := (RoundsUp.of_mid halfMag_strictMono hmid).unique halfMag_strictMono
      (RoundsUp.self halfMag_strictMono 0x3C00)
    rw [this] at hmid
    have hlt := halfMag_strictMono (show k < 0x3C00 by omega)
    linarith

/-- `1 + 2 ^ -11` lies in the middle between 1 and the next value, and goes up. -/
theorem tie_above_one_rounds_up :
    Finite 0x3F801000 ∧ |floatValue 0x3F801000| ≤ 131008 ∧ ¬ RoundsToEven 0x3F801000 := by
  have hcode : (0x3F801000 : BitVec 32).toNat % 2 ^ 31 = 0x3F801000 := rfl
  refine ⟨by unfold Finite; decide, ?_, not_roundsToEven_of_tie (by decide) ?_⟩
  · rw [abs_floatValue, hcode]
    norm_num [floatMag, mag]
  · rw [abs_floatValue, hcode, tieAboveEven_iff]
    exact ⟨0x3C00, by decide, by decide, by norm_num [floatMag, halfMag, mag]⟩

end

/-! ## Order, and the way back -/

def IsNaN (x : BitVec 32) : Prop := x.toNat / 2 ^ 23 % 256 = 255 ∧ x.toNat % 2 ^ 23 ≠ 0

/-- The value of a pattern that is no NaN. -/
def extValue (x : BitVec 32) : WithBot (WithTop ℚ) :=
  if x.toNat / 2 ^ 23 % 256 = 255 then if x.msb then ⊥ else ↑(⊤ : WithTop ℚ)
  else ↑(↑(floatValue x) : WithTop ℚ)

/-- An infinity has the code that follows the finite ones. -/
theorem code_of_not_nan {x : BitVec 32} (h : ¬ IsNaN x) :
    x.toNat % 2 ^ 31 ≤ 0x7F800000 ∧ (x.toNat / 2 ^ 23 % 256 = 255 → x.toNat % 2 ^ 31 = 0x7F800000) := by
  unfold IsNaN at h
  omega

theorem floatMag_le_iff {m n : Nat} : floatMag m ≤ floatMag n ↔ m ≤ n := floatMag_strictMono.le_iff_le

theorem halfMag_le_iff {m n : Nat} : halfMag m ≤ halfMag n ↔ m ≤ n := halfMag_strictMono.le_iff_le

/-- The order of the values is that of the patterns read without infinities. -/
theorem floatValue_le_of_extValue_le {x y : BitVec 32} (hx : ¬ IsNaN x) (hy : ¬ IsNaN y)
    (h : extValue x ≤ extValue y) : floatValue x ≤ floatValue y := by
  obtain ⟨lx, ix⟩ := code_of_not_nan hx
  obtain ⟨ly, iy⟩ := code_of_not_nan hy
  have nx := floatMag_nonneg (x.toNat % 2 ^ 31)
  have ny := floatMag_nonneg (y.toNat % 2 ^ 31)
  have bx := floatMag_le_iff.mpr lx
  have by' := floatMag_le_iff.mpr ly
  unfold extValue at h
  by_cases ex : x.toNat / 2 ^ 23 % 256 = 255 <;> by_cases ey : y.toNat / 2 ^ 23 % 256 = 255
  · -- two infinities
    rw [if_pos ex, if_pos ey] at h
    rw [floatValue_eq, floatValue_eq, ix ex, iy ey]
    have hinf := floatMag_nonneg 0x7F800000
    cases sx : x.msb <;> cases sy : y.msb <;> simp [sx, sy] at h ⊢
    linarith
  · -- an infinity below a number is negative
    rw [if_pos ex, if_neg ey] at h
    have sx : x.msb = true := by
      by_contra hs
      simp [hs] at h
    rw [floatValue_eq, floatValue_eq, sx, ix ex, if_pos rfl]
    cases y.msb <;> simp only [if_true, if_false, Bool.false_eq_true] <;> linarith
  · rw [if_neg ex, if_pos ey] at h
    have sy : ¬ y.msb = true := by
      intro hs
      simp [hs] at h
    rw [floatValue_eq, floatValue_eq, if_neg sy, iy ey]
    cases x.msb <;> simp only [if_true, if_false, Bool.false_eq_true] <;> linarith
  · rw [if_neg ex, if_neg ey] at h
    exact WithTop.coe_le_coe.mp (WithBot.coe_le_coe.mp h)

theorem code_mono {m n : Nat} (h : m ≤ n) : code (m + 0x1000) ≤ code (n + 0x1000) := by
  by_cases hn : (n + 0x1000) / 2 ^ 23 < 144
  · exact (roundsUp_code (by omega)).mono halfMag_strictMono (roundsUp_code hn) (floatMag_le_iff.mpr h)
  · rw [code_saturated (b := n + 0x1000) (by omega)]
    exact Nat.le_of_lt_succ (code_lt _)

theorem halfValue_floatToHalf {x : BitVec 32} (h : x.toNat % 2 ^ 31 < 0x7FFFF000) :
    halfValue (floatToHalf x) = if x.msb then -halfMag (code (x.toNat % 2 ^ 31 + 0x1000))
      else halfMag (code (x.toNat % 2 ^ 31 + 0x1000)) := by
  obtain ⟨hs, hn⟩ := floatToHalf_fields h
  rw [halfValue_eq, hs, hn]

theorem halfValue_mono {x y : BitVec 32} (hx : x.toNat % 2 ^ 31 < 0x7FFFF000)
    (hy : y.toNat % 2 ^ 31 < 0x7FFFF000) (h : floatValue x ≤ floatValue y) :
    halfValue (floatToHalf x) ≤ halfValue (floatToHalf y) := by
  rw [halfValue_floatToHalf hx, halfValue_floatToHalf hy]
  rw [floatValue_eq, floatValue_eq] at h
  have nx := halfMag_nonneg (code (x.toNat % 2 ^ 31 + 0x1000))
  have ny := halfMag_nonneg (code (y.toNat % 2 ^ 31 + 0x1000))
  cases sx : x.msb <;> cases sy : y.msb <;> simp only [sx, sy, if_true, if_false, Bool.false_eq_true] at h ⊢
  · exact halfMag_le_iff.mpr (code_mono (floatMag_le_iff.mp h))
  · -- a value that is not negative is at most one that is not positive: both are zero
    have fx := floatMag_nonneg (x.toNat % 2 ^ 31)
    have fy := floatMag_nonneg (y.toNat % 2 ^ 31)
    have hzero : floatMag 0 = 0 := by simp [floatMag]
    have zx : x.toNat % 2 ^ 31 ≤ 0 := floatMag_le_iff.mp (by linarith)
    have zy : y.toNat % 2 ^ 31 ≤ 0 := floatMag_le_iff.mp (by linarith)
    rw [Nat.le_zero.mp zx, Nat.le_zero.mp zy, show code (0 + 0x1000) = 0 by decide]
    simp
  · linarith
  · exact neg_le_neg (halfMag_le_iff.mpr (code_mono (floatMag_le_iff.mp (neg_le_neg_iff.mp h))))

/-- A half is taken back to itself. -/
theorem floatToHalf_halfToFloat (h : BitVec 16) : floatToHalf (halfToFloat h) = h := by
  have hlt := h.isLt
  have hn : h.toNat % 2 ^ 15 < 2 ^ 15 := Nat.mod_lt _ (by decide)
  have hf := toNat_halfToFloat h
  have hw := wide_lt hn
  have hmod : (halfToFloat h).toNat % 2 ^ 31 = wide (h.toNat % 2 ^ 15) := by omega
  have hmax : wide (h.toNat % 2 ^ 15) ≤ 0x47FFE000 := by
    have h1 : halfMag (h.toNat % 2 ^ 15) ≤ halfMag 0x7FFF := halfMag_le_iff.mpr (by omega)
    rw [← floatMag_wide, ← floatMag_wide] at h1
    exact floatMag_le_iff.mp h1
  have hcode : code (wide (h.toNat % 2 ^ 15) + 0x1000) = h.toNat % 2 ^ 15 := by
    have hr := roundsUp_code (X := wide (h.toNat % 2 ^ 15)) (by omega)
    rw [floatMag_wide] at hr
    exact hr.unique halfMag_strictMono (RoundsUp.self halfMag_strictMono _)
  apply BitVec.eq_of_toNat_eq
  rw [toNat_floatToHalf_of_lt (by omega), hmod, hcode]
  omega

/-- **Order and inverse.**  `float_to_half` keeps the order of all values, infinities included, and
takes back what `half_to_float` has widened. -/
theorem monotone_and_inverse :
    (∀ x y, ¬ IsNaN x → ¬ IsNaN y → extValue x ≤ extValue y →
      halfValue (floatToHalf x) ≤ halfValue (floatToHalf y)) ∧
    (∀ h, floatToHalf (halfToFloat h) = h) ∧
    ∀ x, ¬ IsNaN x → floatToHalf (halfToFloat (floatToHalf x)) = floatToHalf x := by
  refine ⟨fun x y hx hy h => ?_, floatToHalf_halfToFloat, fun x _ => floatToHalf_halfToFloat _⟩
  have lx := (code_of_not_nan hx).1
  have ly := (code_of_not_nan hy).1
  exact halfValue_mono (by omega) (by omega) (floatValue_le_of_extValue_le hx hy h)

/-- Minus infinity, a third and a half. -/
theorem monotone_and_inverse_third :
    halfValue (floatToHalf 0xFF800000) ≤ halfValue (floatToHalf 0x3EAAAAAB) ∧
      halfValue (floatToHalf 0x3EAAAAAB) ≤ halfValue (floatToHalf 0x3F000000) ∧
      floatToHalf (halfToFloat (floatToHalf 0x3EAAAAAB)) = floatToHalf 0x3EAAAAAB := by
  obtain ⟨hmono, -, hidem⟩ := monotone_and_inverse
  have n1 : ¬ IsNaN 0xFF800000 := by unfold IsNaN; decide
  have n2 : ¬ IsNaN 0x3EAAAAAB := by unfold IsNaN; decide
  have n3 : ¬ IsNaN 0x3F000000 := by unfold IsNaN; decide
  refine ⟨hmono _ _ n1 n2 ?_, hmono _ _ n2 n3 ?_, hidem _ n2⟩
  · have h : extValue 0xFF800000 = ⊥ := rfl
    rw [h]
    exact bot_le
  · have h1 : extValue 0x3EAAAAAB = ↑(↑(floatValue 0x3EAAAAAB) : WithTop ℚ) := rfl
    have h2 : extValue 0x3F000000 = ↑(↑(floatValue 0x3F000000) : WithTop ℚ) := rfl
    rw [h1, h2, WithBot.coe_le_coe, WithTop.coe_le_coe, floatValue_eq, floatValue_eq]
    exact floatMag_le_iff.mpr (by decide)

end FpgaQuat.Half
