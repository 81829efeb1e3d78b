import Mathlib

/-!
# half_to_float and float_to_half

The conversions of `iniche_init.c` on bit patterns, in `uint32_t` arithmetic.  A
comparison is 0 or 1 and selects a term by multiplication (`cBool`); all terms are
computed, also those that are not selected.

    result = sign, then `code` of the word with the rounding constant added  (toNat_floatToHalf)
    the sign is kept unless that addition carries into it      (sign_and_saturation_iff)
-/

namespace FpgaQuat.Half

/-- The value of a comparison. -/
def cBool (b : Bool) : BitVec 32 := if b then 1#32 else 0#32

theorem cBool_pos {p : Prop} [Decidable p] (h : p) : cBool (decide p) = 1#32 := by simp [cBool, h]

theorem cBool_neg {p : Prop} [Decidable p] (h : ¬ p) : cBool (decide p) = 0#32 := by simp [cBool, h]

/-- `as_uint((float)m)`, exact because no `m` of the source has more than 24 bits. -/
def asUintFloat (m : BitVec 32) : BitVec 32 :=
  if m = 0 then 0
  else
    let k := m.toNat.log2
    (BitVec.ofNat 32 (k + 127) <<< 23) ||| ((m <<< (23 - k)) &&& 0x007FFFFF#32)

def halfToFloat (x : BitVec 16) : BitVec 32 :=
  let x := x.setWidth 32
  -- exponent
  let e := (x &&& 0x7C00#32) >>> 10
  -- mantissa
  let m := (x &&& 0x03FF#32) <<< 13
  -- the leading zeros of a denormal, out of the exponent of `(float)m`
  let v := asUintFloat m >>> 23
  ((x &&& 0x8000#32) <<< 16)
    ||| (cBool (e != 0) * (((e + 112#32) <<< 23) ||| m))
    ||| ((cBool (e == 0) &&& cBool (m != 0)) *
      (((v - 37#32) <<< 23) ||| ((m <<< (150#32 - v).toNat) &&& 0x007FE000#32)))

def floatToHalf (x : BitVec 32) : BitVec 16 :=
  let b := x + 0x00001000#32
  let e := (b &&& 0x7F800000#32) >>> 23
  let m := b &&& 0x007FFFFF#32
  (((b &&& 0x80000000#32) >>> 16)
    ||| (cBool (112#32 < e) * ((((e - 112#32) <<< 10) &&& 0x7C00#32) ||| (m >>> 13)))
    ||| ((cBool (e < 113#32) &&& cBool (101#32 < e)) *
      ((((0x007FF000#32 + m) >>> (125#32 - e).toNat) + 1#32) >>> 1))
    ||| (cBool (143#32 < e) * 0x7FFF#32)).setWidth 16

/-! ## On numbers -/

theorem toNat_field (b : BitVec 32) : ((b &&& 0x7F800000#32) >>> 23).toNat = b.toNat / 2 ^ 23 % 256 := by
  rw [BitVec.ushiftRight_and_distrib, BitVec.toNat_and, BitVec.toNat_ushiftRight, Nat.shiftRight_eq_div_pow]
  exact Nat.and_two_pow_sub_one_eq_mod _ 8

theorem toNat_fraction (b : BitVec 32) : (b &&& 0x007FFFFF#32).toNat = b.toNat % 2 ^ 23 := by
  rw [BitVec.toNat_and]
  exact Nat.and_two_pow_sub_one_eq_mod _ 23

theorem toNat_sign (b : BitVec 32) : ((b &&& 0x80000000#32) >>> 16).toNat = 2 ^ 15 * (b.toNat / 2 ^ 31) := by
  rw [BitVec.ushiftRight_and_distrib, BitVec.toNat_and, BitVec.toNat_ushiftRight, Nat.shiftRight_eq_div_pow]
  have hb := b.isLt
  have hmask : (0x80000000#32 >>> 16).toNat = 2 ^ 15 := rfl
  rw [hmask, Nat.and_two_pow, Nat.testBit_eq_decide_div_mod_eq, Nat.div_div_eq_div_mul]
  have h2 : b.toNat / (2 ^ 16 * 2 ^ 15) < 2 := by omega
  have he : b.toNat / (2 ^ 16 * 2 ^ 15) = b.toNat / 2 ^ 31 := by norm_num
  rw [he] at h2 ⊢
  interval_cases b.toNat / 2 ^ 31 <;> rfl

/-- The magnitude code for the word `b` with the rounding constant already added, its sign removed. -/
def code (b : Nat) : Nat :=
  if 143 < b / 2 ^ 23 then 0x7FFF
  else if 112 < b / 2 ^ 23 then b / 2 ^ 13 - 112 * 2 ^ 10
  else if 101 < b / 2 ^ 23 then ((0x7FF000 + b % 2 ^ 23) / 2 ^ (125 - b / 2 ^ 23) + 1) / 2
  else 0

theorem code_lt (b : Nat) : code b < 2 ^ 15 := by
  unfold code
  split
  · decide
  · split
    · omega
    · split
      · next h1 h2 h3 =>
        have hs : 2 ^ 13 ≤ 2 ^ (125 - b / 2 ^ 23) := Nat.pow_le_pow_right (by decide) (by omega)
        have := @Nat.div_le_div_left (2 ^ 13) _ (0x7FF000 + b % 2 ^ 23) hs (by decide)
        omega
      · decide

/-- The term of a normal number. -/
theorem toNat_normal {e m : BitVec 32} (h1 : 112 < e.toNat) (h2 : e.toNat ≤ 143) (hm : m.toNat < 2 ^ 23) :
    ((((e - 112#32) <<< 10) &&& 0x7C00#32) ||| (m >>> 13)).toNat = 2 ^ 10 * (e.toNat - 112) + m.toNat / 2 ^ 13 := by
  have hsub : (e - 112#32).toNat = e.toNat - 112 := BitVec.toNat_sub_of_le (BitVec.le_def.mpr h1.le)
  have hexp : (((e - 112#32) <<< 10) &&& 0x7C00#32).toNat = 2 ^ 10 * (e.toNat - 112) := by
    rw [BitVec.toNat_and, BitVec.toNat_shiftLeft, hsub, Nat.shiftLeft_eq]
    have hk : e.toNat - 112 < 32 := by omega
    generalize e.toNat - 112 = k at hk
    interval_cases k <;> rfl
  rw [BitVec.toNat_or, hexp, BitVec.toNat_ushiftRight, Nat.shiftRight_eq_div_pow,
    Nat.two_pow_add_eq_or_of_lt (by omega)]

/-- The term of a denormal. -/
theorem toNat_denormal {e m : BitVec 32} (h1 : 101 < e.toNat) (h2 : e.toNat < 113) (hm : m.toNat < 2 ^ 23) :
    ((((0x007FF000#32 + m) >>> (125#32 - e).toNat) + 1#32) >>> 1).toNat =
      ((0x7FF000 + m.toNat) / 2 ^ (125 - e.toNat) + 1) / 2 := by
  have hsub : (125#32 - e).toNat = 125 - e.toNat :=
    BitVec.toNat_sub_of_le (BitVec.le_def.mpr (show e.toNat ≤ 125 by omega))
  have hadd : (0x007FF000#32 + m).toNat = 0x7FF000 + m.toNat :=
    BitVec.toNat_add_of_lt (show 0x7FF000 + m.toNat < 2 ^ 32 by omega)
  have hle := Nat.div_le_self (0x7FF000 + m.toNat) (2 ^ (125 - e.toNat))
  rw [BitVec.toNat_ushiftRight, Nat.shiftRight_eq_div_pow, BitVec.toNat_add_of_lt, hsub,
    BitVec.toNat_ushiftRight, Nat.shiftRight_eq_div_pow, hadd]
  · rfl
  · rw [BitVec.toNat_ushiftRight, hsub, hadd, Nat.shiftRight_eq_div_pow]
    show (0x7FF000 + m.toNat) / 2 ^ (125 - e.toNat) + 1 < 2 ^ 32
    omega

/-- The mask of the saturated term covers a normal term. -/
theorem toNat_saturated {e m : BitVec 32} (hm : m.toNat < 2 ^ 23) :
    (((((e - 112#32) <<< 10) &&& 0x7C00#32) ||| (m >>> 13)) ||| 0x7FFF#32).toNat = 0x7FFF := by
  have hexp : (((e - 112#32) <<< 10) &&& 0x7C00#32).toNat < 2 ^ 15 := by
    rw [BitVec.toNat_and]
    exact Nat.and_lt_two_pow _ (by decide)
  have hfrac : (m >>> 13).toNat < 2 ^ 15 := by
    rw [BitVec.toNat_ushiftRight, Nat.shiftRight_eq_div_pow]
    omega
  have hlt : ((((e - 112#32) <<< 10) &&& 0x7C00#32) ||| (m >>> 13)).toNat < 2 ^ 15 := by
    rw [BitVec.toNat_or]
    exact Nat.or_lt_two_pow hexp hfrac
  generalize (((e - 112#32) <<< 10) &&& 0x7C00#32) ||| (m >>> 13) = a at hlt
  rw [BitVec.toNat_or]
  exact Nat.le_antisymm (Nat.le_of_lt_succ (Nat.or_lt_two_pow hlt (by decide))) Nat.right_le_or

/-- The four terms joined: a sign and a magnitude code. -/
theorem toNat_join {s a : BitVec 32} {c k : Nat} (hs : s.toNat = 2 ^ 15 * k) (hk : k < 2)
    (ha : a.toNat = c) (hc : c < 2 ^ 15) : ((s ||| a).setWidth 16).toNat = 2 ^ 15 * k + c := by
  rw [BitVec.toNat_setWidth, BitVec.toNat_or, hs, ha, ← Nat.two_pow_add_eq_or_of_lt hc]
  exact Nat.mod_eq_of_lt (by omega)

/-- **What float_to_half computes**, for every word. -/
theorem toNat_floatToHalf (x : BitVec 32) : (floatToHalf x).toNat =
    2 ^ 15 * ((x + 0x1000#32).toNat / 2 ^ 31) + code ((x + 0x1000#32).toNat % 2 ^ 31) := by
  obtain ⟨b, hb⟩ : ∃ b, x + 0x00001000#32 = b := ⟨_, rfl⟩
  have hlt := b.isLt
  have he : ((b &&& 0x7F800000#32) >>> 23).toNat = b.toNat % 2 ^ 31 / 2 ^ 23 := by
    rw [toNat_field]; omega
  have hm : (b &&& 0x007FFFFF#32).toNat = b.toNat % 2 ^ 31 % 2 ^ 23 := by
    rw [toNat_fraction]; omega
  have hs := toNat_sign b
  have hc := code_lt (b.toNat % 2 ^ 31)
  simp only [floatToHalf, hb]
  generalize (b &&& 0x7F800000#32) >>> 23 = e at he
  generalize b &&& 0x007FFFFF#32 = m at hm
  generalize (b &&& 0x80000000#32) >>> 16 = s at hs
  have hm' : m.toNat < 2 ^ 23 := by rw [hm]; exact Nat.mod_lt _ (by decide)
  rw [BitVec.or_assoc, BitVec.or_assoc]
  refine toNat_join hs (by omega) ?_ hc
  rw [code, ← he, ← hm]
  by_cases h143 : 143 < e.toNat
  · -- saturated: the normal term lies under the mask
    have c112 : cBool (112#32 < e) = 1#32 := cBool_pos (show 112 < e.toNat by omega)
    have c113 : cBool (e < 113#32) = 0#32 := cBool_neg (show ¬ e.toNat < 113 by omega)
    have c143 : cBool (143#32 < e) = 1#32 := cBool_pos (show 143 < e.toNat from h143)
    rw [if_pos h143, c112, c113, c143, BitVec.zero_and, BitVec.zero_mul, BitVec.one_mul, BitVec.one_mul,
      BitVec.zero_or]
    exact toNat_saturated hm'
  have c143 : cBool (143#32 < e) = 0#32 := cBool_neg (show ¬ 143 < e.toNat from h143)
  rw [if_neg h143, c143, BitVec.zero_mul, BitVec.or_zero]
  by_cases h112 : 112 < e.toNat
  · have c112 : cBool (112#32 < e) = 1#32 := cBool_pos (show 112 < e.toNat from h112)
    have c113 : cBool (e < 113#32) = 0#32 := cBool_neg (show ¬ e.toNat < 113 by omega)
    rw [if_pos h112, c112, c113, BitVec.zero_and, BitVec.zero_mul, BitVec.one_mul, BitVec.or_zero,
      toNat_normal h112 (by omega) hm']
    omega
  have c112 : cBool (112#32 < e) = 0#32 := cBool_neg (show ¬ 112 < e.toNat from h112)
  have c113 : cBool (e < 113#32) = 1#32 := cBool_pos (show e.toNat < 113 by omega)
  rw [if_neg h112, c112, c113, BitVec.zero_mul, BitVec.zero_or]
  by_cases h101 : 101 < e.toNat
  · have c101 : cBool (101#32 < e) = 1#32 := cBool_pos (show 101 < e.toNat from h101)
    rw [if_pos h101, c101, show 1#32 &&& 1#32 = 1#32 from rfl, BitVec.one_mul,
      toNat_denormal h101 (by omega) hm']
  · have c101 : cBool (101#32 < e) = 0#32 := cBool_neg (show ¬ 101 < e.toNat from h101)
    rw [if_neg h101, c101, BitVec.and_zero, BitVec.zero_mul]
    rfl

/-! ## Sign and saturation -/

/-- Without a carry out of the low 31 bits the sign is that of `x`. -/
theorem toNat_floatToHalf_of_lt {x : BitVec 32} (h : x.toNat % 2 ^ 31 < 0x7FFFF000) :
    (floatToHalf x).toNat = 2 ^ 15 * (x.toNat / 2 ^ 31) + code (x.toNat % 2 ^ 31 + 0x1000) := by
  have hx := x.isLt
  have hb : (x + 0x1000#32).toNat = x.toNat + 0x1000 :=
    BitVec.toNat_add_of_lt (show x.toNat + 0x1000 < 2 ^ 32 by omega)
  rw [toNat_floatToHalf, hb]
  have hs : (x.toNat + 0x1000) / 2 ^ 31 = x.toNat / 2 ^ 31 := by omega
  have hm : (x.toNat + 0x1000) % 2 ^ 31 = x.toNat % 2 ^ 31 + 0x1000 := by omega
  rw [hs, hm]

/-- The carry runs through exponent and sign and leaves a zero. -/
theorem toNat_floatToHalf_of_ge {x : BitVec 32} (h : 0x7FFFF000 ≤ x.toNat % 2 ^ 31) :
    (floatToHalf x).toNat = 2 ^ 15 * (1 - x.toNat / 2 ^ 31) := by
  have hx := x.isLt
  have hb : (x + 0x1000#32).toNat = (x.toNat + 0x1000) % 2 ^ 32 := BitVec.toNat_add ..
  rw [toNat_floatToHalf, hb]
  have hs : (x.toNat + 0x1000) % 2 ^ 32 / 2 ^ 31 = 1 - x.toNat / 2 ^ 31 := by omega
  have hm : (x.toNat + 0x1000) % 2 ^ 32 % 2 ^ 31 < 0x1000 := by omega
  rw [hs, code, if_neg (by omega), if_neg (by omega), if_neg (by omega), Nat.add_zero]

theorem msb_eq (x : BitVec 32) : x.msb = decide (1 ≤ x.toNat / 2 ^ 31) := by
  rw [BitVec.msb_eq_decide]
  congr 1
  have := x.isLt
  exact propext (by omega)

theorem msb_half (y : BitVec 16) : y.msb = decide (2 ^ 15 ≤ y.toNat) := BitVec.msb_eq_decide y

theorem code_saturated {b : Nat} (h : 144 ≤ b / 2 ^ 23) : code b = 0x7FFF := if_pos h

/-- The sign bit of `x` followed by 15 ones. -/
def saturated (x : BitVec 32) : BitVec 16 := if x.msb then 0xFFFF else 0x7FFF

/-- **When the sign is kept and over-range patterns saturate**: for every pattern below the last
4096 NaNs of either sign. -/
theorem sign_and_saturation_iff (x : BitVec 32) :
    ((floatToHalf x).msb = x.msb ∧
      (144 ≤ x.toNat / 2 ^ 23 % 256 → floatToHalf x = saturated x)) ↔ x.toNat % 2 ^ 31 < 0x7FFFF000 := by
  have hx := x.isLt
  constructor
  · rintro ⟨hsign, -⟩
    by_contra h
    have hy := toNat_floatToHalf_of_ge (Nat.le_of_not_lt h)
    rw [msb_half, msb_eq, hy] at hsign
    have := decide_eq_decide.mp hsign
    omega
  · intro h
    have hy := toNat_floatToHalf_of_lt h
    have hc := code_lt (x.toNat % 2 ^ 31 + 0x1000)
    constructor
    · rw [msb_half, msb_eq, hy]
      exact decide_eq_decide.mpr (by omega)
    · intro he
      rw [code_saturated (by omega)] at hy
      apply BitVec.eq_of_toNat_eq
      rw [hy, saturated, msb_eq]
      by_cases hs : 1 ≤ x.toNat / 2 ^ 31
      · rw [if_pos (decide_eq_true hs)]
        show _ = 0xFFFF
        omega
      · rw [decide_eq_false hs, if_neg (by decide)]
        show _ = 0x7FFF
        omega

/-- The last NaN becomes minus zero. -/
theorem last_nan_loses_sign : ¬ ((floatToHalf 0x7FFFFFFF).msb = (0x7FFFFFFF : BitVec 32).msb ∧
    (144 ≤ (0x7FFFFFFF : BitVec 32).toNat / 2 ^ 23 % 256 →
      floatToHalf 0x7FFFFFFF = saturated 0x7FFFFFFF)) := by
  rintro ⟨h, -⟩
  revert h
  decide

end FpgaQuat.Half
