import FpgaQuaternions.Half.Convert
import FpgaQuaternions.Lib.Minifloat

/-!
# The values of the formats

The format that `half_to_float` decodes has 10 fraction bits, gradual underflow and no
infinities: its magnitude with the code `n` is `mag 10 n` units of `2 ^ -24`, and
`half_to_float` finds the single-precision code `wide n` of the same value.
-/

namespace FpgaQuat.Half

open Minifloat

/-- The value of a finite single-precision pattern. -/
def floatValue (x : BitVec 32) : ℚ :=
  (if x.msb then -1 else 1) * (mag 23 (x.toNat % 2 ^ 31) / 2 ^ 149)

/-- The value of a 16-bit pattern, as `half_to_float` decodes it. -/
def halfValue (h : BitVec 16) : ℚ := floatValue (halfToFloat h)

/-- Neither an infinity nor a NaN. -/
def Finite (x : BitVec 32) : Prop := x.toNat / 2 ^ 23 % 256 ≠ 255

/-! ## half_to_float on numbers -/

/-- The single-precision code of the half magnitude with the code `n`. -/
def wide (n : Nat) : Nat :=
  if 2 ^ 10 ≤ n then 2 ^ 13 * (n + 112 * 2 ^ 10)
  else if n = 0 then 0
  else 2 ^ 23 * (n.log2 + 103) + n * 2 ^ (23 - n.log2) % 2 ^ 23

theorem toNat_exponent (x : BitVec 16) :
    ((x.setWidth 32 &&& 0x7C00#32) >>> 10).toNat = x.toNat / 2 ^ 10 % 32 := by
  rw [BitVec.ushiftRight_and_distrib, BitVec.toNat_and, BitVec.toNat_ushiftRight,
    Nat.shiftRight_eq_div_pow, BitVec.toNat_setWidth_of_le (by decide)]
  exact Nat.and_two_pow_sub_one_eq_mod _ 5

theorem toNat_mantissa (x : BitVec 16) :
    ((x.setWidth 32 &&& 0x03FF#32) <<< 13).toNat = x.toNat % 2 ^ 10 * 2 ^ 13 := by
  have hand : (x.setWidth 32 &&& 0x03FF#32).toNat = x.toNat % 2 ^ 10 := by
    rw [BitVec.toNat_and, BitVec.toNat_setWidth_of_le (by decide)]
    exact Nat.and_two_pow_sub_one_eq_mod _ 10
  rw [BitVec.toNat_shiftLeft, hand, Nat.shiftLeft_eq]
  omega

theorem toNat_half_sign (x : BitVec 16) :
    ((x.setWidth 32 &&& 0x8000#32) <<< 16).toNat = 2 ^ 31 * (x.toNat / 2 ^ 15) := by
  have hx := x.isLt
  have hand : (x.setWidth 32 &&& 0x8000#32).toNat = 2 ^ 15 * (x.toNat / 2 ^ 15) := by
    have hmask : (0x8000#32).toNat = 2 ^ 15 := rfl
    rw [BitVec.toNat_and, BitVec.toNat_setWidth_of_le (by decide), hmask, Nat.and_two_pow,
      Nat.testBit_eq_decide_div_mod_eq]
    have h2 : x.toNat / 2 ^ 15 < 2 := by omega
    interval_cases x.toNat / 2 ^ 15 <;> rfl
  rw [BitVec.toNat_shiftLeft, hand, Nat.shiftLeft_eq]
  omega

/-- The exponent of `(float)m` is that of `m`. -/
theorem toNat_asUintFloat {m : BitVec 32} (h0 : m ≠ 0) (h : m.toNat < 2 ^ 24) :
    (asUintFloat m >>> 23).toNat = m.toNat.log2 + 127 := by
  have hk : m.toNat.log2 < 24 := by
    have hne : m.toNat ≠ 0 := fun he => h0 (BitVec.eq_of_toNat_eq he)
    exact (Nat.log2_lt hne).mpr h
  have hexp : (BitVec.ofNat 32 (m.toNat.log2 + 127) <<< 23).toNat = 2 ^ 23 * (m.toNat.log2 + 127) := by
    rw [BitVec.toNat_shiftLeft, BitVec.toNat_ofNat, Nat.shiftLeft_eq]
    omega
  have hlow : ((m <<< (23 - m.toNat.log2)) &&& 0x007FFFFF#32).toNat < 2 ^ 23 := by
    rw [BitVec.toNat_and]
    exact Nat.and_lt_two_pow _ (by decide)
  rw [asUintFloat, if_neg h0, BitVec.toNat_ushiftRight, BitVec.toNat_or, hexp,
    ← Nat.two_pow_add_eq_or_of_lt hlow, Nat.shiftRight_eq_div_pow]
  omega

theorem log2_mul_two_pow {n : Nat} (h : n ≠ 0) (j : Nat) : (n * 2 ^ j).log2 = n.log2 + j := by
  rw [Nat.log2_eq_iff (Nat.mul_ne_zero h (Nat.two_pow_pos j).ne'), Nat.add_right_comm, Nat.pow_add,
    Nat.pow_add 2 (n.log2 + 1)]
  exact ⟨Nat.mul_le_mul_right _ (Nat.log2_self_le h), Nat.mul_lt_mul_of_pos_right Nat.lt_log2_self
    (Nat.two_pow_pos j)⟩

/-- The mask keeps the fraction of a number whose last 13 bits are zero. -/
theorem and_mask (y : Nat) : 2 ^ 13 * y &&& 0x007FE000 = 2 ^ 13 * y % 2 ^ 23 := by
  have hmask : 0x007FE000 = 0x3FF <<< 13 := rfl
  rw [Nat.mul_comm, ← Nat.shiftLeft_eq, hmask, ← Nat.shiftLeft_and_distrib,
    show 0x3FF = 2 ^ 10 - 1 from rfl, Nat.and_two_pow_sub_one_eq_mod, Nat.shiftLeft_eq, Nat.shiftLeft_eq]
  omega

/-- A mantissa with its leading one in bit 23. -/
theorem renormalized_lt {n : Nat} (h : n.log2 ≤ 23) : n * 2 ^ (23 - n.log2) < 2 ^ 24 := by
  calc n * 2 ^ (23 - n.log2) < 2 ^ (n.log2 + 1) * 2 ^ (23 - n.log2) :=
        Nat.mul_lt_mul_of_pos_right Nat.lt_log2_self (Nat.two_pow_pos _)
    _ = 2 ^ 24 := by rw [← Nat.pow_add, show n.log2 + 1 + (23 - n.log2) = 24 by omega]

/-- The term of a denormal, its leading one shifted out of the fraction. -/
theorem toNat_renormalized {m : BitVec 32} {n : Nat} (h0 : n ≠ 0) (h : n < 2 ^ 10)
    (hm : m.toNat = n * 2 ^ 13) :
    ((((asUintFloat m >>> 23) - 37#32) <<< 23) |||
      ((m <<< (150#32 - (asUintFloat m >>> 23)).toNat) &&& 0x007FE000#32)).toNat =
      2 ^ 23 * (n.log2 + 103) + n * 2 ^ (23 - n.log2) % 2 ^ 23 := by
  have hk : n.log2 < 10 := (Nat.log2_lt h0).mpr h
  have hv : (asUintFloat m >>> 23).toNat = n.log2 + 140 := by
    have hm0 : m ≠ 0 := by
      rintro rfl
      exact Nat.mul_ne_zero h0 (by decide) hm.symm
    rw [toNat_asUintFloat hm0 (by omega), hm, log2_mul_two_pow h0]
  generalize asUintFloat m >>> 23 = v at hv
  have hexp : ((v - 37#32) <<< 23).toNat = 2 ^ 23 * (n.log2 + 103) := by
    rw [BitVec.toNat_shiftLeft, BitVec.toNat_sub_of_le (BitVec.le_def.mpr (by rw [hv]; exact Nat.le_add_left ..)), hv,
      Nat.shiftLeft_eq]
    have : (37#32).toNat = 37 := rfl
    omega
  have hs : (150#32 - v).toNat = 10 - n.log2 := by
    rw [BitVec.toNat_sub_of_le (BitVec.le_def.mpr (by rw [hv]; show _ ≤ 150; omega)), hv]
    show 150 - _ = _
    omega
  have hpow : 2 ^ (23 - n.log2) = 2 ^ 13 * 2 ^ (10 - n.log2) := by
    rw [← Nat.pow_add, show 13 + (10 - n.log2) = 23 - n.log2 by omega]
  have hlt := renormalized_lt (n := n) (by omega)
  have hfrac : ((m <<< (150#32 - v).toNat) &&& 0x007FE000#32).toNat = n * 2 ^ (23 - n.log2) % 2 ^ 23 := by
    have he : m.toNat * 2 ^ (10 - n.log2) = n * 2 ^ (23 - n.log2) := by rw [hm, hpow]; ring
    have he' : n * 2 ^ (23 - n.log2) = 2 ^ 13 * (n * 2 ^ (10 - n.log2)) := by rw [hpow]; ring
    rw [hs, BitVec.toNat_and, BitVec.toNat_shiftLeft, Nat.shiftLeft_eq, he, Nat.mod_eq_of_lt (by omega), he']
    exact and_mask _
  rw [BitVec.toNat_or, hexp, hfrac, Nat.two_pow_add_eq_or_of_lt (Nat.mod_lt _ (Nat.two_pow_pos _))]

/-- The term of a normal number. -/
theorem toNat_widened {e m : BitVec 32} {n : Nat} (he : e.toNat = n / 2 ^ 10) (hn : n < 2 ^ 15)
    (hm : m.toNat = n % 2 ^ 10 * 2 ^ 13) :
    (((e + 112#32) <<< 23) ||| m).toNat = 2 ^ 13 * (n + 112 * 2 ^ 10) := by
  have hadd : (e + 112#32).toNat = n / 2 ^ 10 + 112 := by
    rw [BitVec.toNat_add_of_lt (by rw [he]; show _ + 112 < 2 ^ 32; omega), he]
    rfl
  have hexp : ((e + 112#32) <<< 23).toNat = 2 ^ 23 * (n / 2 ^ 10 + 112) := by
    rw [BitVec.toNat_shiftLeft, hadd, Nat.shiftLeft_eq]
    omega
  rw [BitVec.toNat_or, hexp, hm, ← Nat.two_pow_add_eq_or_of_lt (by omega)]
  omega

theorem toNat_half_join {s a : BitVec 32} {c k : Nat} (hs : s.toNat = 2 ^ 31 * k)
    (ha : a.toNat = c) (hc : c < 2 ^ 31) : (s ||| a).toNat = 2 ^ 31 * k + c := by
  rw [BitVec.toNat_or, hs, ha, ← Nat.two_pow_add_eq_or_of_lt hc]

theorem wide_lt {n : Nat} (h : n < 2 ^ 15) : wide n < 2 ^ 31 := by
  unfold wide
  split
  · omega
  · split
    · decide
    · next h1 h0 =>
      have hk : n.log2 < 10 := (Nat.log2_lt h0).mpr (Nat.lt_of_not_le h1)
      have := Nat.mod_lt (n * 2 ^ (23 - n.log2)) (Nat.two_pow_pos 23)
      omega

/-- **What half_to_float computes**, for every pattern. -/
theorem toNat_halfToFloat (h : BitVec 16) :
    (halfToFloat h).toNat = 2 ^ 31 * (h.toNat / 2 ^ 15) + wide (h.toNat % 2 ^ 15) := by
  have hlt := h.isLt
  obtain ⟨n, hn⟩ : ∃ n, h.toNat % 2 ^ 15 = n := ⟨_, rfl⟩
  have hn' : n < 2 ^ 15 := by omega
  have he : ((h.setWidth 32 &&& 0x7C00#32) >>> 10).toNat = n / 2 ^ 10 := by
    rw [toNat_exponent]; omega
  have hm : ((h.setWidth 32 &&& 0x03FF#32) <<< 13).toNat = n % 2 ^ 10 * 2 ^ 13 := by
    rw [toNat_mantissa]; omega
  have hs := toNat_half_sign h
  simp only [halfToFloat, hn]
  generalize (h.setWidth 32 &&& 0x7C00#32) >>> 10 = e at he
  generalize (h.setWidth 32 &&& 0x03FF#32) <<< 13 = m at hm
  generalize (h.setWidth 32 &&& 0x8000#32) <<< 16 = s at hs
  rw [BitVec.or_assoc]
  refine toNat_half_join hs ?_ (wide_lt hn')
  by_cases h1 : 2 ^ 10 ≤ n
  · -- a normal number
    have he0 : e ≠ 0#32 := by
      rintro rfl
      have : n / 2 ^ 10 = 0 := he.symm
      omega
    have c1 : cBool (e != 0) = 1#32 := by simp [cBool, he0]
    have c2 : cBool (e == 0) = 0#32 := by simp [cBool, he0]
    rw [c1, c2, BitVec.zero_and, BitVec.zero_mul, BitVec.one_mul, BitVec.or_zero, wide, if_pos h1]
    exact toNat_widened he hn' hm
  have he0 : e = 0#32 := BitVec.eq_of_toNat_eq (by rw [he]; exact Nat.div_eq_of_lt (Nat.lt_of_not_le h1))
  have c1 : cBool (e != 0) = 0#32 := by simp [cBool, he0]
  have c2 : cBool (e == 0) = 1#32 := by simp [cBool, he0]
  rw [c1, c2, BitVec.zero_mul, BitVec.zero_or, wide, if_neg h1]
  have hm' : m.toNat = n * 2 ^ 13 := by rw [hm, Nat.mod_eq_of_lt (Nat.lt_of_not_le h1)]
  by_cases h0 : n = 0
  · have hm0 : m = 0#32 := BitVec.eq_of_toNat_eq (by rw [hm', h0]; rfl)
    have c3 : cBool (m != 0) = 0#32 := by simp [cBool, hm0]
    rw [c3, BitVec.and_zero, BitVec.zero_mul, if_pos h0]
    rfl
  · have hm0 : m ≠ 0#32 := by
      rintro rfl
      have : n * 2 ^ 13 = 0 := hm'.symm
      omega
    have c3 : cBool (m != 0) = 1#32 := by simp [cBool, hm0]
    rw [c3, show 1#32 &&& 1#32 = 1#32 from rfl, BitVec.one_mul, if_neg h0]
    exact toNat_renormalized h0 (Nat.lt_of_not_le h1) hm'

/-- `wide` does not change the value. -/
theorem mag_wide (n : Nat) : mag 23 (wide n) = mag 10 n * 2 ^ 125 := by
  unfold wide
  split
  · next h1 =>
    have hd : 2 ^ 13 * (n + 112 * 2 ^ 10) / 2 ^ 23 - 1 = n / 2 ^ 10 - 1 + 112 := by omega
    have hm : 2 ^ 13 * (n + 112 * 2 ^ 10) % 2 ^ 23 = 2 ^ 13 * (n % 2 ^ 10) := by omega
    rw [mag_of_le (by omega), mag_of_le h1, hd, hm, Nat.pow_add 2 (n / 2 ^ 10 - 1)]
    ring
  · next h1 =>
    split
    · next h0 => rw [h0]; simp
    · next h0 =>
      have h1' := Nat.lt_of_not_le h1
      have hk : n.log2 < 10 := (Nat.log2_lt h0).mpr h1'
      obtain ⟨y, hy⟩ : ∃ y, n * 2 ^ (23 - n.log2) = y := ⟨_, rfl⟩
      have hle : 2 ^ 23 ≤ y := by
        calc 2 ^ 23 = 2 ^ n.log2 * 2 ^ (23 - n.log2) := by
              rw [← Nat.pow_add, show n.log2 + (23 - n.log2) = 23 by omega]
          _ ≤ y := hy ▸ Nat.mul_le_mul_right _ (Nat.log2_self_le h0)
      have hlt : y < 2 ^ 24 := hy ▸ renormalized_lt (by omega)
      have hd : (2 ^ 23 * (n.log2 + 103) + y % 2 ^ 23) / 2 ^ 23 - 1 = n.log2 + 102 := by omega
      have hm : 2 ^ 23 + (2 ^ 23 * (n.log2 + 103) + y % 2 ^ 23) % 2 ^ 23 = y := by omega
      rw [hy, mag_of_le (by omega), hd, hm, mag_of_lt h1', ← hy, Nat.mul_assoc, ← Nat.pow_add,
        show 23 - n.log2 + (n.log2 + 102) = 125 by omega]

/-! ## Values -/

/-- The magnitudes of the half format. -/
def halfMag (n : Nat) : ℚ := mag 10 n / 2 ^ 24

theorem halfMag_strictMono : StrictMono halfMag := fun m n h => by
  have := mag_strictMono 10 h
  unfold halfMag
  gcongr

@[simp] theorem halfMag_zero : halfMag 0 = 0 := by simp [halfMag]

theorem halfMag_nonneg (n : Nat) : 0 ≤ halfMag n := by unfold halfMag; positivity

/-- The magnitude of a single-precision code. -/
def floatMag (n : Nat) : ℚ := mag 23 n / 2 ^ 149

theorem floatMag_strictMono : StrictMono floatMag := fun m n h => by
  have := mag_strictMono 23 h
  unfold floatMag
  gcongr

theorem floatMag_nonneg (n : Nat) : 0 ≤ floatMag n := by unfold floatMag; positivity

theorem floatValue_eq (x : BitVec 32) :
    floatValue x = if x.msb then -floatMag (x.toNat % 2 ^ 31) else floatMag (x.toNat % 2 ^ 31) := by
  unfold floatValue floatMag
  split <;> ring

theorem floatMag_wide (n : Nat) : floatMag (wide n) = halfMag n := by
  rw [floatMag, halfMag, mag_wide n]
  push_cast
  ring

/-- **The half format**: sign and magnitude. -/
theorem halfValue_eq (h : BitVec 16) :
    halfValue h = if h.msb then -halfMag (h.toNat % 2 ^ 15) else halfMag (h.toNat % 2 ^ 15) := by
  have hn : h.toNat % 2 ^ 15 < 2 ^ 15 := Nat.mod_lt _ (by decide)
  have hw := wide_lt hn
  have hf := toNat_halfToFloat h
  have hlt := h.isLt
  have hmod : (halfToFloat h).toNat % 2 ^ 31 = wide (h.toNat % 2 ^ 15) := by omega
  have hmsb : (halfToFloat h).msb = h.msb := by
    rw [msb_eq, msb_half]
    exact decide_eq_decide.mpr (by omega)
  rw [halfValue, floatValue_eq, hmod, floatMag_wide, hmsb]

end FpgaQuat.Half
