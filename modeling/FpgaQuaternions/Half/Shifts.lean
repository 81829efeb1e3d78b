import FpgaQuaternions.Half.Values

/-!
# The shifts that the conversions evaluate

`half_to_float` and `float_to_half` once more, each shift recorded with its count.  In C
a shift of a 32-bit word by 32 or more is undefined, also where the term is multiplied
by 0 afterwards.

    half_to_float    the count `150 - v` is legal unless the mantissa is zero
    float_to_half    the count `125 - e` is legal from the exponent 94 to 125   (shifts_legal_iff)
-/

namespace FpgaQuat.Half

/-- A value, and the counts of the shifts evaluated on the way. -/
abbrev Shifting := Writer (List (BitVec 32))

namespace Shifting

variable {α : Type}

def value (p : Shifting α) : α := (Id.run p.run).1

def counts (p : Shifting α) : List (BitVec 32) := (Id.run p.run).2

/-- Every count is legal for a 32-bit operand. -/
def Legal (p : Shifting α) : Prop := ∀ count ∈ p.counts, count.toNat ≤ 31

end Shifting

def shl (v count : BitVec 32) : Shifting (BitVec 32) := do
  tell [count]
  return v <<< count.toNat

def shr (v count : BitVec 32) : Shifting (BitVec 32) := do
  tell [count]
  return v >>> count.toNat

def halfToFloatShifts (x : BitVec 16) : Shifting (BitVec 32) := do
  let x := x.setWidth 32
  let e ← shr (x &&& 0x7C00#32) 10#32
  let m ← shl (x &&& 0x03FF#32) 13#32
  let v ← shr (asUintFloat m) 23#32
  let sign ← shl (x &&& 0x8000#32) 16#32
  let normalized ← shl (e + 112#32) 23#32
  let exponent ← shl (v - 37#32) 23#32
  let mantissa ← shl m (150#32 - v)
  return sign
    ||| (cBool (e != 0) * (normalized ||| m))
    ||| ((cBool (e == 0) &&& cBool (m != 0)) * (exponent ||| (mantissa &&& 0x007FE000#32)))

def floatToHalfShifts (x : BitVec 32) : Shifting (BitVec 16) := do
  let b := x + 0x00001000#32
  let e ← shr (b &&& 0x7F800000#32) 23#32
  let m := b &&& 0x007FFFFF#32
  let sign ← shr (b &&& 0x80000000#32) 16#32
  let exponent ← shl (e - 112#32) 10#32
  let mantissa ← shr m 13#32
  let denormalized ← shr (0x007FF000#32 + m) (125#32 - e)
  let rounded ← shr (denormalized + 1#32) 1#32
  return (sign
    ||| (cBool (112#32 < e) * ((exponent &&& 0x7C00#32) ||| mantissa))
    ||| ((cBool (e < 113#32) &&& cBool (101#32 < e)) * rounded)
    ||| (cBool (143#32 < e) * 0x7FFF#32)).setWidth 16

/-! ## The same functions -/

theorem value_halfToFloatShifts (x : BitVec 16) : (halfToFloatShifts x).value = halfToFloat x := rfl

theorem value_floatToHalfShifts (x : BitVec 32) : (floatToHalfShifts x).value = floatToHalf x := rfl

theorem counts_halfToFloatShifts (x : BitVec 16) : (halfToFloatShifts x).counts =
    [10#32, 13#32, 23#32, 16#32, 23#32, 23#32,
      150#32 - asUintFloat ((x.setWidth 32 &&& 0x03FF#32) <<< 13) >>> 23] := rfl

theorem counts_floatToHalfShifts (x : BitVec 32) : (floatToHalfShifts x).counts =
    [23#32, 16#32, 10#32, 13#32, 125#32 - ((x + 0x00001000#32) &&& 0x7F800000#32) >>> 23, 1#32] := rfl

/-! ## When they are legal -/

/-- Every other count of `half_to_float` is a constant. -/
theorem legal_half_iff_count (x : BitVec 16) : (halfToFloatShifts x).Legal ↔
    (150#32 - asUintFloat ((x.setWidth 32 &&& 0x03FF#32) <<< 13) >>> 23).toNat ≤ 31 := by
  rw [Shifting.Legal, counts_halfToFloatShifts]
  simp

/-- The leading one of a mantissa is in bit 13 to 22, that of zero nowhere. -/
theorem legal_halfToFloat_iff (x : BitVec 16) : (halfToFloatShifts x).Legal ↔ x &&& 0x03FF#16 ≠ 0 := by
  have hlow : (x &&& 0x03FF#16).toNat = x.toNat % 2 ^ 10 := by
    rw [BitVec.toNat_and]
    exact Nat.and_two_pow_sub_one_eq_mod _ 10
  have hm := toNat_mantissa x
  rw [legal_half_iff_count]
  generalize (x.setWidth 32 &&& 0x03FF#32) <<< 13 = m at hm
  by_cases h0 : x.toNat % 2 ^ 10 = 0
  · have hm0 : m = 0#32 := BitVec.eq_of_toNat_eq (by rw [hm, h0]; rfl)
    have hx : x &&& 0x03FF#16 = 0 := BitVec.eq_of_toNat_eq (by rw [hlow, h0]; rfl)
    rw [hm0]
    exact iff_of_false (by decide) (not_not_intro hx)
  · have hm0 : m ≠ 0 := by
      rintro rfl
      have : x.toNat % 2 ^ 10 * 2 ^ 13 = 0 := hm.symm
      omega
    have hx : x &&& 0x03FF#16 ≠ 0 := by
      intro hx
      rw [hx] at hlow
      exact h0 hlow.symm
    have hv : (asUintFloat m >>> 23).toNat = (x.toNat % 2 ^ 10).log2 + 140 := by
      rw [toNat_asUintFloat hm0 (by omega), hm, log2_mul_two_pow h0]
    refine iff_of_true ?_ hx
    rw [BitVec.toNat_sub, hv]
    have hlog : (x.toNat % 2 ^ 10).log2 < 10 := (Nat.log2_lt h0).mpr (Nat.mod_lt _ (by decide))
    have : (150#32).toNat = 150 := rfl
    omega

theorem legal_float_iff_count (x : BitVec 32) : (floatToHalfShifts x).Legal ↔
    (125#32 - ((x + 0x00001000#32) &&& 0x7F800000#32) >>> 23).toNat ≤ 31 := by
  rw [Shifting.Legal, counts_floatToHalfShifts]
  simp

/-- The exponent, once the rounding constant is added, has to be one of 94 to 125. -/
theorem legal_floatToHalf_iff (x : BitVec 32) : (floatToHalfShifts x).Legal ↔
    0x2EFFF000#32 ≤ x &&& 0x7FFFFFFF#32 ∧ x &&& 0x7FFFFFFF#32 < 0x3EFFF000#32 := by
  have hlow : (x &&& 0x7FFFFFFF#32).toNat = x.toNat % 2 ^ 31 := by
    rw [BitVec.toNat_and]
    exact Nat.and_two_pow_sub_one_eq_mod _ 31
  have hb : (x + 0x00001000#32).toNat = (x.toNat + 0x1000) % 2 ^ 32 := BitVec.toNat_add _ _
  have he := toNat_field (x + 0x00001000#32)
  rw [hb] at he
  have h125 : (125#32).toNat = 125 := rfl
  have hfrom : (0x2EFFF000#32).toNat = 94 * 2 ^ 23 - 0x1000 := rfl
  have hto : (0x3EFFF000#32).toNat = 126 * 2 ^ 23 - 0x1000 := rfl
  rw [legal_float_iff_count, BitVec.toNat_sub, he, h125, BitVec.le_def, BitVec.lt_def, hlow, hfrom, hto]
  have hx := x.isLt
  omega

/-- **When the conversions shift by legal amounts only.** -/
theorem shifts_legal_iff (x : BitVec 16) (y : BitVec 32) :
    ((halfToFloatShifts x).Legal ↔ x &&& 0x03FF#16 ≠ 0) ∧
    ((floatToHalfShifts y).Legal ↔ 0x2EFFF000#32 ≤ y &&& 0x7FFFFFFF#32 ∧ y &&& 0x7FFFFFFF#32 < 0x3EFFF000#32) :=
  ⟨legal_halfToFloat_iff x, legal_floatToHalf_iff y⟩

/-- Zero is shifted by 150, and one by `2 ^ 32 - 2`. -/
theorem zero_and_one_shift_too_far :
    ¬ (halfToFloatShifts 0x0000#16).Legal ∧ ¬ (floatToHalfShifts 0x3F800000#32).Legal := by
  rw [legal_half_iff_count, legal_float_iff_count]
  decide

end FpgaQuat.Half
