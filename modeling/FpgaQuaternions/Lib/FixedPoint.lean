import Mathlib

/-!
# Signed fixed-point words with an index range

`Sfixed hi lo` is an array of bits indexed `hi downto lo`, read in two's
complement: bit `i` weighs `2 ^ i`, the top bit its negative.  What matters
about such arrays in a hardware design:

* `mul`: the product of `hi downto lo` and `hi' downto lo'` is exact and has the
  range `hi + hi' + 1 downto lo + lo'` (`toInt_mul`);
* `copy`: an assignment between arrays of one length moves bits by position, so
  it keeps the integer and moves the binary point (`value_copy`);
* `slice`: taking the top bits rounds towards minus infinity (`toInt_slice_top`).
-/

namespace FixedPoint

/-! ## Bits of a vector -/

/-- Assign one bit of a vector. -/
def setBit {w : Nat} (x : BitVec w) (n : Nat) (b : Bool) : BitVec w :=
  if b then x ||| BitVec.twoPow w n else x &&& ~~~ BitVec.twoPow w n

theorem getLsbD_setBit {w : Nat} (x : BitVec w) (n m : Nat) (b : Bool) (hn : n < w) :
    (setBit x n b).getLsbD m = if m = n then b else x.getLsbD m := by
  have hnm : n = m ↔ m = n := eq_comm
  cases b with
  | true =>
    simp only [setBit, if_true, BitVec.getLsbD_or, BitVec.getLsbD_twoPow, hn, decide_true,
      Bool.true_and, hnm]
    by_cases h : m = n <;> simp [h]
  | false =>
    simp only [setBit, Bool.false_eq_true, if_false, BitVec.getLsbD_and, BitVec.getLsbD_not,
      BitVec.getLsbD_twoPow, hn, decide_true, Bool.true_and, hnm]
    by_cases h : m = n
    · simp [h]
    · by_cases hm : m < w
      · simp [h, hm]
      · simp [h, BitVec.getLsbD_of_ge x m (by omega)]

/-! ## Arrays over an index range -/

/-- Number of bits of the range `hi downto lo`. -/
def width (hi lo : Int) : Nat := (hi - lo + 1).toNat

/-- An array of bits indexed `hi downto lo`. -/
@[ext] structure Sfixed (hi lo : Int) where
  bits : BitVec (width hi lo)
deriving DecidableEq, Repr

namespace Sfixed

variable {hi lo hi' lo' : Int}

/-- The two's-complement integer of the bits, the binary point ignored. -/
def toInt (x : Sfixed hi lo) : Int := x.bits.toInt

/-- The number the word stands for. -/
def value (x : Sfixed hi lo) : ℚ := x.toInt * (2 : ℚ) ^ lo

instance : Zero (Sfixed hi lo) := ⟨⟨0⟩⟩

theorem toInt_inj {x y : Sfixed hi lo} : x.toInt = y.toInt ↔ x = y := by
  rw [toInt, toInt, BitVec.toInt_inj, Sfixed.ext_iff]

/-! ## Bits by index -/

/-- The element at index `i`. -/
def get (x : Sfixed hi lo) (i : Int) : Bool := x.bits.getLsbD (i - lo).toNat

/-- Assign one element. -/
def set (x : Sfixed hi lo) (i : Int) (b : Bool) : Sfixed hi lo :=
  ⟨setBit x.bits (i - lo).toNat b⟩

theorem get_set (x : Sfixed hi lo) (i j : Int) (b : Bool) (hi1 : lo ≤ i) (hi2 : i ≤ hi)
    (hj : lo ≤ j) : (x.set i b).get j = if j = i then b else x.get j := by
  have hij : (j - lo).toNat = (i - lo).toNat ↔ j = i := by omega
  simp only [set, get, getLsbD_setBit x.bits (i - lo).toNat _ b (by unfold width; omega), hij]

/-- Two arrays with the same elements are equal. -/
theorem ext_get {x y : Sfixed hi lo} (h : ∀ i, lo ≤ i → i ≤ hi → x.get i = y.get i) : x = y := by
  apply Sfixed.ext
  apply BitVec.eq_of_getLsbD_eq
  intro n hn
  have hn' : (n : Int) ≤ hi - lo := by unfold width at hn; omega
  have := h (lo + n) (by omega) (by omega)
  simpa [get] using this

/-! ## Product, positional copy, slice -/

/-- The product, one bit longer than the two factors together, so never out of range. -/
def mul (x : Sfixed hi lo) (y : Sfixed hi' lo') : Sfixed (hi + hi' + 1) (lo + lo') :=
  ⟨BitVec.ofInt _ (x.toInt * y.toInt)⟩

/-- Assignment to an array of another index range: the bits move by position. -/
def copy (x : Sfixed hi lo) (hi' lo' : Int) : Sfixed hi' lo' := ⟨x.bits.setWidth _⟩

/-- The elements `hi' downto lo'` of an array. -/
def slice (x : Sfixed hi lo) (hi' lo' : Int) : Sfixed hi' lo' :=
  ⟨x.bits.extractLsb' (lo' - lo).toNat _⟩

theorem toInt_lt (x : Sfixed hi lo) (n : Nat) (hn : width hi lo = n + 1) : x.toInt < 2 ^ n := by
  have h := @BitVec.toInt_lt _ x.bits
  have e : width hi lo - 1 = n := by omega
  rwa [e] at h

theorem le_toInt (x : Sfixed hi lo) (n : Nat) (hn : width hi lo = n + 1) : -2 ^ n ≤ x.toInt := by
  have h := BitVec.le_toInt x.bits
  have e : width hi lo - 1 = n := by omega
  rwa [e] at h

/-- A product of two words of `m + 1` and `n + 1` bits is at most `2 ^ (m + n)` in size. -/
theorem mul_bounds {a b : Int} {m n : Nat} (ha : -2 ^ m ≤ a) (ha' : a ≤ 2 ^ m) (hb : -2 ^ n ≤ b)
    (hb' : b ≤ 2 ^ n) : -2 ^ (m + n) ≤ a * b ∧ a * b ≤ 2 ^ (m + n) := by
  have h : |a * b| ≤ 2 ^ (m + n) := by
    rw [abs_mul, pow_add]
    exact mul_le_mul (abs_le.mpr ⟨ha, ha'⟩) (abs_le.mpr ⟨hb, hb'⟩) (abs_nonneg _) (by positivity)
  exact abs_le.mp h

/-- **The product is exact.** -/
theorem toInt_mul (x : Sfixed hi lo) (y : Sfixed hi' lo') (h : lo ≤ hi) (h' : lo' ≤ hi') :
    (x.mul y).toInt = x.toInt * y.toInt := by
  obtain ⟨m, hm⟩ : ∃ m, width hi lo = m + 1 := ⟨(hi - lo).toNat, by unfold width; omega⟩
  obtain ⟨n, hn⟩ : ∃ n, width hi' lo' = n + 1 := ⟨(hi' - lo').toNat, by unfold width; omega⟩
  have hw : width (hi + hi' + 1) (lo + lo') = m + n + 1 + 1 := by unfold width at *; omega
  obtain ⟨hl, hu⟩ := mul_bounds (x.le_toInt m hm) (x.toInt_lt m hm).le (y.le_toInt n hn)
    (y.toInt_lt n hn).le
  have hpow : (2 : Int) ^ (m + n + 1) = 2 * 2 ^ (m + n) := by ring
  have hpos : (0 : Int) < 2 ^ (m + n) := by positivity
  simp only [mul, toInt] at *
  apply BitVec.toInt_ofInt_eq_self (by omega)
  · rw [hw, Nat.add_sub_cancel]; omega
  · rw [hw, Nat.add_sub_cancel]; omega

/-- A positional copy between arrays of one length keeps the integer. -/
theorem toInt_copy (x : Sfixed hi lo) (hi' lo' : Int) (h : width hi' lo' = width hi lo) :
    (x.copy hi' lo').toInt = x.toInt := by
  simp only [copy, toInt]
  rw [BitVec.toInt_eq_toNat_cond, BitVec.toInt_eq_toNat_cond, BitVec.toNat_setWidth, h,
    Nat.mod_eq_of_lt x.bits.isLt]

/-- A positional copy moves the binary point. -/
theorem value_copy (x : Sfixed hi lo) (hi' lo' : Int) (h : width hi' lo' = width hi lo) :
    (x.copy hi' lo').value = x.value * 2 ^ (lo' - lo) := by
  simp only [value, toInt_copy x hi' lo' h]
  rw [mul_assoc, ← zpow_add₀ (by norm_num : (2 : ℚ) ≠ 0), add_sub_cancel]

/-- The top `m` bits of `m + k` bits are the integer divided by `2 ^ k`, rounded down. -/
theorem toInt_extractLsb'_top {w m : Nat} (x : BitVec w) (k : Nat) (hw : w = m + k) (hm : 0 < m) :
    (x.extractLsb' k m).toInt = x.toInt / 2 ^ k := by
  subst hw
  have hx := x.isLt
  have hpow : 2 ^ (m + k) = 2 ^ m * 2 ^ k := Nat.pow_add 2 m k
  have hdiv : x.toNat / 2 ^ k < 2 ^ m := by
    rw [Nat.div_lt_iff_lt_mul (Nat.two_pow_pos k), ← hpow]; exact hx
  obtain ⟨n, rfl⟩ : ∃ n, m = n + 1 := ⟨m - 1, by omega⟩
  have hhalf : 2 * x.toNat < 2 ^ (n + 1 + k) ↔ 2 * (x.toNat / 2 ^ k) < 2 ^ (n + 1) := by
    have h1 : 2 * x.toNat < 2 ^ (n + 1 + k) ↔ x.toNat < 2 ^ n * 2 ^ k := by
      rw [hpow, pow_succ]; constructor <;> intro h <;> nlinarith
    have h2 : 2 * (x.toNat / 2 ^ k) < 2 ^ (n + 1) ↔ x.toNat / 2 ^ k < 2 ^ n := by
      rw [pow_succ]; omega
    rw [h1, h2, Nat.div_lt_iff_lt_mul (Nat.two_pow_pos k)]
  rw [BitVec.toInt_eq_toNat_cond, BitVec.toInt_eq_toNat_cond, BitVec.extractLsb'_toNat,
    Nat.shiftRight_eq_div_pow, Nat.mod_eq_of_lt hdiv]
  by_cases h : 2 * x.toNat < 2 ^ (n + 1 + k)
  · rw [if_pos h, if_pos (hhalf.mp h)]; push_cast; rfl
  · rw [if_neg h, if_neg (fun hc => h (hhalf.mpr hc)), hpow]
    push_cast
    rw [sub_eq_add_neg, sub_eq_add_neg, ← neg_mul, Int.add_mul_ediv_right _ _ (by positivity)]

/-- **Slicing off the low bits rounds down.** -/
theorem toInt_slice_top (x : Sfixed hi lo) (lo' : Int) (h : lo ≤ lo') (h' : lo' ≤ hi) :
    (x.slice hi lo').toInt = x.toInt / 2 ^ (lo' - lo).toNat := by
  simp only [slice, toInt]
  exact toInt_extractLsb'_top _ _ (by unfold width; omega) (by unfold width; omega)

end Sfixed

end FixedPoint
