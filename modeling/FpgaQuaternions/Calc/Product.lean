import FpgaQuaternions.Calc.Clock

/-!
# The product slice of calc

`mult` is declared `1 downto -62` but takes a product of range `3 downto -60`, so
the copy moves the binary point by two places and the slice `1 downto -30` is the
product divided by `2 ^ 32`, not by `2 ^ 30`:

    (mult a b).value = a.value * b.value / 4                                  (value_mult)
    (productSlice a b).toInt = a.toInt * b.toInt / 2 ^ 32              (toInt_productSlice)

The slice never wraps (`productSlice_bounds`), keeps the sign of the product up to
rounding, and repeating it with one operand ends in 0 or -1 (`Absorbs`).
-/

namespace FpgaQuat.Calc

open FixedPoint

theorem word_bounds (w : Word) : -2 ^ 31 ≤ w.toInt ∧ w.toInt < 2 ^ 31 :=
  ⟨w.le_toInt 31 rfl, w.toInt_lt 31 rfl⟩

/-- The 64 bits of `mult` are the exact product. -/
theorem toInt_mult (a b : Word) : (mult a b).toInt = a.toInt * b.toInt := by
  unfold mult
  rw [Sfixed.toInt_copy (a.mul b) 1 (-62) rfl, Sfixed.toInt_mul a b (by decide) (by decide)]

/-- As a number in its declared format, `mult` is a quarter of the product. -/
theorem value_mult (a b : Word) : (mult a b).value = a.value * b.value / 4 := by
  unfold mult
  rw [Sfixed.value_copy (a.mul b) 1 (-62) rfl]
  simp only [Sfixed.value, Sfixed.toInt_mul a b (by decide) (by decide)]
  push_cast
  norm_num
  ring

theorem toInt_productSlice (a b : Word) : (productSlice a b).toInt = a.toInt * b.toInt / 2 ^ 32 := by
  unfold productSlice
  rw [Sfixed.toInt_slice_top _ _ (by decide) (by decide), toInt_mult]
  rfl

/-- The product of two words fits in 63 bits. -/
theorem product_bounds (a b : Word) :
    -2 ^ 62 ≤ a.toInt * b.toInt ∧ a.toInt * b.toInt ≤ 2 ^ 62 := by
  obtain ⟨ha, ha'⟩ := word_bounds a
  obtain ⟨hb, hb'⟩ := word_bounds b
  exact Sfixed.mul_bounds (m := 31) (n := 31) ha ha'.le hb hb'.le

/-- **A multiplication never wraps**: the slice keeps every bit above the rounding. -/
theorem productSlice_bounds (a b : Word) :
    -2 ^ 30 ≤ (productSlice a b).toInt ∧ (productSlice a b).toInt ≤ 2 ^ 30 := by
  have := product_bounds a b
  rw [toInt_productSlice]
  omega

theorem productSlice_neg_iff (a b : Word) : (productSlice a b).toInt < 0 ↔ a.toInt * b.toInt < 0 := by
  rw [toInt_productSlice]
  omega

theorem product_pos_of_productSlice_pos (a b : Word) (h : 0 < (productSlice a b).toInt) :
    0 < a.toInt * b.toInt := by
  rw [toInt_productSlice] at h
  omega

/-! ## Repeated multiplication -/

/-- Multiplying by `operand` leaves `accumulator` as it is. -/
def Absorbs (operand accumulator : Word) : Prop :=
  accumulator.toInt = 0 ∨ accumulator.toInt = -1 ∧ 0 < operand.toInt

instance (operand accumulator : Word) : Decidable (Absorbs operand accumulator) :=
  inferInstanceAs (Decidable (_ ∨ _))

/-- A multiplication at least halves the accumulator, up to rounding. -/
theorem productSlice_half (a b : Word) :
    -(|b.toInt| + 1) ≤ 2 * (productSlice a b).toInt ∧ 2 * (productSlice a b).toInt ≤ |b.toInt| := by
  obtain ⟨ha, ha'⟩ := word_bounds a
  have h : |a.toInt * b.toInt| ≤ 2 ^ 31 * |b.toInt| := by
    rw [abs_mul]
    exact mul_le_mul_of_nonneg_right (abs_le.mpr ⟨ha, ha'.le⟩) (abs_nonneg _)
  have := abs_le.mp h
  rw [toInt_productSlice]
  omega

theorem productSlice_eq_self_iff (a b : Word) : productSlice a b = b ↔ Absorbs a b := by
  rw [← Sfixed.toInt_inj, Absorbs]
  obtain ⟨ha, ha'⟩ := word_bounds a
  constructor
  · intro h
    have hh := productSlice_half a b
    rw [h] at hh
    have hb : b.toInt = 0 ∨ b.toInt = -1 := by
      rcases abs_cases b.toInt with ⟨e, -⟩ | ⟨e, -⟩ <;> omega
    rcases hb with hb | hb
    · exact Or.inl hb
    · rw [toInt_productSlice, hb] at h
      exact Or.inr ⟨hb, by omega⟩
  · rw [toInt_productSlice]
    rintro (hb | ⟨hb, hpos⟩)
    · simp [hb]
    · rw [hb]; omega

/-- How far an accumulator is from being absorbed. -/
def absorbRank (b : Word) : Nat :=
  b.toInt.natAbs + if b.toInt = 0 ∨ b.toInt = -1 then 0 else 1

theorem absorbRank_lt (a b : Word) :
    productSlice a b = b ∨ absorbRank (productSlice a b) < absorbRank b := by
  have hh := productSlice_half a b
  rw [← Sfixed.toInt_inj]
  unfold absorbRank
  generalize (productSlice a b).toInt = y at hh ⊢
  rcases abs_cases b.toInt with ⟨e, -⟩ | ⟨e, -⟩ <;> split <;> split <;> omega

/-- A map that either stays or goes down a rank returns to a point only by staying there. -/
theorem fixed_of_iterate {α : Type} (f : α → α) (rank : α → Nat)
    (h : ∀ x, f x = x ∨ rank (f x) < rank x) (n : Nat) (x : α) (hx : f^[n + 1] x = x) : f x = x := by
  have hle : ∀ n y, rank (f^[n] y) ≤ rank y := by
    intro n
    induction n with
    | zero => intro y; exact Nat.le_refl _
    | succ n ih =>
      intro y
      have := ih (f y)
      rw [Function.iterate_succ_apply]
      rcases h y with hy | hy
      · rw [hy] at this ⊢; exact this
      · omega
  rcases h x with hfx | hlt
  · exact hfx
  · have := hle n (f x)
    rw [← Function.iterate_succ_apply, hx] at this
    omega

/-- Three or more multiplications give what one gives only if the second changes nothing. -/
theorem productSlice_iterate_iff (a b : Word) (n : Nat) :
    (productSlice a)^[n + 2] b = productSlice a b ↔ Absorbs a (productSlice a b) := by
  rw [← productSlice_eq_self_iff, Function.iterate_succ_apply]
  constructor
  · exact fixed_of_iterate (productSlice a) absorbRank (absorbRank_lt a) n _
  · intro h
    exact Function.iterate_fixed h (n + 1)

end FpgaQuat.Calc
