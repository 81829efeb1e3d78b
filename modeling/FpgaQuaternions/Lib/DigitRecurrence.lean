import Mathlib

/-!
# Digit recurrences

A quotient and a square root, found one binary digit after the other, the highest first.

    division      the digit of weight `2 ^ c` is 1 where the divisor goes into what is left
    square root   the approximation moves up or down by half of the last step

Both state what holds between two digits: `Partial` and `Divided` around a digit of the quotient,
`Brackets` for the root.
-/

namespace DigitRecurrence

variable {n d c q v r b : Nat}

/-! ## Division -/

/-- Before the digit of weight `2 ^ c`: `v` is what is left, in units of that weight. -/
structure Partial (n d c q v : Nat) : Prop where
  eq : n = q * d + v * 2 ^ c
  lt : v < 2 * d
  dvd : 2 ^ (c + 1) ∣ q

/-- After it. -/
structure Divided (n d c q r : Nat) : Prop where
  eq : n = q * d + r * 2 ^ c
  lt : r < d
  dvd : 2 ^ c ∣ q

theorem Partial.start (h : n < 2 * d) (c : Nat) : Partial (n * 2 ^ c) d c 0 n :=
  ⟨by rw [Nat.zero_mul, Nat.zero_add], h, Nat.dvd_zero _⟩

theorem Partial.zero (h : Partial n d c q v) (hlt : v < d) : Divided n d c q v :=
  ⟨h.eq, hlt, (Nat.pow_dvd_pow 2 (Nat.le_succ c)).trans h.dvd⟩

theorem Partial.one (h : Partial n d c q v) (hle : d ≤ v) : Divided n d c (q + 2 ^ c) (v - d) where
  eq := by
    have hsplit : v * 2 ^ c = d * 2 ^ c + (v - d) * 2 ^ c := by
      rw [← Nat.add_mul, Nat.add_sub_cancel' hle]
    rw [h.eq, hsplit, Nat.add_mul, Nat.mul_comm (2 ^ c) d, Nat.add_assoc]
  lt := by
    have := h.lt
    omega
  dvd := Nat.dvd_add ((Nat.pow_dvd_pow 2 (Nat.le_succ c)).trans h.dvd) dvd_rfl

theorem Divided.next (h : Divided n d (c + 1) q r) : Partial n d c q (2 * r) where
  eq := by rw [h.eq, Nat.pow_succ, Nat.mul_comm (2 ^ c), ← Nat.mul_assoc, Nat.mul_comm r 2]
  lt := Nat.mul_lt_mul_of_pos_left h.lt (by omega)
  dvd := h.dvd

/-- **After the last digit.** -/
theorem Divided.done (h : Divided n d 0 q r) : q = n / d ∧ r = n % d := by
  have heq := h.eq
  have hlt := h.lt
  rw [Nat.pow_zero, Nat.mul_one] at heq
  constructor
  · rw [heq, Nat.add_comm, Nat.add_mul_div_right _ _ (by omega), Nat.div_eq_of_lt hlt, Nat.zero_add]
  · rw [heq, Nat.add_comm, Nat.add_mul_mod_self_right, Nat.mod_eq_of_lt hlt]

/-! ## Square root -/

/-- The root of `n` is less than a step `b` from `r`, above or below; the approximations are whole
steps. -/
structure Brackets (n r b : Nat) : Prop where
  below : r ≤ n.sqrt + b
  above : n.sqrt < r + b
  dvd : b ∣ r

theorem Brackets.start (h : n < b * b) : Brackets n 0 b :=
  ⟨Nat.zero_le _, (Nat.zero_add b).symm ▸ Nat.sqrt_lt.mpr h, Nat.dvd_zero _⟩

theorem Brackets.down (h : Brackets n r (2 * b)) (hlt : n < r * r) : b ≤ r ∧ Brackets n (r - b) b := by
  have hsqrt := Nat.sqrt_lt.mpr hlt
  have hbelow := h.below
  have hle : 2 * b ≤ r := Nat.le_of_dvd (by omega) h.dvd
  refine ⟨by omega, ?_, ?_, Nat.dvd_sub ((Nat.dvd_mul_left b 2).trans h.dvd) dvd_rfl⟩ <;> omega

theorem Brackets.up (h : Brackets n r (2 * b)) (hle : r * r ≤ n) : Brackets n (r + b) b := by
  have hsqrt := Nat.le_sqrt.mpr hle
  have habove := h.above
  refine ⟨?_, ?_, Nat.dvd_add ((Nat.dvd_mul_left b 2).trans h.dvd) dvd_rfl⟩ <;> omega

/-- The next approximation stays below what bounds the root. -/
theorem Brackets.up_lt (h : Brackets n r (2 * b)) (hle : r * r ≤ n) {m : Nat} (hm : 2 * b ∣ m) (hn : n < m * m)
    (hb : 0 < b) : r + b < m := by
  have hr : r < m := (Nat.le_sqrt.mpr hle).trans_lt (Nat.sqrt_lt.mpr hn)
  obtain ⟨x, hx⟩ := h.dvd
  obtain ⟨y, rfl⟩ := hm
  have hxy : x < y := by
    rw [hx] at hr
    exact Nat.lt_of_mul_lt_mul_left hr
  have : 2 * b * (x + 1) ≤ 2 * b * y := Nat.mul_le_mul_left _ hxy
  rw [Nat.mul_add, ← hx] at this
  omega

/-- **At the last step** the root is the approximation or the number below it. -/
theorem Brackets.root (h : Brackets n r 1) : n.sqrt = if n < r * r then r - 1 else r := by
  have hbelow := h.below
  have habove := h.above
  split
  next hlt =>
    have := Nat.sqrt_lt.mpr hlt
    omega
  next hle =>
    have := Nat.le_sqrt.mpr (Nat.le_of_not_lt hle)
    omega

end DigitRecurrence
