import Mathlib

/-!
# Magnitudes of a binary floating-point format, and rounding to a grid

`mag p n` is the magnitude with the code `n` in a format with `p` fraction bits and
gradual underflow, counted in units of the smallest denormal: it is strictly
increasing in the code (`mag_strictMono`) and affine on a binade (`mag_add`).

`RoundsUp H v n` says that `n` is the point of the grid `H` nearest to `v`, the upper
one of two that are equally near.  It is monotone (`RoundsUp.mono`), it fixes the grid
(`RoundsUp.self`), nothing is nearer (`RoundsUp.nearest`) and only the point below can
be as near (`RoundsUp.tie`).
-/

namespace Minifloat

/-! ## Codes and magnitudes -/

/-- Exponent `n / 2 ^ p`, fraction `n % 2 ^ p`. -/
def mag (p n : Nat) : Nat :=
  if n / 2 ^ p = 0 then n % 2 ^ p else (2 ^ p + n % 2 ^ p) * 2 ^ (n / 2 ^ p - 1)

theorem mag_of_lt {p n : Nat} (h : n < 2 ^ p) : mag p n = n := by
  rw [mag, if_pos (Nat.div_eq_of_lt h), Nat.mod_eq_of_lt h]

theorem mag_of_le {p n : Nat} (h : 2 ^ p ≤ n) :
    mag p n = (2 ^ p + n % 2 ^ p) * 2 ^ (n / 2 ^ p - 1) :=
  if_neg (Nat.div_pos h (Nat.two_pow_pos p)).ne'

@[simp] theorem mag_zero (p : Nat) : mag p 0 = 0 := mag_of_lt (Nat.two_pow_pos p)

theorem div_of_binade {p n r : Nat} (h : n % 2 ^ p + r < 2 ^ p) : (n + r) / 2 ^ p = n / 2 ^ p := by
  have hr : r < 2 ^ p := by omega
  rw [Nat.add_div (Nat.two_pow_pos p), Nat.div_eq_of_lt hr, Nat.mod_eq_of_lt hr, if_neg (by omega)]
  rfl

/-- The distance to the next magnitude. -/
theorem mag_succ (p n : Nat) : mag p (n + 1) = mag p n + 2 ^ (n / 2 ^ p - 1) := by
  have hp := Nat.two_pow_pos p
  by_cases h : n < 2 ^ p
  · rw [mag_of_lt h, Nat.div_eq_of_lt h, Nat.zero_sub, Nat.pow_zero]
    by_cases h' : n + 1 < 2 ^ p
    · exact mag_of_lt h'
    · have he : n + 1 = 2 ^ p := by omega
      rw [he, mag_of_le le_rfl, Nat.mod_self, Nat.div_self hp, Nat.sub_self, Nat.pow_zero]
      omega
  · have h := Nat.le_of_not_lt h
    rw [mag_of_le h, mag_of_le (show 2 ^ p ≤ n + 1 by omega)]
    have hd : 0 < n / 2 ^ p := Nat.div_pos h hp
    by_cases hm : n % 2 ^ p + 1 < 2 ^ p
    · -- the same binade
      have hmod : (n + 1) % 2 ^ p = n % 2 ^ p + 1 := by
        rw [Nat.add_mod, Nat.mod_eq_of_lt (show 1 < 2 ^ p by omega), Nat.mod_eq_of_lt hm]
      rw [div_of_binade hm, hmod]
      ring
    · -- the first code of the next one
      have hm' : n % 2 ^ p + 1 = 2 ^ p := by
        have := Nat.mod_lt n hp
        omega
      have he : n + 1 = 2 ^ p * (n / 2 ^ p + 1) := by
        have := Nat.div_add_mod n (2 ^ p)
        rw [Nat.mul_add]
        omega
      rw [he, Nat.mul_mod_right, Nat.mul_div_cancel_left _ hp]
      obtain ⟨d, hd'⟩ : ∃ d, n / 2 ^ p = d + 1 := ⟨n / 2 ^ p - 1, by omega⟩
      rw [hd', Nat.add_sub_cancel, Nat.add_sub_cancel, Nat.add_zero, Nat.pow_succ]
      calc 2 ^ p * (2 ^ d * 2) = (2 ^ p + (n % 2 ^ p + 1)) * 2 ^ d := by rw [hm']; ring
        _ = (2 ^ p + n % 2 ^ p) * 2 ^ d + 2 ^ d := by ring

theorem mag_strictMono (p : Nat) : StrictMono (mag p) :=
  strictMono_nat_of_lt_succ fun n => by
    rw [mag_succ]
    exact Nat.lt_add_of_pos_right (Nat.two_pow_pos _)

/-- Up to the end of its binade a magnitude is affine in the code. -/
theorem mag_add (p n r : Nat) (h : n % 2 ^ p + r ≤ 2 ^ p) :
    mag p (n + r) = mag p n + r * 2 ^ (n / 2 ^ p - 1) := by
  have hp := Nat.two_pow_pos p
  induction r with
  | zero => simp
  | succ r ih =>
    rw [← Nat.add_assoc, mag_succ, ih (by omega), div_of_binade (by omega)]
    ring

/-! ## Rounding to a grid -/

section
variable {K : Type} [CommRing K] [LinearOrder K] [IsStrictOrderedRing K] {H : Nat → K} {v w : K}
  {n m k : Nat}

structure RoundsUp (H : Nat → K) (v : K) (n : Nat) : Prop where
  below : ∀ m, m + 1 = n → H m + H n ≤ 2 * v
  above : 2 * v < H n + H (n + 1)

/-- A grid point is where it is. -/
theorem RoundsUp.self (hH : StrictMono H) (n : Nat) : RoundsUp H (H n) n where
  below m hm := by
    have := hH (show m < n by omega)
    linarith
  above := by
    have := hH (Nat.lt_succ_self n)
    linarith

theorem RoundsUp.lower (hH : StrictMono H) (h : RoundsUp H v n) (hk : k < n) : H k + H n ≤ 2 * v := by
  obtain ⟨m, rfl⟩ : ∃ m, n = m + 1 := ⟨n - 1, by omega⟩
  have hm := h.below m rfl
  have := hH.monotone (show k ≤ m by omega)
  linarith

theorem RoundsUp.upper (hH : StrictMono H) (h : RoundsUp H v n) (hk : n < k) : 2 * v < H n + H k := by
  have := h.above
  have := hH.monotone (show n + 1 ≤ k by omega)
  linarith

/-- **Rounding is monotone.** -/
theorem RoundsUp.mono (hH : StrictMono H) (hn : RoundsUp H v n) (hm : RoundsUp H w m) (h : v ≤ w) :
    n ≤ m := by
  by_contra hlt
  have hlt := Nat.lt_of_not_le hlt
  have h1 := hn.lower hH hlt
  have h2 := hm.upper hH hlt
  linarith

theorem RoundsUp.unique (hH : StrictMono H) (hn : RoundsUp H v n) (hm : RoundsUp H v m) : n = m :=
  le_antisymm (hn.mono hH hm le_rfl) (hm.mono hH hn le_rfl)

/-- **No grid point is nearer.** -/
theorem RoundsUp.nearest (hH : StrictMono H) (h : RoundsUp H v n) (k : Nat) :
    |v - H n| ≤ |v - H k| := by
  rcases lt_trichotomy k n with hk | rfl | hk
  · have h1 := h.lower hH hk
    have h2 := hH hk
    rw [abs_le]
    constructor <;> cases abs_cases (v - H k) <;> linarith
  · exact le_rfl
  · have h1 := h.upper hH hk
    have h2 := hH hk
    rw [abs_le]
    constructor <;> cases abs_cases (v - H k) <;> linarith

/-- **Only the one below can be as near.** -/
theorem RoundsUp.tie (hH : StrictMono H) (h : RoundsUp H v n) (hk : |v - H k| = |v - H n|) :
    k = n ∨ (k + 1 = n ∧ 2 * v = H k + H n) := by
  rcases lt_trichotomy k n with hlt | rfl | hlt
  · have h1 := h.lower hH hlt
    have h2 := hH hlt
    have hv : 2 * v = H k + H n := by
      cases abs_cases (v - H k) <;> cases abs_cases (v - H n) <;> linarith
    refine Or.inr ⟨?_, hv⟩
    by_contra hne
    have h3 := h.lower hH (show k + 1 < n by omega)
    have h4 := hH (Nat.lt_succ_self k)
    linarith
  · exact Or.inl rfl
  · have h1 := h.upper hH hlt
    have h2 := hH hlt
    cases abs_cases (v - H k) <;> cases abs_cases (v - H n) <;> linarith

/-- The middle between two neighbours goes up. -/
theorem RoundsUp.of_mid (hH : StrictMono H) (hv : 2 * v = H k + H (k + 1)) : RoundsUp H v (k + 1) where
  below m hm := by
    obtain rfl : m = k := by omega
    exact hv.ge
  above := by
    have := hH (show k < k + 1 + 1 by omega)
    linarith

end

end Minifloat
