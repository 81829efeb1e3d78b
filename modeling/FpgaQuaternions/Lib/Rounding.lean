import FpgaQuaternions.Lib.Minifloat

/-!
# Rounding to the nearest even

`RoundsEven H v n` says that `n` is the point of the grid `H` nearest to `v`, the even one of two
that are equally near.  It fixes the grid and picks one point (`RoundsEven.self`, `RoundsEven.unique`), it is
monotone, and nothing is nearer (`RoundsEven.nearest`).

A circuit sees of the distance to the point below a guard bit and whether anything is left behind
it.  That is enough (`RoundsEven.of_bits`):

    guard   half a step or more
    rest    neither on the point nor half way

`Bits.of_low` reads the two off the bits below the last place, with what was lost behind them.
-/

namespace Minifloat

section
variable {K : Type} [Field K] [LinearOrder K] [IsStrictOrderedRing K] {H : Nat → K} {v w : K} {n m k : Nat}

structure RoundsEven (H : Nat → K) (v : K) (n : Nat) : Prop where
  below : ∀ m, m + 1 = n → H m + H n < 2 * v ∨ H m + H n = 2 * v ∧ Even n
  above : 2 * v < H n + H (n + 1) ∨ 2 * v = H n + H (n + 1) ∧ Even n

theorem RoundsEven.self (hH : StrictMono H) (n : Nat) : RoundsEven H (H n) n where
  below m hm := by
    have := hH (show m < n by omega)
    left
    linarith
  above := by
    have := hH (Nat.lt_succ_self n)
    left
    linarith

theorem RoundsEven.lower (hH : StrictMono H) (h : RoundsEven H v n) (hk : k < n) : H k + H n ≤ 2 * v := by
  obtain ⟨m, rfl⟩ : ∃ m, n = m + 1 := ⟨n - 1, by omega⟩
  have hm : H m + H (m + 1) ≤ 2 * v := (h.below m rfl).elim le_of_lt fun h => h.1.le
  have := hH.monotone (show k ≤ m by omega)
  linarith

theorem RoundsEven.upper (hH : StrictMono H) (h : RoundsEven H v n) (hk : n < k) : 2 * v ≤ H n + H k := by
  have hn : 2 * v ≤ H n + H (n + 1) := h.above.elim le_of_lt fun h => h.1.le
  have := hH.monotone (show n + 1 ≤ k by omega)
  linarith

/-- **No grid point is nearer.** -/
theorem RoundsEven.nearest (hH : StrictMono H) (h : RoundsEven H v n) (k : Nat) : |v - H n| ≤ |v - H k| := by
  rcases lt_trichotomy k n with hk | rfl | hk
  · have h1 := h.lower hH hk
    have h2 := hH hk
    rw [abs_of_pos (show 0 < v - H k by linarith), abs_le]
    exact ⟨by linarith, by linarith⟩
  · exact le_rfl
  · have h1 := h.upper hH hk
    have h2 := hH hk
    rw [abs_of_neg (show v - H k < 0 by linarith), abs_le]
    exact ⟨by linarith, by linarith⟩

/-- **Rounding is monotone.** -/
theorem RoundsEven.mono (hH : StrictMono H) (hn : RoundsEven H v n) (hm : RoundsEven H w m) (h : v ≤ w) : n ≤ m := by
  by_contra hlt
  have hlt := Nat.lt_of_not_le hlt
  have h1 := hn.lower hH hlt
  have h2 := hm.upper hH hlt
  -- both are half way between the same two points, which cannot both be even
  have hmn : m + 1 = n := by
    by_contra hne
    have h3 := hn.lower hH (show m + 1 < n by omega)
    have h4 := hH (Nat.lt_succ_self m)
    linarith
  have hv : Even n := (hn.below m hmn).elim (fun h' => by linarith) And.right
  have hw : Even m := by
    refine hm.above.elim (fun h' => ?_) And.right
    rw [hmn] at h'
    linarith
  obtain ⟨x, hx⟩ := hv
  obtain ⟨y, hy⟩ := hw
  omega

theorem RoundsEven.unique (hH : StrictMono H) (hn : RoundsEven H v n) (hm : RoundsEven H v m) : n = m :=
  le_antisymm (hn.mono hH hm le_rfl) (hm.mono hH hn le_rfl)

/-! ## Guard and rest -/

/-- What the guard bit and the bits behind it say about a fraction of a step. -/
structure Bits (f : K) (guard rest : Bool) : Prop where
  nonneg : 0 ≤ f
  lt_one : f < 1
  guard : guard = true ↔ 1 ≤ 2 * f
  rest : rest = true ↔ f ≠ 0 ∧ 2 * f ≠ 1

/-- Less than one added to a natural number passes no other. -/
theorem cast_le_add_iff {x k : Nat} {e : K} (he0 : 0 ≤ e) (he1 : e < 1) : (k : K) ≤ x + e ↔ k ≤ x := by
  constructor
  · intro h
    by_contra hlt
    have : (x : K) + 1 ≤ k := by exact_mod_cast Nat.lt_of_not_le hlt
    linarith
  · intro h
    have : (k : K) ≤ x := Nat.cast_le.mpr h
    linarith

theorem add_eq_cast_iff {x k : Nat} {e : K} (he0 : 0 ≤ e) (he1 : e < 1) : (x : K) + e = k ↔ x = k ∧ e = 0 := by
  constructor
  · intro h
    have hle : k ≤ x := (cast_le_add_iff he0 he1).mp h.ge
    have hge : x ≤ k := by
      have : (x : K) ≤ k := by linarith
      exact Nat.cast_le.mp this
    obtain rfl : x = k := le_antisymm hge hle
    exact ⟨rfl, by linarith⟩
  · rintro ⟨rfl, rfl⟩
    exact add_zero _

theorem mod_two_pow_eq_zero_iff {x g : Nat} (hx : x < 2 ^ (g + 1)) : x % 2 ^ g = 0 ↔ x = 0 ∨ x = 2 ^ g := by
  have hpow := Nat.two_pow_pos g
  rw [Nat.pow_succ] at hx
  constructor
  · intro h
    obtain ⟨c, rfl⟩ := Nat.dvd_of_mod_eq_zero h
    have hc : c < 2 := Nat.lt_of_mul_lt_mul_left hx
    interval_cases c
    · exact .inl (Nat.mul_zero _)
    · exact .inr (Nat.mul_one _)
  · rintro (rfl | rfl)
    · exact Nat.zero_mod _
    · exact Nat.mod_self _

/-- `x` carries `g` bits behind the guard bit, and `e` was lost behind them. -/
theorem Bits.of_low {g x : Nat} {f e : K} (he0 : 0 ≤ e) (he1 : e < 1) (hx : x < 2 ^ (g + 1))
    (hf : f * 2 ^ (g + 1) = x + e) {guard rest : Bool} (hguard : guard = true ↔ 2 ^ g ≤ x)
    (hrest : rest = true ↔ x % 2 ^ g ≠ 0 ∨ e ≠ 0) : Bits f guard rest := by
  have hpow : (0 : K) < 2 ^ (g + 1) := by positivity
  have hdiv : f = (x + e) / 2 ^ (g + 1) := (eq_div_iff hpow.ne').mpr hf
  have htwo : 2 * f = (x + e) / 2 ^ g := by
    rw [hdiv, pow_succ, mul_div_assoc', mul_comm 2, mul_div_mul_right _ _ two_ne_zero]
  have hzero : f = 0 ↔ x = 0 ∧ e = 0 := by
    rw [hdiv, div_eq_zero_iff, or_iff_left hpow.ne', ← Nat.cast_zero, add_eq_cast_iff he0 he1, Nat.cast_zero]
  have hhalf : 2 * f = 1 ↔ x = 2 ^ g ∧ e = 0 := by
    rw [htwo, div_eq_one_iff_eq (by positivity), ← add_eq_cast_iff he0 he1]
    push_cast
    rfl
  constructor
  · rw [hdiv]
    positivity
  · rw [hdiv, div_lt_one hpow, ← not_le]
    intro h
    have hle : 2 ^ (g + 1) ≤ x := by
      rw [← cast_le_add_iff he0 he1]
      push_cast
      exact h
    omega
  · rw [hguard, htwo, one_le_div (by positivity), ← cast_le_add_iff he0 he1]
    push_cast
    rfl
  · rw [hrest]
    simp only [ne_eq]
    rw [mod_two_pow_eq_zero_iff hx, hzero, hhalf]
    by_cases he : e = 0
    · simp [he]
    · simp [he]

/-- **Guard, rest and the last place decide the rounding.** -/
theorem RoundsEven.of_bits (hH : StrictMono H) {u f : K} (hv : v = H n + f * u) (hu : H (n + 1) = H n + u)
    {guard rest lsb : Bool} (hf : Bits f guard rest) (hlsb : lsb = true ↔ ¬ Even n) :
    RoundsEven H v (n + (guard && (rest || lsb)).toNat) := by
  have hupos : 0 < u := by
    have := hH (Nat.lt_succ_self n)
    linarith
  have hf0 := hf.nonneg
  have hf1 := hf.lt_one
  have hfu : 0 ≤ f * u := mul_nonneg hf0 hupos.le
  have hbelow : ∀ m, m + 1 = n → H m + H n < 2 * v := fun m hm => by
    have := hH (show m < n by omega)
    linarith
  have habove : v < H (n + 1) := by
    have : f * u < 1 * u := mul_lt_mul_of_pos_right hf1 hupos
    linarith
  have hnext : H (n + 1) < H (n + 1 + 1) := hH (Nat.lt_succ_self _)
  cases guard with
  | false =>
    have hlt : 2 * f < 1 := not_le.mp fun h => Bool.noConfusion (hf.guard.mpr h)
    have : 2 * f * u < 1 * u := mul_lt_mul_of_pos_right hlt hupos
    exact ⟨fun m hm => .inl (hbelow m hm), .inl (by simp only [Bool.false_and, Bool.toNat_false, Nat.add_zero]; linarith)⟩
  | true =>
    have hge : 1 ≤ 2 * f := hf.guard.mp rfl
    have hge' : 1 * u ≤ 2 * f * u := mul_le_mul_of_nonneg_right hge hupos.le
    cases rest with
    | true =>
      have hne : 2 * f ≠ 1 := (hf.rest.mp rfl).2
      have hgt : 1 * u < 2 * f * u := mul_lt_mul_of_pos_right (lt_of_le_of_ne hge (Ne.symm hne)) hupos
      refine ⟨fun m hm => .inl ?_, .inl ?_⟩
      · obtain rfl : m = n := by simpa using hm
        simp only [Bool.true_and, Bool.true_or, Bool.toNat_true]
        linarith
      · simp only [Bool.true_and, Bool.true_or, Bool.toNat_true]
        linarith
    | false =>
      have hhalf : 2 * f = 1 := by
        by_contra hne
        have := hf.rest.mpr ⟨fun h => by rw [h] at hge; linarith, hne⟩
        cases this
      have hhalf' : 2 * f * u = u := by rw [hhalf, one_mul]
      cases lsb with
      | false =>
        have heven : Even n := by
          by_contra h
          exact Bool.noConfusion (hlsb.mpr h)
        refine ⟨fun m hm => .inl (hbelow m hm), .inr ⟨?_, heven⟩⟩
        simp only [Bool.true_and, Bool.or_false, Bool.toNat_false, Nat.add_zero]
        linarith
      | true =>
        have hodd : ¬ Even n := hlsb.mp rfl
        refine ⟨fun m hm => .inr ⟨?_, ?_⟩, .inl ?_⟩
        · obtain rfl : m = n := by simpa using hm
          simp only [Bool.true_and, Bool.or_true, Bool.toNat_true]
          linarith
        · exact Nat.even_add_one.mpr hodd
        · simp only [Bool.true_and, Bool.or_true, Bool.toNat_true]
          linarith

end

/-! ## A sticky last bit -/

section
variable {K : Type} [Field K] [LinearOrder K] [IsStrictOrderedRing K] {t : K} {T N : Nat}

/-- `T` stands for `t` but for its last bit, which says whether there is anything behind the others. -/
structure Sticky (t : K) (T : Nat) : Prop where
  lower : ((2 * (T / 2) : Nat) : K) ≤ t
  upper : t < ((2 * (T / 2) + 2 : Nat) : K)
  exact : t = ((2 * (T / 2) : Nat) : K) ↔ T % 2 = 0

theorem Sticky.self (T : Nat) : Sticky (T : K) T where
  lower := Nat.cast_le.mpr (by omega)
  upper := Nat.cast_lt.mpr (by omega)
  exact := by
    rw [Nat.cast_inj]
    omega

theorem Sticky.add (h : Sticky t T) (hN : N % 2 = 0) : Sticky (N + t) (N + T) := by
  have hlower := h.lower
  have hupper := h.upper
  have hhalf : 2 * ((N + T) / 2) = N + 2 * (T / 2) := by omega
  refine ⟨?_, ?_, ?_⟩
  · rw [hhalf]
    push_cast at hlower ⊢
    linarith
  · rw [hhalf]
    push_cast at hupper ⊢
    linarith
  · rw [hhalf, Nat.cast_add, add_right_inj, h.exact]
    omega

/-- What is taken from an even number. -/
theorem Sticky.sub (h : Sticky t T) (hN : N % 2 = 0) (hle : T ≤ N) : Sticky (N - t) (N - T) := by
  have hlower := h.lower
  have hupper := h.upper
  rcases Nat.mod_two_eq_zero_or_one T with hT | hT
  · have ht : t = ((2 * (T / 2) : Nat) : K) := h.exact.mpr hT
    have hsub : (N : K) - t = ((N - T : Nat) : K) := by
      rw [ht, Nat.cast_sub hle, show 2 * (T / 2) = T by omega]
    rw [hsub]
    exact .self _
  · have hne : t ≠ ((2 * (T / 2) : Nat) : K) := fun ht => by
      have := h.exact.mp ht
      omega
    have hlt := lt_of_le_of_ne hlower (Ne.symm hne)
    have hhalf : 2 * ((N - T) / 2) + (2 * (T / 2) + 2) = N := by omega
    have hcast : ((2 * ((N - T) / 2) : Nat) : K) + ((2 * (T / 2) + 2 : Nat) : K) = N := by exact_mod_cast hhalf
    refine ⟨by linarith, ?_, iff_of_false (fun h => ?_) (by omega)⟩
    · push_cast at hcast hlt ⊢
      linarith
    · linarith

/-- A shift to the right that keeps in the last bit whether it lost anything. -/
def jam (x d : Nat) : Nat := if x % 2 ^ d = 0 then x / 2 ^ d else 2 * (x / 2 ^ d / 2) + 1

theorem jam_zero (x : Nat) : jam x 0 = x := by
  rw [jam, Nat.pow_zero, Nat.mod_one, if_pos rfl, Nat.div_one]

theorem jam_lt {x d n k : Nat} (hd : k ≤ d) (hx : x < 2 ^ (n + 1 + k)) : jam x d < 2 ^ (n + 1) := by
  have hq : x / 2 ^ d < 2 ^ (n + 1) := by
    rw [Nat.div_lt_iff_lt_mul (Nat.two_pow_pos d), ← Nat.pow_add]
    exact hx.trans_le (Nat.pow_le_pow_right (by omega) (by omega))
  unfold jam
  split
  · exact hq
  · rw [Nat.pow_succ] at hq ⊢
    omega

theorem sticky_jam (x d : Nat) : Sticky (x / 2 ^ d : K) (jam x d) := by
  have hpow : (0 : K) < 2 ^ d := by positivity
  have hlt : ((x % 2 ^ d : Nat) : K) < 2 ^ d := by exact_mod_cast Nat.mod_lt x (Nat.two_pow_pos d)
  have hsplit : (x : K) / 2 ^ d = (x / 2 ^ d : Nat) + ((x % 2 ^ d : Nat) : K) / 2 ^ d := by
    rw [div_eq_iff hpow.ne', add_mul, div_mul_cancel₀ _ hpow.ne', mul_comm]
    exact_mod_cast (Nat.div_add_mod x (2 ^ d)).symm
  unfold jam
  by_cases h0 : x % 2 ^ d = 0
  · rw [if_pos h0, hsplit, h0, Nat.cast_zero, zero_div, add_zero]
    exact .self _
  · have hmod : (0 : K) < ((x % 2 ^ d : Nat) : K) / 2 ^ d := by
      have : (0 : K) < (x % 2 ^ d : Nat) := Nat.cast_pos.mpr (Nat.pos_of_ne_zero h0)
      positivity
    have hmod1 : ((x % 2 ^ d : Nat) : K) / 2 ^ d < 1 := (div_lt_one hpow).mpr hlt
    rw [if_neg h0]
    generalize x / 2 ^ d = q at hsplit ⊢
    have hq : (2 * (q / 2) + 1) / 2 = q / 2 := by omega
    have hle : ((2 * (q / 2) : Nat) : K) ≤ q := Nat.cast_le.mpr (by omega)
    have hlt : ((q + 1 : Nat) : K) ≤ ((2 * (q / 2) + 2 : Nat) : K) := Nat.cast_le.mpr (by omega)
    rw [Nat.cast_add, Nat.cast_one] at hlt
    refine ⟨?_, ?_, ?_⟩
    · rw [hq]
      linarith
    · rw [hq]
      linarith
    · rw [hq]
      exact iff_of_false (by linarith) (by omega)

end

/-! ## Significands -/

section
variable {p e m : Nat}

/-- The code of the exponent `e` and the significand `m`, its leading one counted; a significand
that rounding carried out of its binade has the code of the next. -/
def sig (p e m : Nat) : Nat := (e - 1) * 2 ^ p + m

theorem sig_add (p e m k : Nat) : sig p e m + k = sig p e (m + k) := Nat.add_assoc _ _ _

theorem sig_div (he : 1 ≤ e) (hm : 2 ^ p ≤ m) (hm' : m < 2 ^ (p + 1)) : sig p e m / 2 ^ p = e := by
  have hp := Nat.two_pow_pos p
  obtain ⟨d, rfl⟩ : ∃ d, e = d + 1 := ⟨e - 1, by omega⟩
  rw [Nat.pow_succ] at hm'
  refine Nat.div_eq_of_lt_le ?_ ?_
  · rw [sig, Nat.add_sub_cancel, Nat.add_mul]
    omega
  · rw [sig, Nat.add_sub_cancel, Nat.add_mul, Nat.add_mul]
    omega

theorem mag_sig (he : 1 ≤ e) (hm : 2 ^ p ≤ m) (hm' : m < 2 ^ (p + 1)) : mag p (sig p e m) = m * 2 ^ (e - 1) := by
  have hdiv := sig_div he hm hm'
  have hmod : 2 ^ p + sig p e m % 2 ^ p = m := by
    have hsplit := Nat.div_add_mod (sig p e m) (2 ^ p)
    rw [hdiv] at hsplit
    obtain ⟨d, rfl⟩ : ∃ d, e = d + 1 := ⟨e - 1, by omega⟩
    rw [sig, Nat.add_sub_cancel, Nat.mul_comm, Nat.add_mul] at hsplit
    rw [sig, Nat.add_sub_cancel]
    omega
  rw [mag_of_le (by rw [sig]; omega), hdiv, hmod]

/-- The step from one significand to the next. -/
theorem mag_sig_succ (he : 1 ≤ e) (hm : 2 ^ p ≤ m) (hm' : m < 2 ^ (p + 1)) :
    mag p (sig p e m + 1) = mag p (sig p e m) + 2 ^ (e - 1) := by
  rw [mag_succ, sig_div he hm hm']

theorem even_sig (hp : 1 ≤ p) : Even (sig p e m) ↔ Even m := by
  have hpow : Even (2 ^ p) := (Nat.even_pow.mpr ⟨even_two, by omega⟩)
  rw [sig, Nat.even_add]
  simp [hpow]

/-! ## Differences -/

theorem mag_eq (p n : Nat) : ∃ s < 2 ^ (p + 1), mag p n = s * 2 ^ (max (n / 2 ^ p) 1 - 1) := by
  have hmod := Nat.mod_lt n (Nat.two_pow_pos p)
  rw [Nat.pow_succ, mag]
  split
  next h0 => exact ⟨n % 2 ^ p, by omega, by rw [h0]; exact (Nat.mul_one _).symm⟩
  next h0 => exact ⟨2 ^ p + n % 2 ^ p, by omega, by rw [Nat.max_eq_left (Nat.one_le_iff_ne_zero.mpr h0)]⟩

/-- Whatever fits a significand is a magnitude. -/
theorem exists_mag {q d : Nat} (hq : q < 2 ^ (p + 1)) : ∃ k, mag p k = q * 2 ^ d := by
  induction d generalizing q with
  | zero =>
    refine ⟨q, ?_⟩
    rw [Nat.pow_zero, Nat.mul_one]
    by_cases hlt : q < 2 ^ p
    · exact mag_of_lt hlt
    · have hp := Nat.two_pow_pos p
      have hdiv : q / 2 ^ p = 1 := Nat.div_eq_of_lt_le (by omega) (by rw [Nat.pow_succ] at hq; omega)
      have hsplit := Nat.div_add_mod q (2 ^ p)
      rw [hdiv] at hsplit
      rw [mag_of_le (by omega), hdiv, Nat.sub_self, Nat.pow_zero]
      omega
  | succ d ih =>
    by_cases hlt : q < 2 ^ p
    · obtain ⟨k, hk⟩ := ih (q := 2 * q) (by rw [Nat.pow_succ]; omega)
      exact ⟨k, by rw [hk, Nat.pow_succ]; ring⟩
    · exact ⟨sig p (d + 1 + 1) q, mag_sig (by omega) (by omega) hq⟩

/-- **The difference of two magnitudes within a factor of two of each other is one.** -/
theorem exists_mag_sub {m n : Nat} (hle : mag p n ≤ mag p m) (hdouble : mag p m ≤ 2 * mag p n) :
    ∃ k ≤ n, mag p k = mag p m - mag p n := by
  have hmono := mag_strictMono p
  have hnm : n ≤ m := hmono.le_iff_le.mp hle
  obtain ⟨s, hs, hn⟩ := mag_eq p n
  obtain ⟨r, -, hm⟩ := mag_eq p m
  obtain ⟨d, hd⟩ : ∃ d, max (m / 2 ^ p) 1 - 1 = max (n / 2 ^ p) 1 - 1 + d := by
    have := Nat.div_le_div_right (c := 2 ^ p) hnm
    exact ⟨max (m / 2 ^ p) 1 - max (n / 2 ^ p) 1, by omega⟩
  have hpow := Nat.two_pow_pos (max (n / 2 ^ p) 1 - 1)
  have hdiff : mag p m - mag p n = (r * 2 ^ d - s) * 2 ^ (max (n / 2 ^ p) 1 - 1) := by
    rw [hm, hn, hd, Nat.pow_add, Nat.sub_mul]
    ring_nf
  have hsmall : (r * 2 ^ d - s) * 2 ^ (max (n / 2 ^ p) 1 - 1) ≤ s * 2 ^ (max (n / 2 ^ p) 1 - 1) := by
    rw [← hdiff, ← hn]
    omega
  obtain ⟨k, hk⟩ := exists_mag (p := p) (d := max (n / 2 ^ p) 1 - 1) ((Nat.le_of_mul_le_mul_right hsmall hpow).trans_lt hs)
  refine ⟨k, hmono.le_iff_le.mp ?_, hk.trans hdiff.symm⟩
  rw [hk, hn]
  exact hsmall

end

end Minifloat
