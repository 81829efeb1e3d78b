import FpgaQuaternions.Fpu.Sum

/-!
# What the rounding gives the arithmetic

The word delivered is fixed by the exact result and its sign (`Delivers.unique`), is that result where it is a
number of the format (`Delivers.exact`), and grows with it (`Delivers.mono`).  So the adder commutes, is
monotone, and loses nothing between operands within a factor of two.
-/

namespace FpgaQuat.Fpu

open StdLogic Pipeline Minifloat
open Half (floatValue)

/-! ## Words -/

section
variable {w w' : BitVec 32}

theorem word_ext (hs : w.msb = w'.msb) (h : w.toNat % 2 ^ 31 = w'.toNat % 2 ^ 31) : w = w' := by
  have hw := w.isLt
  have hw' := w'.isLt
  rw [BitVec.msb_eq_decide, BitVec.msb_eq_decide, decide_eq_decide] at hs
  refine BitVec.eq_of_toNat_eq ?_
  omega

theorem floatValue_of_code (w : BitVec 32) :
    floatValue w = if w.msb then -single ℚ (w.toNat % 2 ^ 31) else single ℚ (w.toNat % 2 ^ 31) :=
  Half.floatValue_eq w

theorem single_nonneg (n : Nat) : 0 ≤ single ℚ n := by
  unfold single
  positivity

theorem abs_floatValue_code (w : BitVec 32) : |floatValue w| = single ℚ (w.toNat % 2 ^ 31) := by
  rw [floatValue_of_code]
  split
  · rw [abs_neg, abs_of_nonneg (single_nonneg _)]
  · exact abs_of_nonneg (single_nonneg _)

end

/-! ## What is delivered -/

namespace Core

/-- The sign goes with the value; that of a zero is open. -/
def SignOf (v : ℚ) (neg : Bool) : Prop := if neg then v ≤ 0 else 0 ≤ v

section
variable {v v' : ℚ} {neg neg' : Bool} {out out' : Vec 32} {w w' : BitVec 32}

/-- **The exact result and its sign fix the word.** -/
theorem Delivers.unique (h : Delivers v neg out) (h' : Delivers v neg out') : out = out' := by
  obtain ⟨w, rfl, hs, n, hn, hw⟩ := h
  obtain ⟨w', rfl, hs', n', hn', hw'⟩ := h'
  have hcode : n = n' := hn.unique (single_strictMono ℚ) hn'
  rw [word_ext (hs.trans hs'.symm) (by rw [hw, hw', hcode])]

/-- **A result that is a number of the format is delivered as it is.** -/
theorem Delivers.exact (h : Delivers v neg (some w)) (hv : SignOf v neg) {c : Nat} (hc : c ≤ infCode)
    (habs : |v| = single ℚ c) : floatValue w = v := by
  obtain ⟨u, hu, hs, n, hn, hw⟩ := h
  obtain rfl := Option.some_inj.mp hu
  rw [habs] at hn
  have hcode : n = c := hn.unique (single_strictMono ℚ) (.self (single_strictMono ℚ) c)
  rw [hcode, min_eq_left hc] at hw
  rw [floatValue_of_code, hs, hw, ← habs]
  unfold SignOf at hv
  cases neg with
  | true =>
    rw [if_pos rfl] at hv ⊢
    rw [abs_of_nonpos hv, neg_neg]
  | false =>
    rw [if_neg Bool.false_ne_true] at hv ⊢
    exact abs_of_nonneg hv

/-- **A larger result is not delivered smaller**; an infinity counts as the number that would come after
the last. -/
theorem Delivers.mono (h : Delivers v neg (some w)) (h' : Delivers v' neg' (some w')) (hv : SignOf v neg)
    (hv' : SignOf v' neg') (hle : v ≤ v') : floatValue w ≤ floatValue w' := by
  obtain ⟨u, hu, hs, n, hn, hw⟩ := h
  obtain ⟨u', hu', hs', n', hn', hw'⟩ := h'
  obtain rfl := Option.some_inj.mp hu
  obtain rfl := Option.some_inj.mp hu'
  have hgrid := single_strictMono ℚ
  rw [floatValue_of_code, floatValue_of_code, hs, hs', hw, hw']
  unfold SignOf at hv hv'
  cases neg with
  | true =>
    rw [if_pos rfl] at hv ⊢
    cases neg' with
    | true =>
      rw [if_pos rfl] at hv' ⊢
      have hcode : n' ≤ n := hn'.mono hgrid hn (by rw [abs_of_nonpos hv, abs_of_nonpos hv']; linarith)
      exact neg_le_neg (hgrid.monotone (min_le_min_right _ hcode))
    | false =>
      rw [if_neg Bool.false_ne_true]
      exact (neg_nonpos.mpr (single_nonneg _)).trans (single_nonneg _)
  | false =>
    rw [if_neg Bool.false_ne_true] at hv ⊢
    cases neg' with
    | true =>
      -- both are zero
      rw [if_pos rfl] at hv' ⊢
      have hz : v = 0 := by linarith
      have hz' : v' = 0 := by linarith
      have hzero : single ℚ 0 = 0 := by rw [single, mag_zero, Nat.cast_zero, zero_div]
      have hself : RoundsEven (single ℚ) 0 0 := hzero ▸ RoundsEven.self hgrid 0
      rw [hz, abs_zero] at hn
      rw [hz', abs_zero] at hn'
      rw [hn.unique hgrid hself, hn'.unique hgrid hself, Nat.zero_min, hzero, neg_zero]
    | false =>
      rw [if_neg Bool.false_ne_true] at hv' ⊢
      have hcode : n ≤ n' := hn.mono hgrid hn' (by rw [abs_of_nonneg hv, abs_of_nonneg hv']; exact hle)
      exact hgrid.monotone (min_le_min_right _ hcode)

end

/-! ## Addition and subtraction -/

section
variable {i i' : Nat → Ports} {s s' : Nat → Core} {a a' b b' : BitVec 32} {sub : Bool}

theorem signOf_sum (sub : Bool) (a b : BitVec 32) : SignOf (combined sub a b) (sumSign sub a b) := by
  have hneg : ∀ x : BitVec 32, x.msb = true → floatValue x ≤ 0 := fun x hx => by
    rw [floatValue_of_code, if_pos hx]
    exact neg_nonpos.mpr (single_nonneg _)
  unfold SignOf
  by_cases h : combined sub a b < 0 ∨ sub = false ∧ a.msb ∧ b.msb
  · rw [sumSign, decide_eq_true h, if_pos rfl]
    rcases h with h | ⟨hsub, ha, hb⟩
    · exact h.le
    · rw [combined, hsub, if_neg Bool.false_ne_true]
      have := hneg a ha
      have := hneg b hb
      linarith
  · rw [sumSign, decide_eq_false h, if_neg Bool.false_ne_true]
    exact not_lt.mp fun hlt => h (.inl hlt)

/-- **Larger operands do not make a smaller sum**, nor does a smaller subtrahend make a smaller difference. -/
theorem adds_mono (hs : IsRun i s) (hi : After 0 fun n => (i n).Hold a b (opcode sub)) (hs' : IsRun i' s')
    (hi' : After 0 fun n => (i' n).Hold a' b' (opcode sub)) (ha : Half.Finite a) (hb : Half.Finite b)
    (ha' : Half.Finite a') (hb' : Half.Finite b') (hle : floatValue a ≤ floatValue a')
    (hle' : if sub then floatValue b' ≤ floatValue b else floatValue b ≤ floatValue b') :
    After 9 fun n => ∃ w w', (s n).outputO = some w ∧ (s' n).outputO = some w' ∧ floatValue w ≤ floatValue w' := by
  have hsum : combined sub a b ≤ combined sub a' b' := by
    unfold combined
    split
    next h =>
      rw [if_pos h] at hle'
      linarith
    next h =>
      rw [if_neg h] at hle'
      linarith
  intro n hn
  have h : Delivers (combined sub a b) (sumSign sub a b) (addSub a b (opcode sub)) := addSub_rounded ha hb
  have h' : Delivers (combined sub a' b') (sumSign sub a' b') (addSub a' b' (opcode sub)) := addSub_rounded ha' hb'
  rw [addSub_shown hs hi n hn, addSub_shown hs' hi' n hn]
  obtain ⟨w, hw, -⟩ := id h
  obtain ⟨w', hw', -⟩ := id h'
  rw [hw] at h
  rw [hw'] at h'
  exact ⟨w, w', hw, hw', h.mono h' (signOf_sum sub a b) (signOf_sum sub a' b') hsum⟩

/-- The smallest denormal, added to itself and to its double. -/
theorem adds_mono_denormal : ∃ w w', delivered .powerUp 1#32 1#32 0b000 = some w ∧
    delivered .powerUp 2#32 1#32 0b000 = some w' ∧ floatValue w ≤ floatValue w' := by
  have hle : floatValue 1#32 ≤ floatValue 2#32 := by
    rw [floatValue_denormal (by decide), floatValue_denormal (by decide)]
    norm_num
  have hrun := pulse_pulsed .powerUp 1#32 1#32 0b000
  have hrun' := pulse_pulsed .powerUp 2#32 1#32 0b000
  exact @adds_mono _ _ _ _ _ _ _ _ false hrun.run hrun.held hrun'.run hrun'.held (by unfold Half.Finite; decide)
    (by unfold Half.Finite; decide) (by unfold Half.Finite; decide) (by unfold Half.Finite; decide) hle le_rfl 41 (by omega)

/-- The difference of two magnitudes within a factor of two of each other. -/
theorem exists_single_sub {m n : Nat} (hmn : single ℚ m ≤ 2 * single ℚ n) (hnm : single ℚ n ≤ 2 * single ℚ m) :
    ∃ k ≤ max m n, |single ℚ m - single ℚ n| = single ℚ k := by
  have hcast : ∀ x y, single ℚ x ≤ 2 * single ℚ y → mag 23 x ≤ 2 * mag 23 y := fun x y h => by
    unfold single at h
    rw [← mul_div_assoc, div_le_div_iff_of_pos_right (by positivity)] at h
    exact_mod_cast h
  have hsub : ∀ x y k, mag 23 y ≤ mag 23 x → mag 23 k = mag 23 x - mag 23 y → |single ℚ x - single ℚ y| = single ℚ k :=
    fun x y k hle hk => by
      unfold single
      rw [hk, Nat.cast_sub hle, ← sub_div, abs_of_nonneg]
      exact div_nonneg (sub_nonneg.mpr (Nat.cast_le.mpr hle)) (by positivity)
  rcases Nat.le_total (mag 23 n) (mag 23 m) with hle | hle
  · obtain ⟨k, hk, hmag⟩ := exists_mag_sub hle (hcast m n hmn)
    exact ⟨k, by omega, hsub m n k hle hmag⟩
  · obtain ⟨k, hk, hmag⟩ := exists_mag_sub hle (hcast n m hnm)
    exact ⟨k, by omega, by rw [abs_sub_comm, hsub n m k hle hmag]⟩

/-- **What cancels is not lost**: between operands within a factor of two of each other the difference is exact. -/
theorem subtracts_exactly (hs : IsRun i s) (hi : After 0 fun n => (i n).Hold a b (opcode true)) (ha : Half.Finite a)
    (hb : Half.Finite b) (hsign : a.msb = b.msb) (hab : |floatValue a| ≤ 2 * |floatValue b|)
    (hba : |floatValue b| ≤ 2 * |floatValue a|) :
    After 9 fun n => ∃ w, (s n).outputO = some w ∧ floatValue w = floatValue a - floatValue b := by
  have hfinite : ∀ x : BitVec 32, Half.Finite x → x.toNat % 2 ^ 31 < infCode := fun x hx => by
    unfold Half.Finite at hx
    unfold infCode
    omega
  have hca := hfinite a ha
  have hcb := hfinite b hb
  rw [abs_floatValue_code, abs_floatValue_code] at hab hba
  obtain ⟨k, hk, habs⟩ := exists_single_sub hab hba
  have hdiff : |combined true a b| = single ℚ k := by
    rw [← habs, combined, if_pos rfl, floatValue_of_code, floatValue_of_code, hsign]
    split
    · rw [← abs_neg]
      congr 1
      ring
    · rfl
  intro n hn
  have h : Delivers (combined true a b) (sumSign true a b) (addSub a b (opcode true)) := addSub_rounded ha hb
  rw [addSub_shown hs hi n hn]
  obtain ⟨w, hw, -⟩ := id h
  rw [hw] at h
  exact ⟨w, hw, h.exact (signOf_sum true a b) (by omega) hdiff⟩

/-- Twice the smallest denormal less the smallest. -/
theorem subtracts_exactly_denormal :
    ∃ w, delivered .powerUp 2#32 1#32 0b001 = some w ∧ floatValue w = floatValue 2#32 - floatValue 1#32 := by
  have h2 : |floatValue 2#32| = 2 / 2 ^ 149 := by
    rw [floatValue_denormal (by decide), abs_of_nonneg (by positivity)]
    rfl
  have h1 : |floatValue 1#32| = 1 / 2 ^ 149 := by
    rw [floatValue_denormal (by decide), abs_of_nonneg (by positivity), Nat.cast_one]
  have hrun := pulse_pulsed .powerUp 2#32 1#32 0b001
  exact subtracts_exactly hrun.run hrun.held (by unfold Half.Finite; decide) (by unfold Half.Finite; decide) (by decide)
    (by rw [h1, h2]; norm_num) (by rw [h1, h2]; norm_num) 41 (by omega)

end

end Core

end FpgaQuat.Fpu
