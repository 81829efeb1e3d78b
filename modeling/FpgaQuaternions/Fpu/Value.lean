import FpgaQuaternions.Fpu.Run
import FpgaQuaternions.Half.Values
import FpgaQuaternions.Lib.Rounding

/-!
# What the words of the FPU stand for

An operand is its significand, the hidden one counted, at the exponent of its binade
(`mag_operand`), as `pre_norm_mul` and the others read it.  `Rounded v w` says that the word `w`
carries the magnitude of `v`, rounded to the nearest even, and infinity's where that is beyond the
last number.

What the datapaths are made of is given in numbers: concatenations, counts of leading and trailing
zeros, the result put together (`toNat_result`).
-/

namespace FpgaQuat.Fpu

open StdLogic Pipeline Minifloat
open Half (floatValue floatMag)

/-! ## Defined vectors -/

section
variable {m n w : Nat}

theorem land_some (a b : Bool) : land (some a) (some b) = some (a && b) := by cases a <;> cases b <;> rfl

theorem lor_some (a b : Bool) : lor (some a) (some b) = some (a || b) := by cases a <;> cases b <;> rfl

theorem toNat_append_eq (x : BitVec m) (y : BitVec n) : (x ++ y).toNat = x.toNat * 2 ^ n + y.toNat := by
  rw [BitVec.toNat_append, Nat.shiftLeft_eq, Nat.mul_comm, Nat.two_pow_add_eq_or_of_lt y.isLt]

theorem toNat_extract (x : BitVec w) (hi lo : Nat) :
    (x.extractLsb hi lo).toNat = x.toNat / 2 ^ lo % 2 ^ (hi - lo + 1) := by
  rw [BitVec.extractLsb_toNat, Nat.shiftRight_eq_div_pow]

theorem getLsbD_eq (x : BitVec w) (i : Nat) : x.getLsbD i = decide (x.toNat / 2 ^ i % 2 = 1) := by
  rw [BitVec.getLsbD, Nat.testBit_eq_decide_div_mod_eq]

theorem ne_zero_iff {x : BitVec w} : x ≠ 0 ↔ x.toNat ≠ 0 :=
  not_congr ⟨fun h => by rw [h]; rfl, fun h => BitVec.eq_of_toNat_eq h⟩

theorem bne_zero_eq (x : BitVec w) : (x != 0) = decide (x.toNat ≠ 0) := by
  rw [Bool.eq_iff_iff, bne_iff_ne, decide_eq_true_iff, ne_zero_iff]

/-- The fields of a word put together. -/
theorem toNat_result (s : Bool) (e : BitVec 8) (f : BitVec 23) :
    (BitVec.ofBool s ++ e ++ f).msb = s ∧ (BitVec.ofBool s ++ e ++ f).toNat % 2 ^ 31 = e.toNat * 2 ^ 23 + f.toNat := by
  have he := e.isLt
  have hf := f.isLt
  have hnat : (BitVec.ofBool s ++ e ++ f).toNat = s.toNat * 2 ^ 31 + (e.toNat * 2 ^ 23 + f.toNat) := by
    rw [toNat_append_eq, toNat_append_eq, BitVec.toNat_ofBool]
    omega
  have hs : s.toNat ≤ 1 := Bool.toNat_le s
  constructor
  · rw [BitVec.msb_eq_decide, hnat]
    cases s with
    | true => exact decide_eq_true (by simp)
    | false => exact decide_eq_false (by simp; omega)
  · omega

end

/-! ## Counting zeros -/

section
variable {w : Nat}

theorem length_takeWhile_range {p : Nat → Bool} {k : Nat} (hk : k ≤ w) (hpos : ∀ i < k, p i = true)
    (hneg : k < w → p k = false) : ((List.range w).takeWhile p).length = k := by
  obtain ⟨d, rfl⟩ := Nat.exists_eq_add_of_le hk
  have hall : ∀ i ∈ List.range k, p i = true := fun i hi => hpos i (List.mem_range.mp hi)
  rw [List.range_add, List.takeWhile_append_of_pos hall, List.length_append, List.length_range]
  cases d with
  | zero => simp
  | succ d =>
    have hk0 : ¬ p (k + 0) = true := by
      rw [Nat.add_zero, hneg (by omega)]
      exact Bool.false_ne_true
    rw [List.range_succ_eq_map, List.map_cons, List.takeWhile_cons_of_neg hk0]
    rfl

/-- The leading zeros of what is not zero. -/
theorem countLZeros_log {v : BitVec w} (hw : w ≤ 63) (hv : v.toNat ≠ 0) :
    ∃ z, countLZeros (some v) = some z ∧ z.toNat + v.toNat.log2 + 1 = w := by
  have hlog : v.toNat.log2 < w := (Nat.log2_lt hv).mpr v.isLt
  have hlen : ((List.range w).takeWhile fun i => !v.getLsbD (w - 1 - i)).length = w - 1 - v.toNat.log2 := by
    refine length_takeWhile_range (by omega) (fun i hi => ?_) fun _ => ?_
    · have hlt : v.toNat < 2 ^ (w - 1 - i) :=
        Nat.lt_log2_self.trans_le (Nat.pow_le_pow_right (by omega) (by omega))
      rw [BitVec.getLsbD, Nat.testBit_lt_two_pow hlt]
      rfl
    · rw [show w - 1 - (w - 1 - v.toNat.log2) = v.toNat.log2 by omega, BitVec.getLsbD, Nat.testBit_log2 hv]
      rfl
  refine ⟨_, rfl, ?_⟩
  rw [hlen, BitVec.toNat_ofNat]
  omega

theorem countLZeros_zero (hw : w ≤ 63) : ∃ z, countLZeros (some (0 : BitVec w)) = some z ∧ z.toNat = w := by
  have hlen : ((List.range w).takeWhile fun i => !(0 : BitVec w).getLsbD (w - 1 - i)).length = w :=
    length_takeWhile_range le_rfl (by simp) (by simp)
  refine ⟨_, rfl, ?_⟩
  rw [hlen, BitVec.toNat_ofNat]
  omega

/-- The bits below the first that is set. -/
theorem exists_lowest {x : Nat} (hx : x ≠ 0) : ∃ k, x.testBit k = true ∧ ∀ i < k, x.testBit i = false := by
  have hex : ∃ k, x.testBit k = true := ⟨x.log2, Nat.testBit_log2 hx⟩
  exact ⟨Nat.find hex, Nat.find_spec hex, fun i hi => Bool.eq_false_iff.mpr (Nat.find_min hex hi)⟩

theorem mod_two_pow_ne_zero_iff {x k s : Nat} (hk : x.testBit k = true) (hlow : ∀ i < k, x.testBit i = false) :
    x % 2 ^ s ≠ 0 ↔ k < s := by
  constructor
  · intro h
    by_contra hle
    refine h (Nat.eq_of_testBit_eq fun i => ?_)
    rw [Nat.testBit_mod_two_pow, Nat.zero_testBit]
    by_cases hi : i < s
    · rw [hlow i (by omega), Bool.and_false]
    · rw [decide_eq_false hi, Bool.false_and]
  · intro h h0
    have := congrArg (fun y => y.testBit k) h0
    simp [Nat.testBit_mod_two_pow, h, hk] at this

/-- What a shift to the right loses is seen in the trailing zeros. -/
theorem countRZeros_lt {v : BitVec w} (hw : w ≤ 63) (hv : v.toNat ≠ 0) :
    ∃ z, countRZeros (some v) = some z ∧ z.toNat < w ∧ ∀ s, z.toNat < s ↔ v.toNat % 2 ^ s ≠ 0 := by
  obtain ⟨k, hk, hlow⟩ := exists_lowest hv
  have hkw : k < w := by
    by_contra hle
    rw [Nat.testBit_lt_two_pow (v.isLt.trans_le (Nat.pow_le_pow_right (by omega) (by omega)))] at hk
    cases hk
  have hlen : ((List.range w).takeWhile fun i => !v.getLsbD i).length = k := by
    refine length_takeWhile_range hkw.le (fun i hi => ?_) fun _ => ?_
    · rw [BitVec.getLsbD, hlow i hi]
      rfl
    · rw [BitVec.getLsbD, hk]
      rfl
  have hz : (BitVec.ofNat 6 k).toNat = k := by
    rw [BitVec.toNat_ofNat]
    omega
  refine ⟨BitVec.ofNat 6 k, ?_, hz.symm ▸ hkw, fun s => ?_⟩
  · rw [countRZeros, hlen]
  · rw [hz, mod_two_pow_ne_zero_iff hk hlow]

end

/-! ## Operands -/

/-- The exponent of an operand; that of the first binade for a denormal. -/
def expo (a : BitVec 32) : Nat := if a.toNat / 2 ^ 23 % 256 = 0 then 1 else a.toNat / 2 ^ 23 % 256

/-- The significand of an operand. -/
def significand (a : BitVec 32) : Nat := if a.toNat / 2 ^ 23 % 256 = 0 then a.toNat % 2 ^ 23 else 2 ^ 23 + a.toNat % 2 ^ 23

section
variable {a : BitVec 32}

theorem expo_pos (a : BitVec 32) : 1 ≤ expo a := by
  unfold expo
  split <;> omega

theorem expo_lt (h : Half.Finite a) : expo a < 255 := by
  unfold expo
  unfold Half.Finite at h
  split <;> omega

theorem significand_lt (a : BitVec 32) : significand a < 2 ^ 24 := by
  unfold significand
  split <;> omega

/-- **The magnitude of an operand.** -/
theorem mag_operand (a : BitVec 32) : mag 23 (a.toNat % 2 ^ 31) = significand a * 2 ^ (expo a - 1) := by
  have hdiv : a.toNat % 2 ^ 31 / 2 ^ 23 = a.toNat / 2 ^ 23 % 256 := by omega
  have hmod : a.toNat % 2 ^ 31 % 2 ^ 23 = a.toNat % 2 ^ 23 := by omega
  rw [mag, hdiv, hmod, significand, expo]
  split
  · rw [Nat.sub_self, Nat.pow_zero, Nat.mul_one]
  · rfl

theorem fract24_significand (a : BitVec 32) : ∃ f, fract24 (some a) = some f ∧ f.toNat = significand a := by
  refine ⟨_, fract24_some a, ?_⟩
  rw [toNat_append_eq, BitVec.toNat_ofBool, bne_zero_eq, toNat_extract, toNat_extract, significand]
  norm_num
  split <;> rename_i h
  · simp [h]
  · simp [h]

theorem expIn_expo (a : BitVec 32) : ∃ e, expIn (some a) = some e ∧ e.toNat = expo a := by
  refine ⟨(0#2 ++ a.extractLsb 30 23) + (0#9 ++ BitVec.ofBool (!(a.extractLsb 30 23 != 0#8))), rfl, ?_⟩
  have hbne : (a.extractLsb 30 23 != 0#8) = decide ((a.extractLsb 30 23).toNat ≠ 0) := bne_zero_eq _
  rw [BitVec.toNat_add, toNat_pad 2, toNat_pad 9, BitVec.toNat_ofBool, hbne, toNat_extract, expo]
  have hlt : a.toNat / 2 ^ 23 % 256 < 256 := Nat.mod_lt _ (by decide)
  norm_num at hlt ⊢
  split <;> rename_i h
  · simp [h]
  · simp [h]
    omega

end

/-! ## Rounded results -/

section
variable (K : Type) [Field K] [LinearOrder K] [IsStrictOrderedRing K]

/-- The magnitudes of single precision. -/
def single (n : Nat) : K := mag 23 n / 2 ^ 149

theorem single_strictMono : StrictMono (single K) := fun m n h => by
  have : (mag 23 m : K) < mag 23 n := Nat.cast_lt.mpr (mag_strictMono 23 h)
  unfold single
  gcongr

variable {K}

theorem abs_floatValue (a : BitVec 32) : |(floatValue a : K)| = significand a * 2 ^ (expo a - 1) / 2 ^ 149 := by
  have hmag : (floatMag (a.toNat % 2 ^ 31) : K) = significand a * 2 ^ (expo a - 1) / 2 ^ 149 := by
    rw [floatMag, mag_operand]
    push_cast
    rfl
  have hnonneg : (0 : K) ≤ significand a * 2 ^ (expo a - 1) / 2 ^ 149 := by positivity
  rw [Half.floatValue_eq]
  split
  · rw [Rat.cast_neg, hmag, abs_neg, abs_of_nonneg hnonneg]
  · rw [hmag, abs_of_nonneg hnonneg]

theorem abs_floatValue_rat (a : BitVec 32) : |floatValue a| = significand a * 2 ^ (expo a - 1) / 2 ^ 149 := by
  have := abs_floatValue (K := ℚ) a
  rwa [Rat.cast_id] at this

/-- The code of infinity. -/
def infCode : Nat := 255 * 2 ^ 23

/-- The word carries the magnitude of `v`, rounded to the nearest even. -/
def Rounded (v : K) (w : BitVec 32) : Prop := ∃ n, RoundsEven (single K) |v| n ∧ w.toNat % 2 ^ 31 = min n infCode

/-- Exponent and fraction of a significand that did not leave its binade. -/
theorem code_sig {E M : Nat} (hE : 1 ≤ E) (hE' : E < 255) (hM : 2 ^ 23 ≤ M) (hM' : M < 2 ^ 24) :
    E * 2 ^ 23 + M % 2 ^ 23 = min (sig 23 E M) infCode := by
  unfold sig infCode
  omega

/-- The code that is put together, 255 being infinity's exponent. -/
theorem code_carry {E R e g : Nat} (hE : 1 ≤ E) (hE' : E < 256) (hR : 2 ^ 23 ≤ R) (hR' : R ≤ 2 ^ 24)
    (hcarry : 2 ^ 24 ≤ R ∧ E ≠ 255 → e = E + 1 ∧ g = R / 2) (hstay : ¬ (2 ^ 24 ≤ R ∧ E ≠ 255) → e = E ∧ g = R) :
    e ≤ 255 ∧ (if 255 ≤ e then infCode else e * 2 ^ 23 + g % 2 ^ 23) = min (sig 23 E R) infCode := by
  unfold sig infCode
  by_cases hc : 2 ^ 24 ≤ R ∧ E ≠ 255
  · obtain ⟨he, hg⟩ := hcarry hc
    refine ⟨by omega, ?_⟩
    split <;> omega
  · obtain ⟨he, hg⟩ := hstay hc
    refine ⟨by omega, ?_⟩
    split <;> omega

theorem code_beyond {E M : Nat} (hE : 256 ≤ E) (hM : 2 ^ 23 ≤ M) : infCode = min (sig 23 E M) infCode := by
  refine (min_eq_right ?_).symm
  unfold sig infCode
  omega

/-- A significand with `g` bits behind the guard bit, and what was lost behind them. -/
theorem rounds_sig {v e : K} {E g x : Nat} (hE : 1 ≤ E) (hx0 : 2 ^ (g + 24) ≤ x) (hx1 : x < 2 ^ (g + 25)) (he0 : 0 ≤ e)
    (he1 : e < 1) (hv : v * 2 ^ (g + 150) = (x + e) * 2 ^ (E - 1)) (guard rest lsb : Bool)
    (hguard : guard = decide (x / 2 ^ g % 2 = 1)) (hrest : rest = true ↔ x % 2 ^ g ≠ 0 ∨ e ≠ 0)
    (hlsb : lsb = decide (x / 2 ^ (g + 1) % 2 = 1)) :
    RoundsEven (single K) v (sig 23 E (x / 2 ^ (g + 1)) + (guard && (rest || lsb)).toNat) := by
  obtain ⟨M, hM⟩ : ∃ M, M = x / 2 ^ (g + 1) := ⟨_, rfl⟩
  obtain ⟨y, hy⟩ : ∃ y, y = x % 2 ^ (g + 1) := ⟨_, rfl⟩
  have hsplit : x = M * 2 ^ (g + 1) + y := by
    rw [hM, hy, Nat.mul_comm]
    exact (Nat.div_add_mod _ _).symm
  have hylt : y < 2 ^ (g + 1) := hy ▸ Nat.mod_lt _ (Nat.two_pow_pos _)
  have hM0 : 2 ^ 23 ≤ M := by
    rw [hM, Nat.le_div_iff_mul_le (Nat.two_pow_pos _), ← Nat.pow_add, show 23 + (g + 1) = g + 24 by omega]
    exact hx0
  have hM1 : M < 2 ^ (23 + 1) := by
    rw [hM, Nat.div_lt_iff_lt_mul (Nat.two_pow_pos _), ← Nat.pow_add, show 23 + 1 + (g + 1) = g + 25 by omega]
    exact hx1
  have hbits : Bits ((y + e) / 2 ^ (g + 1)) guard rest := by
    refine .of_low (g := g) (x := y) he0 he1 hylt (div_mul_cancel₀ _ (by positivity)) ?_ ?_
    · rw [hguard, decide_eq_true_iff, hsplit, Nat.pow_succ, ← Nat.mul_assoc, Nat.mul_right_comm,
        Nat.add_comm, Nat.add_mul_div_right _ _ (Nat.two_pow_pos g), Nat.add_mul_mod_self_right]
      have hlt : y / 2 ^ g < 2 := by
        rw [Nat.div_lt_iff_lt_mul (Nat.two_pow_pos g), Nat.mul_comm]
        exact hylt
      rw [← Nat.one_le_div_iff (Nat.two_pow_pos g)]
      generalize y / 2 ^ g = q at hlt ⊢
      omega
    · rw [hrest, hy, Nat.mod_mod_of_dvd _ (Nat.pow_dvd_pow 2 (Nat.le_succ g))]
  refine RoundsEven.of_bits (u := 2 ^ (E - 1) / 2 ^ 149) (single_strictMono K) ?_ ?_ hbits ?_
  · rw [single, ← hM, mag_sig hE hM0 hM1]
    have hpow : (2 : K) ^ (g + 150) ≠ 0 := by positivity
    rw [← mul_left_inj' hpow, hv, hsplit]
    push_cast
    rw [show g + 150 = g + 1 + 149 by omega, pow_add]
    field_simp
    ring
  · rw [single, single, ← hM, mag_sig_succ hE hM0 hM1]
    push_cast
    rw [add_div]
  · rw [hlsb, decide_eq_true_iff, ← hM, even_sig (by omega), Nat.even_iff]
    omega

/-- A significand with a sticky last bit behind the guard bit. -/
theorem rounds_sticky {v t : K} {E g T : Nat} (hE : 1 ≤ E) (hg : 1 ≤ g) (hT : Sticky t T) (hT0 : 2 ^ (g + 24) ≤ T)
    (hT1 : T < 2 ^ (g + 25)) (hv : v * 2 ^ (g + 150) = t * 2 ^ (E - 1)) (guard rest lsb : Bool)
    (hguard : guard = decide (T / 2 ^ g % 2 = 1)) (hrest : rest = true ↔ T % 2 ^ g ≠ 0)
    (hlsb : lsb = decide (T / 2 ^ (g + 1) % 2 = 1)) :
    RoundsEven (single K) v (sig 23 E (T / 2 ^ (g + 1)) + (guard && (rest || lsb)).toNat) := by
  obtain ⟨h, rfl⟩ : ∃ h, g = h + 1 := ⟨g - 1, by omega⟩
  have hdiv : ∀ k, T / 2 / 2 ^ k = T / 2 ^ (k + 1) := fun k => by
    rw [Nat.div_div_eq_div_mul, Nat.pow_succ, Nat.mul_comm]
  have hlower := hT.lower
  have hupper := hT.upper
  push_cast at hlower hupper
  have hezero : (t - 2 * (T / 2 : Nat)) / 2 ≠ 0 ↔ T % 2 ≠ 0 := by
    have hexact := hT.exact
    push_cast at hexact
    rw [ne_eq, div_eq_zero_iff, or_iff_left two_ne_zero, sub_eq_zero, hexact]
  have hround := rounds_sig (x := T / 2) (g := h) (e := (t - 2 * (T / 2 : Nat)) / 2) (v := v) hE ?_ ?_ (by linarith)
    (by linarith) ?_ guard rest lsb ?_ ?_ ?_
  · rwa [hdiv] at hround
  · rw [Nat.le_div_iff_mul_le two_pos, ← Nat.pow_succ, show (h + 24).succ = h + 1 + 24 by omega]
    exact hT0
  · rw [Nat.div_lt_iff_lt_mul two_pos, ← Nat.pow_succ, show (h + 25).succ = h + 1 + 25 by omega]
    exact hT1
  · have htwo : v * 2 ^ (h + 150) * 2 = t * 2 ^ (E - 1) := by
      rw [mul_assoc, ← pow_succ, show h + 150 + 1 = h + 1 + 150 by omega]
      exact hv
    linear_combination htwo / 2
  · rw [hguard, hdiv]
  · rw [hrest, hezero, Nat.pow_succ, Nat.mul_comm, Nat.mod_mul]
    omega
  · rw [hlsb, hdiv]

end

/-! ## Operands that are numbers -/

section
variable {a b : BitVec 32}

theorem isInf_of_finite (h : Half.Finite a) : isInf (some a) = false := by
  have hne : ¬ isInf (some a) = true := by
    rw [Core.isInf_some]
    intro he
    have := congrArg BitVec.toNat he
    rw [toNat_extract] at this
    exact h this
  exact Bool.eq_false_iff.mpr hne

theorem low_ne_zero (h : significand a ≠ 0) : a.extractLsb 30 0 ≠ 0 := by
  intro h0
  obtain ⟨he, hf⟩ := fields_of_zero h0
  have hexp : a.toNat / 2 ^ 23 % 256 = 0 := by
    have := congrArg BitVec.toNat he
    rwa [toNat_extract] at this
  have hfrac : a.toNat % 2 ^ 23 = 0 := by
    have := congrArg BitVec.toNat hf
    rwa [toNat_extract, Nat.pow_zero, Nat.div_one] at this
  rw [significand, if_pos hexp] at h
  exact h hfrac

theorem floatValue_denormal {n : Nat} (h : n < 2 ^ 23) : floatValue (BitVec.ofNat 32 n) = n / 2 ^ 149 := by
  have hnat : (BitVec.ofNat 32 n).toNat = n := by
    rw [BitVec.toNat_ofNat]
    omega
  rw [floatValue, BitVec.msb_eq_decide, hnat, decide_eq_false (by omega), if_neg Bool.false_ne_true,
    Nat.mod_eq_of_lt (by omega), mag_of_lt h, one_mul]

theorem significand_of_value (h : floatValue a ≠ 0) : significand a ≠ 0 := by
  intro h0
  have habs := abs_floatValue_rat a
  rw [h0] at habs
  norm_num at habs
  exact h habs

end

/-! ## A run with one start -/

namespace Core

theorem signOf_some (a b : BitVec 32) : signOf a b = some (a.msb ^^ b.msb) := by
  rw [BitVec.msb_eq_getLsbD_last, BitVec.msb_eq_getLsbD_last]
  rfl

/-- The operands are held from a pulse of `start_i` on; what the core was before it is open. -/
structure Pulse (a b : BitVec 32) (op : BitVec 3) (i : Nat → Ports) (s : Nat → Core) : Prop where
  run : IsRun i s
  held : After 0 fun n => (i n).Hold a b op
  start : (i 0).startI = some true
  quiet : After 1 fun n => (i n).startI ≠ some true

/-- The run that `delivered` is taken from. -/
def pulsed (s : Core) (a b : BitVec 32) (op : BitVec 3) : Nat → Core
  | 0 => s
  | n + 1 => (step (ports a b op false))^[n] (step (ports a b op true) s)

theorem pulse_pulsed (s : Core) (a b : BitVec 32) (op : BitVec 3) :
    Pulse a b op (fun n => ports a b op (n == 0)) (pulsed s a b op) where
  run n := by
    cases n with
    | zero => rfl
    | succ n => exact Function.iterate_succ_apply' _ _ _
  held n _ := ports_hold a b op _
  start := rfl
  quiet n hn := by
    cases n with
    | zero => omega
    | succ n => exact nofun

/-- The output is the word of `v` with the sign `neg`, rounded to the nearest even. -/
def Delivers {K : Type} [Field K] [LinearOrder K] [IsStrictOrderedRing K] (v : K) (neg : Bool) (out : Vec 32) : Prop :=
  ∃ w, out = some w ∧ w.msb = neg ∧ Rounded v w

end Core

end FpgaQuat.Fpu
