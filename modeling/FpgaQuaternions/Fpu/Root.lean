import FpgaQuaternions.Fpu.Quotient

/-!
# The square root

`sqrt` moves its approximation up or down by half of the last step at each of 26 edges, with the
square carried along (`Rooting.step`), and takes the approximation or the number below it at the
27th (`Rooting.last`).
-/

namespace FpgaQuat.Fpu

open StdLogic Pipeline Minifloat DigitRecurrence
open Half (floatValue)

/-! ## The approximations -/

namespace Sqrt

/-- `k` edges after a start was taken. -/
structure Rooting (rad : BitVec 52) (k : Nat) (s : Sqrt) : Prop where
  start : s.sStartI ≠ some true
  state : s.sState = .busy
  count : s.sCount.val + k = 26
  radI : s.sRadI = some rad
  b : ∃ b, s.b = some b ∧ (k < 26 → b.toNat = 2 ^ (25 - k))
  b2 : ∃ b2, s.b2 = some b2 ∧ (k < 26 → b2.toNat = 2 ^ (25 - k) * 2 ^ (25 - k))
  c : ∃ c, s.c = some c ∧ c.toNat + k = 26
  approx : ∃ r r2, s.r0 = some r ∧ s.r02 = some r2 ∧ (1 ≤ k → s.r1 = some r ∧ s.r12 = some r2) ∧
    r2.toNat = r.toNat * r.toNat ∧ r.toNat < 2 ^ 26 ∧ Brackets rad.toNat r.toNat (2 ^ (26 - k))

/-- The root is there, and whether it is exact. -/
structure Root (rad : BitVec 52) (s : Sqrt) : Prop where
  start : s.sStartI ≠ some true
  state : s.sState = .waiting
  count : s.sCount ≠ 0
  root : ∃ q, s.sSqrO = some q ∧ q.toNat = rad.toNat.sqrt
  ine : s.sIneO = some (decide (rad.toNat.sqrt * rad.toNat.sqrt ≠ rad.toNat))

section
variable {rad : BitVec 52} {k : Nat} {s : Sqrt} {startI : Bit}

theorem rooting_start (hs : s.sStartI = some true) (hi : startI ≠ some true) :
    Rooting rad 0 (s.step (some rad) startI) where
  start := hi
  state := by simp [step, hs]
  count := by simp [step, hs]
  radI := rfl
  b := ⟨0x2000000, by simp [step, hs]; rfl, fun _ => rfl⟩
  b2 := ⟨0x4000000000000, by simp [step, hs]; rfl, fun _ => rfl⟩
  c := ⟨0b11010, by simp [step, hs]; rfl, rfl⟩
  approx := by
    refine ⟨0, 0, by simp [step, hs]; rfl, by simp [step, hs]; rfl, by omega, rfl, by simp, .start ?_⟩
    have := rad.isLt
    rw [← Nat.pow_add]
    exact this

/-- The next approximation and its square. -/
theorem Rooting.next (h : Rooting rad k s) (hk : k < 26) :
    ∃ r r2, next s = (some r, some r2) ∧ r2.toNat = r.toNat * r.toNat ∧ r.toNat < 2 ^ 26 ∧
      Brackets rad.toNat r.toNat (2 ^ (25 - k)) := by
  obtain ⟨b, hb, hbnat⟩ := h.b
  obtain ⟨b2, hb2, hb2nat⟩ := h.b2
  obtain ⟨c, hc, hcnat⟩ := h.c
  obtain ⟨r, r2, hr, hr2, -, hsq, hrlt, hbr⟩ := h.approx
  obtain ⟨B, hB⟩ : ∃ B, B = 2 ^ (25 - k) := ⟨_, rfl⟩
  rw [← hB] at hbnat hb2nat ⊢
  have hbnat := hbnat hk
  have hb2nat := hb2nat hk
  have hBpos : 0 < B := hB ▸ Nat.two_pow_pos _
  have hBle : B ≤ 2 ^ 25 := hB ▸ Nat.pow_le_pow_right (by omega) (by omega)
  have htwo : 2 ^ (26 - k) = 2 * B := by
    rw [hB, show 26 - k = 25 - k + 1 by omega, Nat.pow_succ, Nat.mul_comm]
  rw [htwo] at hbr
  have hcpow : 2 ^ c.toNat = 2 * B := by rw [← htwo]; congr 1; omega
  have hradlt : rad.toNat < 2 ^ 26 * 2 ^ 26 := by
    rw [← Nat.pow_add]
    exact rad.isLt
  have hgt : gt s.r02 s.sRadI = decide (rad.toNat < r.toNat * r.toNat) := by
    rw [hr2, h.radI, gt, hsq]
  -- the low half of a number below `2 ^ 26` is the number
  have hlow : ∀ x : BitVec 52, x.toNat < 2 ^ 26 → (x.extractLsb 25 0).toNat = x.toNat := fun x hx => by
    rw [toNat_extract]
    omega
  have hb26 : (b.extractLsb 25 0).toNat = B := by rw [hlow b (by omega), hbnat]
  have hr26 : (r.extractLsb 25 0).toNat = r.toNat := hlow r hrlt
  have hop2 : (r <<< c.toNat).toNat = r.toNat * (2 * B) % 2 ^ 52 := by
    rw [BitVec.toNat_shiftLeft, Nat.shiftLeft_eq, hcpow]
  have hop1 : (r2 + b2).toNat = (r.toNat * r.toNat + B * B) % 2 ^ 52 := by
    rw [BitVec.toNat_add, hsq, hb2nat]
  unfold Sqrt.next
  by_cases hlt : rad.toNat < r.toNat * r.toNat
  · simp only [hgt, decide_eq_true hlt, if_true]
    obtain ⟨hle, hdown⟩ := hbr.down hlt
    have hnat : (0#26 ++ (r.extractLsb 25 0 - b.extractLsb 25 0)).toNat = r.toNat - B := by
      rw [toNat_pad 26, BitVec.toNat_sub_of_le (BitVec.le_def.mpr (by rw [hr26, hb26]; exact hle)), hr26, hb26]
    refine ⟨0#26 ++ (r.extractLsb 25 0 - b.extractLsb 25 0), r2 + b2 - r <<< c.toNat, ?_, ?_, by omega, ?_⟩
    · rw [hr, hb, hr2, hb2, hc]
      rfl
    · obtain ⟨t, ht⟩ : ∃ t, r.toNat = t + B := ⟨r.toNat - B, by omega⟩
      have hsquare : r.toNat * r.toNat + B * B = t * t + r.toNat * (2 * B) := by
        rw [ht]
        ring
      have htlt : t * t < 2 ^ 26 * 2 ^ 26 := Nat.mul_lt_mul'' (by omega) (by omega)
      rw [BitVec.toNat_sub, hop1, hop2, hnat, hsquare, show r.toNat - B = t by omega]
      omega
    · rw [hnat]
      exact hdown
  · simp only [hgt, decide_eq_false hlt, Bool.false_eq_true, if_false]
    have hle := Nat.le_of_not_lt hlt
    have hup := hbr.up hle
    have hdvd : 2 * B ∣ 2 ^ 26 := htwo ▸ Nat.pow_dvd_pow 2 (by omega)
    have huplt := hbr.up_lt hle hdvd hradlt hBpos
    have hnat : (0#26 ++ (r.extractLsb 25 0 + b.extractLsb 25 0)).toNat = r.toNat + B := by
      rw [toNat_pad 26, BitVec.toNat_add, hr26, hb26]
      exact Nat.mod_eq_of_lt huplt
    refine ⟨0#26 ++ (r.extractLsb 25 0 + b.extractLsb 25 0), r2 + b2 + r <<< c.toNat, ?_, ?_, by omega, ?_⟩
    · rw [hr, hb, hr2, hb2, hc]
      rfl
    · have hsquare : (r.toNat + B) * (r.toNat + B) = r.toNat * r.toNat + B * B + r.toNat * (2 * B) := by ring
      have htlt : (r.toNat + B) * (r.toNat + B) < 2 ^ 26 * 2 ^ 26 := Nat.mul_lt_mul'' (by omega) (by omega)
      rw [BitVec.toNat_add, hop1, hop2, hnat]
      omega
    · rw [hnat]
      exact hup

/-- **The step is halved at every edge.** -/
theorem Rooting.step (h : Rooting rad k s) (hk : k < 26) (hi : startI ≠ some true) :
    Rooting rad (k + 1) (s.step (some rad) startI) := by
  obtain ⟨b, hb, hbnat⟩ := h.b
  obtain ⟨b2, hb2, hb2nat⟩ := h.b2
  obtain ⟨c, hc, hcnat⟩ := h.c
  obtain ⟨r, r2, hnext, hsq, hrlt, hbr⟩ := h.next hk
  have hcount := h.count
  have hne : s.sCount ≠ 0 := fun h0 => by
    rw [h0] at hcount
    simp at hcount
    omega
  have hcond : ¬ (s.sCount = 0 ∧ s.sState = .busy) := fun h0 => hne h0.1
  refine ⟨hi, ?_, ?_, rfl, ⟨0#1 ++ b.extractLsb 51 1, ?_, fun hk' => ?_⟩, ⟨0#2 ++ b2.extractLsb 51 2, ?_, fun hk' => ?_⟩,
    ⟨c - 1, ?_, ?_⟩, r, r2, ?_, ?_, fun _ => ⟨?_, ?_⟩, hsq, hrlt, ?_⟩
  · simp [Sqrt.step, h.start, hne, h.state]
  · simp only [Sqrt.step, if_neg h.start, if_neg hcond, if_pos h.state]
    rw [Fin.val_sub_one_of_ne_zero hne]
    have : s.sCount.val ≠ 0 := fun h0 => hne (Fin.ext h0)
    omega
  · simp only [Sqrt.step, if_neg h.start, hb]
    rfl
  · have hpow : 2 ^ (25 - k) = 2 ^ (25 - (k + 1)) * 2 := by rw [← Nat.pow_succ]; congr 1; omega
    have hlt : 2 ^ (25 - k) ≤ 2 ^ 25 := Nat.pow_le_pow_right (by omega) (by omega)
    rw [toNat_pad 1, toNat_extract, hbnat hk]
    omega
  · simp only [Sqrt.step, if_neg h.start, hb2]
    rfl
  · have hpow : 2 ^ (25 - k) = 2 ^ (25 - (k + 1)) * 2 := by rw [← Nat.pow_succ]; congr 1; omega
    have hlt : 2 ^ (25 - k) ≤ 2 ^ 25 := Nat.pow_le_pow_right (by omega) (by omega)
    have hmul : 2 ^ (25 - k) * 2 ^ (25 - k) ≤ 2 ^ 25 * 2 ^ 25 := Nat.mul_le_mul hlt hlt
    have hfour : 2 ^ (25 - k) * 2 ^ (25 - k) = 2 ^ (25 - (k + 1)) * 2 ^ (25 - (k + 1)) * 4 := by
      rw [hpow]
      ring
    rw [toNat_pad 2, toNat_extract, hb2nat hk]
    omega
  · simp only [Sqrt.step, if_neg h.start, hc]
    rfl
  · have hone : (1 : BitVec 5).toNat = 1 := rfl
    rw [BitVec.toNat_sub_of_le (BitVec.le_def.mpr (by rw [hone]; omega)), hone]
    omega
  · simp only [Sqrt.step, if_neg h.start, if_pos h.state, hnext]
  · simp only [Sqrt.step, if_neg h.start, if_pos h.state, hnext]
  · simp only [Sqrt.step, if_pos (show s.sStartI ≠ some true ∧ s.sState = .busy from ⟨h.start, h.state⟩), hnext]
  · simp only [Sqrt.step, if_pos (show s.sStartI ≠ some true ∧ s.sState = .busy from ⟨h.start, h.state⟩), hnext]
  · rw [show 26 - (k + 1) = 25 - k by omega]
    exact hbr

theorem Rooting.last (h : Rooting rad 26 s) {radI : Vec 52} (hi : startI ≠ some true) : Root rad (s.step radI startI) := by
  obtain ⟨r, r2, -, -, hr1, hsq, hrlt, hbr⟩ := h.approx
  obtain ⟨hr, hr2⟩ := hr1 (by omega)
  have hcount : s.sCount = 0 := Fin.ext (by have := h.count; simp; omega)
  have hroot := hbr.root
  have hradlt := rad.isLt
  have hgt : gt s.r12 s.sRadI = decide (rad.toNat < r.toNat * r.toNat) := by
    rw [hr2, h.radI, gt, hsq]
  have hone : (1 : BitVec 52).toNat = 1 := rfl
  refine ⟨hi, ?_, ?_, ?_, ?_⟩
  · simp [Sqrt.step, h.start, hcount, h.state]
  · simp [Sqrt.step, h.start, hcount, h.state]
  · by_cases hlt : rad.toNat < r.toNat * r.toNat
    · have hpos : r.toNat ≠ 0 := fun h0 => by
        rw [h0] at hlt
        omega
      refine ⟨r - 1, ?_, ?_⟩
      · simp only [Sqrt.step, if_neg h.start, hcount, if_true, hgt, decide_eq_true hlt, hr]
        rfl
      · rw [hroot, if_pos hlt, BitVec.toNat_sub_of_le (BitVec.le_def.mpr (by rw [hone]; omega)), hone]
    · refine ⟨r, ?_, ?_⟩
      · simp only [Sqrt.step, if_neg h.start, hcount, if_true, hgt, decide_eq_false hlt, hr]
        rfl
      · rw [hroot, if_neg hlt]
  · simp only [Sqrt.step, hcount, if_true]
    have hshl : (r.extractLsb 50 0 ++ 0#1).toNat = 2 * r.toNat := by
      rw [toNat_append_eq, toNat_extract, BitVec.toNat_zero]
      omega
    have hval : s.r12 = s.sRadI ↔ r.toNat * r.toNat = rad.toNat := by
      rw [hr2, h.radI, Option.some_inj, ← BitVec.toNat_inj, hsq]
    have hbelow : s.r12 - (slice s.r1 50 0 ++ (0 : Vec 1)) + 1 = s.sRadI ↔
        (r2 - (r.extractLsb 50 0 ++ 0#1) + 1).toNat = rad.toNat := by
      rw [hr2, hr, h.radI, BitVec.toNat_inj]
      exact Option.some_inj
    have hnat : (r2 - (r.extractLsb 50 0 ++ 0#1) + 1).toNat = if r.toNat = 0 then 1 else (r.toNat - 1) * (r.toNat - 1) := by
      rw [BitVec.toNat_add, BitVec.toNat_sub, hshl, hone, hsq]
      split
      next h0 => rw [h0]
      next h0 =>
        obtain ⟨t, ht⟩ : ∃ t, r.toNat = t + 1 := ⟨r.toNat - 1, by omega⟩
        have htlt : t * t < 2 ^ 26 * 2 ^ 26 := Nat.mul_lt_mul'' (by omega) (by omega)
        have : (t + 1) * (t + 1) + 1 = t * t + 2 * (t + 1) := by ring
        rw [ht, Nat.add_sub_cancel]
        omega
    congr 1
    rw [Bool.eq_iff_iff, Bool.not_eq_true', decide_eq_true_iff, ← Bool.not_eq_true, Bool.or_eq_true,
      decide_eq_true_iff, decide_eq_true_iff, hval, hbelow, hnat, hroot]
    refine not_congr ?_
    by_cases hlt : rad.toNat < r.toNat * r.toNat
    · have h0 : r.toNat ≠ 0 := fun h0 => by
        rw [h0] at hlt
        omega
      rw [if_pos hlt, if_neg h0]
      exact or_iff_right hlt.ne'
    · rw [if_neg hlt]
      refine or_iff_left_of_imp fun heq => ?_
      split at heq
      next h0 =>
        have hrad0 := hbr.above
        have := Nat.lt_succ_sqrt rad.toNat
        rw [h0] at hrad0
        have hz : rad.toNat.sqrt = 0 := by omega
        rw [hz] at this
        rw [h0]
        omega
      next h0 =>
        have : (r.toNat - 1) * (r.toNat - 1) < r.toNat * r.toNat := Nat.mul_self_lt_mul_self (by omega)
        omega

/-- It stays until the next start. -/
theorem Root.step (h : Root rad s) {radI : Vec 52} (hi : startI ≠ some true) : Root rad (s.step radI startI) := by
  obtain ⟨q, hq, hqnat⟩ := h.root
  refine ⟨hi, ?_, ?_, ⟨q, ?_, hqnat⟩, ?_⟩
  · simp [Sqrt.step, h.start, h.state]
  · simpa [Sqrt.step, h.start, h.state] using h.count
  · simp [Sqrt.step, h.start, h.count, hq]
  · simpa [Sqrt.step, h.count] using h.ine

end

end Sqrt

/-! ## The root in numbers -/

section
variable {a : BitVec 32}

/-- A positive operand in the range of the normal numbers. -/
structure PositiveNormal (a : BitVec 32) : Prop where
  finite : Half.Finite a
  normal : 1 ≤ floatValue a * 2 ^ 126

theorem PositiveNormal.fields (h : PositiveNormal a) :
    a.msb = false ∧ a.toNat / 2 ^ 23 % 256 = expo a ∧ 2 ^ 23 ≤ significand a ∧
      floatValue a = significand a * 2 ^ (expo a - 1) / 2 ^ 149 := by
  have hnormal := h.normal
  have hpos : 0 < floatValue a := by
    by_contra hle
    have : floatValue a * 2 ^ 126 ≤ 0 := mul_nonpos_of_nonpos_of_nonneg (not_lt.mp hle) (by norm_num)
    linarith
  have hval : floatValue a = significand a * 2 ^ (expo a - 1) / 2 ^ 149 := by
    rw [← abs_floatValue_rat, abs_of_pos hpos]
  have hmsb : a.msb = false := by
    by_contra hmsb
    rw [Half.floatValue_eq, if_pos (by simpa using hmsb)] at hpos
    have := Half.floatMag_nonneg (a.toNat % 2 ^ 31)
    linarith
  have hexp : a.toNat / 2 ^ 23 % 256 ≠ 0 := by
    intro h0
    have hlt : significand a < 2 ^ 23 := by
      rw [significand, if_pos h0]
      omega
    have hone : expo a = 1 := if_pos h0
    rw [hval, hone, Nat.sub_self, pow_zero, mul_one, div_mul_eq_mul_div, one_le_div (by positivity)] at hnormal
    have : (2 : ℚ) ^ 23 ≤ significand a := by linarith
    have : 2 ^ 23 ≤ significand a := by exact_mod_cast this
    omega
  refine ⟨hmsb, ?_, ?_, hval⟩
  · rw [expo, if_neg hexp]
  · rw [significand, if_neg hexp]
    omega

/-- The radicand, and half of the exponent. -/
theorem PositiveNormal.radicand (h : PositiveNormal a) :
    ∃ rad : BitVec 52, fracta52O (some a) = some rad ∧ 2 ^ 50 ≤ rad.toNat ∧ 2 ^ 27 ∣ rad.toNat ∧
      rad.toNat ≤ (2 ^ 24 - 1) * 2 ^ 28 ∧
      significand a * 2 ^ (expo a - 1) * 2 ^ 155 = rad.toNat * (2 ^ ((expo a + 127) / 2)) ^ 2 := by
  obtain ⟨-, hexp, hsig, -⟩ := h.fields
  have hslt := significand_lt a
  obtain ⟨N, z, hN, -, hNnat, hN0, -⟩ := normalized_some (a := a) (by omega)
  have hz : z.toNat = 0 := by
    by_contra hz
    have hle : 2 ^ 1 ≤ 2 ^ z.toNat := Nat.pow_le_pow_right (by omega) (by omega)
    have := Nat.mul_le_mul hsig hle
    have := N.isLt
    omega
  rw [hz, Nat.pow_zero, Nat.mul_one] at hNnat
  have hbit : bit (slice (some a) 30 23) 0 = some (decide (expo a % 2 = 1)) := by
    have : bit (slice (some a) 30 23) 0 = some ((a.extractLsb 30 23).getLsbD 0) := rfl
    rw [this, getLsbD_eq, toNat_extract, ← hexp]
    norm_num
  have hpos := expo_pos a
  rw [fracta52O, hbit, hN]
  by_cases hodd : expo a % 2 = 1
  · refine ⟨0#1 ++ N ++ 0#27, ?_, ?_⟩
    · rw [decide_eq_true hodd, if_neg (by simp)]
      rfl
    · have hnat : (0#1 ++ N ++ 0#27).toNat = significand a * 2 ^ 27 := by
        rw [toNat_append_eq, toNat_pad 1, BitVec.toNat_zero, Nat.add_zero, hNnat]
      rw [hnat]
      refine ⟨by omega, Nat.dvd_mul_left _ _, by omega, ?_⟩
      obtain ⟨t, ht⟩ : ∃ t, expo a = 2 * t + 1 := ⟨expo a / 2, by omega⟩
      have ht' : (expo a + 127) / 2 = t + 64 := by omega
      rw [ht', ht, Nat.add_sub_cancel]
      ring
  · refine ⟨N ++ 0#28, ?_, ?_⟩
    · rw [decide_eq_false hodd, if_pos rfl]
      rfl
    · have hnat : (N ++ 0#28).toNat = significand a * 2 ^ 28 := by
        rw [toNat_append_eq, BitVec.toNat_zero, Nat.add_zero, hNnat]
      rw [hnat]
      refine ⟨by omega, ⟨significand a * 2, by ring⟩, by omega, ?_⟩
      obtain ⟨t, ht⟩ : ∃ t, expo a = 2 * t + 2 := ⟨expo a / 2 - 1, by omega⟩
      have ht' : (expo a + 127) / 2 = t + 64 := by omega
      rw [ht', ht, show 2 * t + 2 - 1 = 2 * t + 1 by omega]
      ring

/-- The root of a radicand rounds the root of the operand: guard and round bit are the last two,
and half way never happens, as the radicand is a multiple of 8 and the square would be 4 more. -/
theorem rounds_root {rad : BitVec 52} {q : BitVec 26} {ine : Bool} {E : Nat} {lsb : Bool} (hE : 1 ≤ E)
    (hrad0 : 2 ^ 50 ≤ rad.toNat) (hdvd : 2 ^ 27 ∣ rad.toNat) (hq : q.toNat = rad.toNat.sqrt)
    (hine : ine = decide (rad.toNat.sqrt * rad.toNat.sqrt ≠ rad.toNat))
    (hval : floatValue a = significand a * 2 ^ (expo a - 1) / 2 ^ 149)
    (hscale : significand a * 2 ^ (expo a - 1) * 2 ^ 155 = rad.toNat * (2 ^ E) ^ 2) :
    RoundsEven (single ℝ) (√(floatValue a))
      (sig 23 E (q.toNat / 4 + (q.getLsbD 1 && ((q.getLsbD 0 || ine) || lsb)).toNat)) := by
  have hqlt := q.isLt
  have hq25 : 2 ^ 25 ≤ q.toNat := by
    rw [hq, Nat.le_sqrt]
    omega
  have hsq : q.toNat * q.toNat ≤ rad.toNat := hq ▸ Nat.sqrt_le rad.toNat
  have hsq' : rad.toNat < (q.toNat + 1) * (q.toNat + 1) := hq ▸ Nat.lt_succ_sqrt rad.toNat
  have hqR : (q.toNat : ℝ) ≤ √(rad.toNat : ℝ) := by
    refine Real.le_sqrt_of_sq_le ?_
    rw [pow_two]
    exact_mod_cast hsq
  have hqR' : √(rad.toNat : ℝ) < q.toNat + 1 := by
    rw [Real.sqrt_lt' (by positivity), pow_two]
    exact_mod_cast hsq'
  have hexact : √(rad.toNat : ℝ) - q.toNat ≠ 0 ↔ rad.toNat.sqrt * rad.toNat.sqrt ≠ rad.toNat := by
    rw [← hq]
    refine not_congr ?_
    rw [sub_eq_zero, Real.sqrt_eq_iff_mul_self_eq (by positivity) (by positivity)]
    constructor
    · intro h
      exact_mod_cast h.symm
    · intro h
      exact_mod_cast h.symm
  have hroot : √(floatValue a : ℝ) * 2 ^ (1 + 150) = (q.toNat + (√(rad.toNat : ℝ) - q.toNat)) * 2 ^ (E - 1) := by
    have hvalR : (floatValue a : ℝ) * (2 ^ 152) ^ 2 = rad.toNat * (2 ^ E) ^ 2 := by
      have hscaleR : (significand a * 2 ^ (expo a - 1) * 2 ^ 155 : ℝ) = rad.toNat * (2 ^ E) ^ 2 := by
        exact_mod_cast hscale
      have hpow : ((2 : ℝ) ^ 152) ^ 2 = 2 ^ 149 * 2 ^ 155 := by
        rw [← pow_mul, ← pow_add]
      rw [← hscaleR, hval, hpow]
      push_cast
      field_simp
    have hsqrt := congrArg Real.sqrt hvalR
    rw [Real.sqrt_mul' _ (by positivity), Real.sqrt_mul' _ (by positivity), Real.sqrt_sq (by positivity),
      Real.sqrt_sq (by positivity)] at hsqrt
    obtain ⟨t, rfl⟩ : ∃ t, E = t + 1 := ⟨E - 1, by omega⟩
    rw [Nat.add_sub_cancel, add_sub_cancel]
    have htwo : √(floatValue a : ℝ) * 2 ^ (1 + 150) * 2 = √(rad.toNat : ℝ) * 2 ^ t * 2 := by
      rw [mul_assoc, ← pow_succ, hsqrt, pow_succ, mul_assoc]
    exact mul_right_cancel₀ two_ne_zero htwo
  have hround := rounds_sig (K := ℝ) (x := q.toNat) (g := 1) hE (by omega) (by omega) (by linarith) (by linarith) hroot
    (q.getLsbD 1) (q.getLsbD 0 || ine) (q.getLsbD 2) ?_ ?_ ?_
  · rw [show q.toNat / 2 ^ (1 + 1) = q.toNat / 4 by omega, sig_add] at hround
    -- no tie, so the last place does not matter
    have hnotie : q.getLsbD 1 = true → (q.getLsbD 0 || ine) = true := by
      intro hguard
      by_contra hrest
      rw [Bool.or_eq_true, not_or, hine, decide_eq_true_iff, not_not, ← hq, getLsbD_eq, decide_eq_true_iff] at hrest
      rw [getLsbD_eq, decide_eq_true_iff] at hguard
      obtain ⟨t, ht⟩ : ∃ t, q.toNat = 4 * t + 2 := ⟨q.toNat / 4, by omega⟩
      have hsquare : rad.toNat = 16 * (t * t) + 16 * t + 4 := by
        rw [← hrest.2, ht]
        ring
      omega
    have hup : (q.getLsbD 1 && ((q.getLsbD 0 || ine) || lsb)) =
        (q.getLsbD 1 && ((q.getLsbD 0 || ine) || q.getLsbD 2)) := by
      cases hguard : q.getLsbD 1 with
      | false => rfl
      | true => rw [hnotie hguard, Bool.true_or, Bool.true_or]
    rw [hup]
    exact hround
  · rw [getLsbD_eq]
  · rw [hexact, Bool.or_eq_true, getLsbD_eq, decide_eq_true_iff, hine, decide_eq_true_iff]
    omega
  · rw [getLsbD_eq]

end

/-! ## Rounding -/

namespace PostNormSqrt

/-- Whether the last place of the root goes up, as the circuit decides it. -/
def up (q : BitVec 26) (ine : Bool) : Bool := q.getLsbD 1 && ((q.getLsbD 0 || ine) || q.getLsbD 3)

section
variable {s : PostNormSqrt} {i : PostNormSqrtIn} {a : BitVec 32}

/-- A carry out of the fraction would need a larger radicand. -/
theorem no_carry {q : BitVec 26} {rad : BitVec 52} (ine : Bool) (hq : q.toNat = rad.toNat.sqrt)
    (hrad : rad.toNat ≤ (2 ^ 24 - 1) * 2 ^ 28) : q.toNat / 4 + (up q ine).toNat < 2 ^ 24 := by
  have hsq : q.toNat * q.toNat ≤ rad.toNat := hq ▸ Nat.sqrt_le rad.toNat
  have hlt : q.toNat < 2 ^ 26 - 2 := by
    by_contra hle
    have := Nat.mul_le_mul (Nat.le_of_not_lt hle) (Nat.le_of_not_lt hle)
    omega
  have hup : (up q ine).toNat ≤ q.toNat / 2 % 2 := by
    rw [up, getLsbD_eq q 1]
    by_cases hguard : q.toNat / 2 ^ 1 % 2 = 1
    · have := Bool.toNat_le (decide (q.toNat / 2 ^ 1 % 2 = 1) && ((q.getLsbD 0 || ine) || q.getLsbD 3))
      omega
    · rw [decide_eq_false hguard, Bool.false_and]
      exact Nat.zero_le _
  omega

theorem fracRnd_some {q : BitVec 26} {ine : Bool} (hq : s.sFract26I = some q) (hine : s.sIneI = some ine)
    (hmode : s.sRmodeI = 0b00) (hlt : q.toNat / 4 + (up q ine).toNat < 2 ^ 24) :
    ∃ f, (s.step i).sFracRnd = some f ∧ f.toNat = q.toNat / 4 + (up q ine).toNat := by
  have hup : sRoundup s = some (up q ine) := by
    have hbit : ∀ k, bit (some q) k = some (q.getLsbD k) := fun _ => rfl
    rw [sRoundup, roundup, if_pos hmode, hq, hine, hbit, hbit, hbit, lor_some, lor_some, land_some, up]
  have htop : (q.extractLsb 25 2).toNat = q.toNat / 4 := by
    have := q.isLt
    rw [toNat_extract]
    omega
  simp only [PostNormSqrt.step, hup, hq]
  cases hu : up q ine with
  | true =>
    have hone : (1 : BitVec (range 25 2)).toNat = 1 := rfl
    rw [hu, Bool.toNat_true] at hlt
    refine ⟨q.extractLsb 25 2 + 1, rfl, ?_⟩
    rw [BitVec.toNat_add, htop, hone, Bool.toNat_true]
    exact Nat.mod_eq_of_lt hlt
  | false => exact ⟨q.extractLsb 25 2, rfl, htop⟩

/-- The word of the root of a positive number. -/
theorem sOutputO_normal (hops : s.Operands (some a)) (ha : isInf (some a) = false) (hmsb : a.msb = false)
    {e : BitVec 8} {f : BitVec 24} (he : s.sExpI = some e) (hf : s.sFracRnd = some f) :
    ∃ w, sOutputO s = some w ∧ w.msb = false ∧ w.toNat % 2 ^ 31 = e.toNat * 2 ^ 23 + f.toNat % 2 ^ 23 := by
  have hsign : bit (some a) 31 = some false := by
    have : bit (some a) 31 = some (a.getLsbD 31) := rfl
    rw [this, ← hmsb, BitVec.msb_eq_getLsbD_last]
  have hnan : nanResult (some a) = false := by
    rw [nanResult, isNan, ha, hsign]
    rfl
  obtain ⟨hw, hnat⟩ := toNat_result false e (f.extractLsb 22 0)
  rw [sOutputO_eq hops, hnan, ha, hsign, he, hf]
  refine ⟨_, rfl, hw, hnat.trans ?_⟩
  rw [toNat_extract, Nat.pow_zero, Nat.div_one]

end

end PostNormSqrt

/-! ## Square roots -/

namespace Core

section
variable {i : Nat → Ports} {s : Nat → Core} {a b : BitVec 32} {op : BitVec 3}

/-- Thirty edges after the pulse the root is there. -/
theorem sqrt_root (h : Pulse a b op i s) {rad : BitVec 52} (hrad : fracta52O (some a) = some rad) :
    After 30 fun n => (s n).sqrt.Root rad := by
  have hin := inputs h.run h.held
  have hstart : ∀ n, 2 ≤ n → (s n).sStartI ≠ some true := fun n hn => by
    obtain ⟨n, rfl⟩ : ∃ k, n = k + 1 := ⟨n - 1, by omega⟩
    rw [h.run n]
    exact h.quiet n (by omega)
  have hedge : ∀ n, 1 ≤ n → (s (n + 1)).sqrt = (s n).sqrt.step (some rad) (s n).sStartI := fun n hn => by
    have : (s (n + 1)).sqrt = (s n).sqrt.step (fracta52O (s n).sOpaI) (s n).sStartI := by
      rw [h.run n]
      rfl
    rw [this, (hin n hn).opa, hrad]
  have hsteps : ∀ k ≤ 26, (s (k + 3)).sqrt.Rooting rad k := by
    intro k hk
    induction k with
    | zero =>
      rw [hedge 2 (by omega)]
      exact Sqrt.rooting_start (serial_start h.run h.start).2 (hstart 2 le_rfl)
    | succ k ih =>
      rw [show k + 1 + 3 = k + 3 + 1 by omega, hedge (k + 3) (by omega)]
      exact (ih (by omega)).step (by omega) (hstart _ (by omega))
  refine After.induct ?_ fun n hn hr => ?_
  · rw [hedge 29 (by omega)]
    exact (hsteps 26 le_rfl).last (hstart 29 (by omega))
  · rw [hedge n (by omega)]
    exact hr.step (hstart n (by omega))

/-- The exponent of the root. -/
theorem sqrt_expo (h : Pulse a b op i s) (ha : PositiveNormal a) :
    After 3 fun n => ∃ e, (s n).postNormSqrt.sExpI = some e ∧ e.toNat = (expo a + 127) / 2 := by
  have hin := inputs h.run h.held
  obtain ⟨-, hexp, hsig, -⟩ := ha.fields
  have hslt := significand_lt a
  have helt := expo_lt ha.finite
  obtain ⟨N, z, -, hz, hNnat, -, -⟩ := normalized_some (a := a) (by omega)
  have hz0 : z.toNat = 0 := by
    by_contra hz
    have hle : 2 ^ 1 ≤ 2 ^ z.toNat := Nat.pow_le_pow_right (by omega) (by omega)
    have := Nat.mul_le_mul hsig hle
    have := N.isLt
    omega
  have hpre : After 2 fun n => ∃ e, (s n).preNormSqrt.sExpO = some e ∧ e.toNat = (expo a + 127) / 2 := by
    refine hin.edge fun n hn => ?_
    have hone : orReduce (slice (some a) 30 0) = some true := by
      rw [orReduce_some, bne_iff_ne.mpr (low_ne_zero (by omega))]
    have hstep : (s (n + 1)).preNormSqrt.sExpO = some (0#1 ++ ((0#1 ++ a.extractLsb 30 23) + 127#9 - (0#3 ++ z)).extractLsb 8 1) := by
      rw [h.run n]
      simp only [step, PreNormSqrt.step, hn.opa, hone, if_true, hz]
      rfl
    refine ⟨_, hstep, ?_⟩
    have hfield : (a.extractLsb 30 23).toNat = expo a := by
      rw [toNat_extract]
      exact hexp
    have hpad3 := toNat_pad 3 z
    have hpad1 := toNat_pad 1 (a.extractLsb 30 23)
    have h127 : (127#9).toNat = 127 := rfl
    rw [toNat_pad 1, toNat_extract, BitVec.toNat_sub, BitVec.toNat_add, hpad3, hz0, hpad1, hfield, h127]
    omega
  refine hpre.edge fun n hn => ?_
  obtain ⟨e, he, henat⟩ := hn
  refine ⟨e.extractLsb 7 0, ?_, ?_⟩
  · rw [h.run n]
    show slice (s n).preNormSqrt.sExpO 7 0 = _
    rw [he]
    rfl
  · rw [toNat_extract, henat]
    omega

/-- The fraction, once the root has come out and is rounded. -/
theorem sqrt_fracRnd (h : Pulse a b op i s) {rad : BitVec 52} (hrad : fracta52O (some a) = some rad) {q : BitVec 26}
    (hq : q.toNat = rad.toNat.sqrt) {ine : Bool} (hine : ine = decide (rad.toNat.sqrt * rad.toNat.sqrt ≠ rad.toNat))
    (hcarry : q.toNat / 4 + (PostNormSqrt.up q ine).toNat < 2 ^ 24) :
    After 33 fun n => ∃ f, (s n).postNormSqrt.sFracRnd = some f ∧
      f.toNat = q.toNat / 4 + (PostNormSqrt.up q ine).toNat := by
  have hregs : After 32 fun n => (s n).postNormSqrt.sFract26I = some q ∧ (s n).postNormSqrt.sIneI = some ine := by
    have hout : After 31 fun n => (s n).sqrt.sqrO = some q ∧ (s n).sqrt.ineO = some ine :=
      (sqrt_root h hrad).edge fun n hn => by
        obtain ⟨q', hq', hqnat⟩ := hn.root
        rw [h.run n]
        show slice (s n).sqrt.sSqrO 25 0 = _ ∧ (s n).sqrt.sIneO = _
        rw [hq', hn.ine, hine]
        refine ⟨congrArg some (BitVec.eq_of_toNat_eq ?_), rfl⟩
        rw [toNat_extract, hqnat, hq]
        have := q.isLt
        omega
    exact hout.edge fun n hn => by
      rw [h.run n]
      exact hn
  have hmode : After 2 fun n => (s n).postNormSqrt.sRmodeI = 0b00 := (inputs h.run h.held).edge fun n hn => by
    rw [h.run n]
    exact hn.rmode
  exact (hregs.and (hmode.mono (by omega))).edge fun n hn => by
    obtain ⟨⟨hf, hi⟩, hm⟩ := hn
    rw [h.run n]
    exact PostNormSqrt.fracRnd_some hf hi hm hcarry

/-- **The square root is rounded to the nearest even.** -/
theorem sqrt_unit (h : Pulse a b op i s) (ha : PositiveNormal a) :
    After 34 fun n => Delivers (√(floatValue a : ℝ)) false (s n).postNormSqrt.outputO := by
  obtain ⟨hmsb, -, hsig, hval⟩ := ha.fields
  obtain ⟨rad, hrad, hrad0, hdvd, hrad1, hscale⟩ := ha.radicand
  obtain ⟨E, hE⟩ : ∃ E, E = (expo a + 127) / 2 := ⟨_, rfl⟩
  rw [← hE] at hscale
  have hpos := expo_pos a
  have helt := expo_lt ha.finite
  have hroot26 : rad.toNat.sqrt < 2 ^ 26 := by
    rw [Nat.sqrt_lt, ← Nat.pow_add]
    exact rad.isLt
  obtain ⟨q, hq⟩ : ∃ q : BitVec 26, q.toNat = rad.toNat.sqrt :=
    ⟨BitVec.ofNat 26 _, by rw [BitVec.toNat_ofNat]; exact Nat.mod_eq_of_lt hroot26⟩
  obtain ⟨ine, hine⟩ : ∃ ine, ine = decide (rad.toNat.sqrt * rad.toNat.sqrt ≠ rad.toNat) := ⟨_, rfl⟩
  obtain ⟨u, hu⟩ : ∃ u, u = PostNormSqrt.up q ine := ⟨_, rfl⟩
  have hround : RoundsEven (single ℝ) (√(floatValue a)) (sig 23 E (q.toNat / 4 + u.toNat)) := by
    rw [hu]
    exact rounds_root (by omega) hrad0 hdvd hq hine hval hscale
  have hcarry : q.toNat / 4 + u.toNat < 2 ^ 24 := hu ▸ PostNormSqrt.no_carry ine hq hrad1
  have hq25 : 2 ^ 25 ≤ q.toNat := by
    rw [hq, Nat.le_sqrt]
    omega
  have hrnd := sqrt_fracRnd h hrad hq hine (hu ▸ hcarry)
  rw [← hu] at hrnd
  refine (hrnd.and (((sqrt_expo h ha).mono (by omega)).and ((sqrt_operands h.run h.held).mono (by omega)))).edge
    fun n hn => ?_
  obtain ⟨⟨f, hf, hfnat⟩, ⟨e, he, henat⟩, hops⟩ := hn
  obtain ⟨w, hw, hwmsb, hwnat⟩ := PostNormSqrt.sOutputO_normal hops (isInf_of_finite ha.finite) hmsb he hf
  have hout : (s (n + 1)).postNormSqrt.outputO = PostNormSqrt.sOutputO (s n).postNormSqrt := by
    rw [h.run n]
    rfl
  refine ⟨w, hout.trans hw, hwmsb, sig 23 E (q.toNat / 4 + u.toNat), ?_, hwnat.trans ?_⟩
  · have habs : |√(floatValue a : ℝ)| = √(floatValue a : ℝ) := abs_of_nonneg (Real.sqrt_nonneg _)
    rw [habs]
    exact hround
  · rw [henat, ← hE, hfnat]
    exact code_sig (by omega) (by omega) (by omega) hcarry

/-- **A started core delivers the rounded square root.** -/
theorem roots (h : Pulse a b 0b100 i s) (ha : PositiveNormal a) :
    After 36 fun n => Delivers (√(floatValue a : ℝ)) false (s n).outputO := by
  refine output_of_unit h.run h.held (P := Delivers (√(floatValue a : ℝ)) false) (t := 34) (by omega) fun n hn => ?_
  have hmux : output1 (i n) (s n) = (s n).postNormSqrt.outputO := by
    rw [output1, (h.held n (by omega)).fpuOp]
    rfl
  show Delivers _ _ (output1 (i n) (s n))
  rw [hmux]
  exact sqrt_unit h ha n hn

/-- The root of two. -/
theorem roots_two : Delivers (√(floatValue 0x40000000 : ℝ)) false (delivered .powerUp 0x40000000 0 0b100) := by
  have ha : significand 0x40000000 = 2 ^ 23 ∧ expo 0x40000000 = 128 := by decide
  have hnormal : 1 ≤ floatValue 0x40000000 * 2 ^ 126 := by
    rw [Half.floatValue_eq, if_neg (by decide), Half.floatMag, mag_operand, ha.1, ha.2]
    norm_num
  exact roots (pulse_pulsed .powerUp _ _ _) ⟨by unfold Half.Finite; decide, hnormal⟩ 41 (by omega)

end

end Core

end FpgaQuat.Fpu
