import FpgaQuaternions.Fpu.Value
import FpgaQuaternions.Lib.DigitRecurrence

/-!
# The quotient

`serial_div` finds the 27 digits of the quotient one at each edge (`Dividing.step`, `Dividing.last`).
-/

namespace FpgaQuat.Fpu

open StdLogic Pipeline Minifloat DigitRecurrence
open Half (floatValue)

/-! ## The digits -/

/-- What `pre_norm_div` hands to `serial_div`: the significands, shifted up. -/
structure SerialDivIn.Held (N D : BitVec 24) (i : SerialDivIn) : Prop where
  dvdnd : i.dvdndI = some (N ++ 0#26)
  dvsor : i.dvsorI = some (0#3 ++ D)
  start : i.startI ≠ some true

namespace SerialDiv

/-- A digit written where there is none yet. -/
theorem setBit_some {q : BitVec 27} {k : Fin 27} (hq : 2 ^ (k.val + 1) ∣ q.toNat) (b : Bool) :
    ∃ q', setBit (some q) k b = some q' ∧ q'.toNat = q.toNat + if b then 2 ^ k.val else 0 := by
  obtain ⟨m, hm⟩ := hq
  have hk : k.val < 27 := k.isLt
  cases b with
  | true =>
    refine ⟨q ||| BitVec.twoPow 27 k, rfl, ?_⟩
    have hpow : 2 ^ k.val < 2 ^ (k.val + 1) := Nat.pow_lt_pow_right (by omega) (Nat.lt_succ_self _)
    rw [BitVec.toNat_or, BitVec.toNat_twoPow_of_lt hk, if_pos rfl, hm, Nat.two_pow_add_eq_or_of_lt hpow]
  | false =>
    refine ⟨q &&& ~~~ BitVec.twoPow 27 k, rfl, ?_⟩
    have hbit : q.getLsbD k = false := by
      rw [BitVec.getLsbD, hm, Nat.testBit_two_pow_mul]
      simp
    have heq : q &&& ~~~ BitVec.twoPow 27 k = q := by
      refine BitVec.eq_of_getLsbD_eq fun i hi => ?_
      rw [BitVec.getLsbD_and, BitVec.getLsbD_not, BitVec.getLsbD_twoPow]
      by_cases hik : k.val = i
      · rw [← hik, hbit, Bool.false_and]
      · simp [hi, hik]
    rw [heq]
    rfl

/-- Before the digit of weight `2 ^ c`. -/
structure Dividing (N D : BitVec 24) (c : Nat) (s : SerialDiv) : Prop where
  start : s.sStartI ≠ some true
  state : s.sState = .busy
  count : s.sCount.val = c
  dvsor : s.sDvsorI = some (0#3 ++ D)
  digits : ∃ q v : BitVec 27, s.sQutntO = some q ∧ vDiv s = some v ∧
    Partial (N.toNat * 2 ^ 26) D.toNat c q.toNat v.toNat

/-- The quotient and the remainder are there. -/
structure Quotient (N D : BitVec 24) (s : SerialDiv) : Prop where
  start : s.sStartI ≠ some true
  state : s.sState = .waiting
  result : ∃ q r : BitVec 27, s.sQutntO = some q ∧ s.sRmndrO = some r ∧
    q.toNat = N.toNat * 2 ^ 26 / D.toNat ∧ r.toNat = N.toNat * 2 ^ 26 % D.toNat

section
variable {N D : BitVec 24} {c : Nat} {s : SerialDiv} {i : SerialDivIn}

theorem dividing_start (hlt : N.toNat < 2 * D.toNat) (hs : s.sStartI = some true) (hi : i.Held N D) :
    Dividing N D 26 (s.step i) where
  start := hi.start
  state := by simp [step, hs]
  count := by simp [step, hs]
  dvsor := hi.dvsor
  digits := by
    have hcount : (s.step i).sCount = 26 := by simp [step, hs]
    have hqutnt : (s.step i).sQutntO = some 0 := by simp [step, hs]; rfl
    have hdvd : (s.step i).sDvdndI = some (N ++ 0#26) := hi.dvdnd
    refine ⟨0, 0#3 ++ (N ++ 0#26).extractLsb 49 26, hqutnt, ?_, ?_⟩
    · rw [vDiv, if_pos hcount, hdvd]
      rfl
    · have hnat : (0#3 ++ (N ++ 0#26).extractLsb 49 26).toNat = N.toNat := by
        have hN := N.isLt
        rw [toNat_pad 3, toNat_extract, toNat_append_eq, BitVec.toNat_zero, Nat.add_zero,
          Nat.mul_div_cancel _ (Nat.two_pow_pos 26)]
        exact Nat.mod_eq_of_lt hN
      rw [hnat]
      exact .start hlt 26

/-- What an edge writes. -/
theorem Dividing.edge (h : Dividing N D c s) (i : SerialDivIn) :
    ∃ q r : BitVec 27, (s.step i).sQutntO = some q ∧ (s.step i).sRmndrO = some r ∧
      (s.step i).sDvd = some (r.extractLsb 25 0 ++ 0#1) ∧ Divided (N.toNat * 2 ^ 26) D.toNat c q.toNat r.toNat := by
  obtain ⟨q, v, hq, hv, hpart⟩ := h.digits
  have hpad : (0#3 ++ D).toNat = D.toNat := toNat_pad 3 D
  have hless : less s = decide (v.toNat < D.toNat) := by
    rw [less, h.dvsor, hv, gt, hpad]
  have hstep : (s.step i).sQutntO = setBit s.sQutntO s.sCount (!less s) ∧ (s.step i).sRmndrO = vRem s ∧
      (s.step i).sDvd = slice (vRem s) 25 0 ++ (0 : Vec 1) := by
    simp [step, h.start, h.state]
  obtain ⟨q', hq', hnat⟩ := setBit_some (q := q) (k := s.sCount) (by rw [h.count]; exact hpart.dvd) (!less s)
  rw [h.count] at hnat
  by_cases hlt : v.toNat < D.toNat
  · have hrem : vRem s = some v := by rw [vRem, hless, decide_eq_true hlt, if_pos rfl, hv]
    refine ⟨q', v, by rw [hstep.1, hq, hq'], by rw [hstep.2.1, hrem], by rw [hstep.2.2, hrem]; rfl, ?_⟩
    rw [hnat, hless, decide_eq_true hlt]
    exact hpart.zero hlt
  · have hrem : vRem s = some (v - (0#3 ++ D)) := by
      rw [vRem, hless, decide_eq_false hlt, if_neg Bool.false_ne_true, hv, h.dvsor]
      rfl
    have hsub : (v - (0#3 ++ D)).toNat = v.toNat - D.toNat := by
      rw [BitVec.toNat_sub_of_le (BitVec.le_def.mpr (by rw [hpad]; omega)), hpad]
    refine ⟨q', v - (0#3 ++ D), by rw [hstep.1, hq, hq'], by rw [hstep.2.1, hrem], by rw [hstep.2.2, hrem]; rfl, ?_⟩
    rw [hnat, hsub, hless, decide_eq_false hlt]
    exact hpart.one (Nat.le_of_not_lt hlt)

/-- **A digit of the quotient at every edge.** -/
theorem Dividing.step (h : Dividing N D (c + 1) s) (hi : i.Held N D) : Dividing N D c (s.step i) := by
  obtain ⟨q, r, hq, -, hdvd, hdiv⟩ := h.edge i
  have hne : s.sCount ≠ 0 := fun h0 => by
    have := h.count
    rw [h0] at this
    simp at this
  have hcount : (s.step i).sCount.val = c := by
    have hcond : ¬ (s.sCount = 0 ∧ s.sState = .busy) := fun h0 => hne h0.1
    simp only [SerialDiv.step, if_neg h.start, if_neg hcond, if_pos h.state]
    rw [Fin.val_sub_one_of_ne_zero hne, h.count, Nat.add_sub_cancel]
  have hbound : c < 26 := by
    have := s.sCount.isLt
    have := h.count
    omega
  refine ⟨hi.start, ?_, hcount, hi.dvsor, q, r.extractLsb 25 0 ++ 0#1, hq, ?_, ?_⟩
  · simp [SerialDiv.step, h.start, h.state, hne]
  · have hne26 : (s.step i).sCount ≠ 26 := fun h26 => by
      rw [h26] at hcount
      have : (26 : Fin 27).val = 26 := rfl
      omega
    rw [vDiv, if_neg hne26, hdvd]
  · have hr : r.toNat < 2 ^ 24 := hdiv.lt.trans D.isLt
    have hnat : (r.extractLsb 25 0 ++ 0#1).toNat = 2 * r.toNat := by
      rw [toNat_append_eq, toNat_extract, BitVec.toNat_zero]
      omega
    rw [hnat]
    exact hdiv.next

theorem Dividing.last (h : Dividing N D 0 s) (hi : i.startI ≠ some true) : Quotient N D (s.step i) := by
  obtain ⟨q, r, hq, hr, -, hdiv⟩ := h.edge i
  have hcount : s.sCount = 0 := Fin.ext h.count
  exact ⟨hi, by simp [SerialDiv.step, h.start, h.state, hcount], q, r, hq, hr, hdiv.done⟩

/-- They stay until the next start. -/
theorem Quotient.step (h : Quotient N D s) (hi : i.startI ≠ some true) : Quotient N D (s.step i) := by
  obtain ⟨q, r, hq, hr, hres⟩ := h.result
  refine ⟨hi, ?_, q, r, ?_, ?_, hres⟩ <;> simp [SerialDiv.step, h.start, h.state, hq, hr]

end

end SerialDiv

/-! ## The significands -/

section
variable {a b : BitVec 32}

/-- An operand shifted up to its leading one. -/
theorem normalized_some (h : significand a ≠ 0) : ∃ (N : BitVec 24) (z : BitVec 6), normalized (some a) = some N ∧
    countLZeros (fract24 (some a)) = some z ∧ N.toNat = significand a * 2 ^ z.toNat ∧ 2 ^ 23 ≤ N.toNat ∧
    z.toNat ≤ 23 := by
  obtain ⟨f, hf, hnat⟩ := fract24_significand a
  rw [← hnat] at h ⊢
  obtain ⟨z, hz, hlog⟩ := countLZeros_log (by omega) h
  have hlow := Nat.log2_self_le h
  have hhigh := Nat.lt_log2_self (n := f.toNat)
  have hpow : 2 ^ f.toNat.log2 * 2 ^ z.toNat = 2 ^ 23 := by rw [← Nat.pow_add]; congr 1; omega
  have hlt : f.toNat * 2 ^ z.toNat < 2 ^ 24 := by
    calc f.toNat * 2 ^ z.toNat < 2 ^ (f.toNat.log2 + 1) * 2 ^ z.toNat :=
          Nat.mul_lt_mul_of_pos_right hhigh (Nat.two_pow_pos _)
      _ = 2 ^ 24 := by rw [Nat.pow_succ, Nat.mul_right_comm, hpow, ← Nat.pow_succ]
  have hN : (f <<< z.toNat).toNat = f.toNat * 2 ^ z.toNat := by
    rw [BitVec.toNat_shiftLeft, Nat.shiftLeft_eq, Nat.mod_eq_of_lt hlt]
  refine ⟨f <<< z.toNat, z, ?_, ?_, hN, ?_, by omega⟩
  · rw [normalized, hf, hz]
    rfl
  · rw [hf, hz]
  · rw [hN, ← hpow]
    exact Nat.mul_le_mul_right _ hlow

/-- The quotient of two operands in units of the last place; `E` is its exponent, and `qd` is 1
where the quotient of the significands is less than 1. -/
theorem quotient_value {N D za zb E qd : Nat} (hN : N = significand a * 2 ^ za) (hD : D = significand b * 2 ^ zb)
    (hb : significand b ≠ 0) (hE : 1 ≤ E) (hexp : expo a + zb + 127 = expo b + za + E + qd) :
    |floatValue a / floatValue b| * 2 ^ 152 = (N * 2 ^ 26 / D : ℚ) * 2 ^ qd * 2 ^ (E - 1) := by
  have ha1 := expo_pos a
  have hb1 := expo_pos b
  obtain ⟨x, hx⟩ : ∃ x, expo a = x + 1 := ⟨expo a - 1, by omega⟩
  obtain ⟨y, hy⟩ : ∃ y, expo b = y + 1 := ⟨expo b - 1, by omega⟩
  obtain ⟨t, rfl⟩ : ∃ t, E = t + 1 := ⟨E - 1, by omega⟩
  have hsb : (significand b : ℚ) ≠ 0 := Nat.cast_ne_zero.mpr hb
  rw [abs_div, abs_floatValue_rat, abs_floatValue_rat, hx, hy, hN, hD]
  simp only [Nat.add_sub_cancel]
  push_cast
  field_simp
  have hpow : (2 : ℚ) ^ (x + zb + 126) = 2 ^ (za + qd + t + y) := by congr 1; omega
  simp only [pow_add] at hpow
  linear_combination (significand a : ℚ) * hpow

/-- A quotient in the range of the normal numbers has an exponent. -/
theorem quotient_expo {N D za zb qd : Nat} (hN : N = significand a * 2 ^ za) (hD : D = significand b * 2 ^ zb)
    (hb : significand b ≠ 0) (hlt : N * 2 ^ qd < 2 * D) (hv : 1 ≤ |floatValue a / floatValue b| * 2 ^ 126) :
    expo b + za + qd < expo a + zb + 127 := by
  have ha1 := expo_pos a
  have hb1 := expo_pos b
  obtain ⟨x, hx⟩ : ∃ x, expo a = x + 1 := ⟨expo a - 1, by omega⟩
  obtain ⟨y, hy⟩ : ∃ y, expo b = y + 1 := ⟨expo b - 1, by omega⟩
  have hsb : (0 : ℚ) < significand b := by
    have := Nat.pos_of_ne_zero hb
    exact_mod_cast this
  by_contra hle
  rw [abs_div, abs_floatValue_rat, abs_floatValue_rat, hx, hy, Nat.add_sub_cancel, Nat.add_sub_cancel, div_div_div_cancel_right₀ (by positivity),
    div_mul_eq_mul_div, one_le_div (by positivity)] at hv
  have hnat : significand b * 2 ^ y ≤ significand a * 2 ^ x * 2 ^ 126 := by exact_mod_cast hv
  have h1 : D * 2 ^ (y + za) ≤ N * 2 ^ (x + zb + 126) := by
    calc D * 2 ^ (y + za) = significand b * 2 ^ y * (2 ^ za * 2 ^ zb) := by rw [hD]; ring
      _ ≤ significand a * 2 ^ x * 2 ^ 126 * (2 ^ za * 2 ^ zb) := Nat.mul_le_mul_right _ hnat
      _ = N * 2 ^ (x + zb + 126) := by rw [hN]; ring
  have h2 : 2 * (N * 2 ^ (x + zb + 126)) ≤ N * 2 ^ qd * 2 ^ (y + za) := by
    calc 2 * (N * 2 ^ (x + zb + 126)) = N * 2 ^ (x + zb + 127) := by ring
      _ ≤ N * 2 ^ (qd + (y + za)) := Nat.mul_le_mul_left _ (Nat.pow_le_pow_right (by omega) (by omega))
      _ = N * 2 ^ qd * 2 ^ (y + za) := by rw [Nat.pow_add, Nat.mul_assoc]
  have h3 : N * 2 ^ qd * 2 ^ (y + za) < 2 * D * 2 ^ (y + za) := Nat.mul_lt_mul_of_pos_right hlt (Nat.two_pow_pos _)
  rw [Nat.mul_assoc 2 D] at h3
  omega

end

/-! ## Rounding -/

namespace PostNormDiv

section
variable {s : PostNormDiv} {i : PostNormDivIn} {a b : BitVec 32}

/-- A quotient whose exponent `E` is that of a normal number, or beyond them. -/
theorem stage1_normal {q : BitVec 27} {e : BitVec 10} {E : Nat} (hq : s.sQutntI = some q) (he : s.sExp10I = some e)
    (hE : (e - (0#9 ++ BitVec.ofBool (!q.getLsbD 26))).toNat = E) (h1 : 1 ≤ E) (h2 : E < 512) :
    (s.step i).sShr1 = 0 ∧
      (∃ l, (s.step i).sShl1 = some l ∧ l.toNat = if E < 256 then (!q.getLsbD 26).toNat else 0) ∧
      ∃ x, (s.step i).sExpo1 = some x ∧ x.toNat = E := by
  obtain ⟨y, hy⟩ : ∃ y, y = e - (0#9 ++ BitVec.ofBool (!q.getLsbD 26)) := ⟨_, rfl⟩
  have hexp10b : s.sExp10I - ((0 : Vec 9) ++ ofBit (lnot (bit s.sQutntI 26))) = some y := by
    rw [hq, he, hy]
    rfl
  rw [← hy] at hE
  have hbit9 : ¬ (bit (some y) 9 = some true ∨ (some y : Vec 10) = 0) := by
    rintro (h | h)
    · have : y.getLsbD 9 = true := Option.some_inj.mp h
      rw [getLsbD_eq, hE, decide_eq_true_iff] at this
      omega
    · rw [Option.some_inj.mp h] at hE
      exact absurd hE.symm (by simp; omega)
  have hbit8 : bit (some y) 8 = some true ↔ ¬ E < 256 := by
    have : bit (some y) 8 = some (y.getLsbD 8) := rfl
    rw [this, Option.some_inj, getLsbD_eq, hE, decide_eq_true_iff]
    omega
  have hslice : (y.extractLsb 8 0).toNat = E := by
    rw [toNat_extract, hE]
    omega
  have hstage : stage1 s = (0, if E < 256 then (0 : Vec 9) ++ ofBit (lnot (bit s.sQutntI 26)) else 0, slice (some y) 8 0) := by
    unfold stage1
    simp only [hexp10b, if_neg hbit9, hbit8]
    by_cases hlt : E < 256 <;> simp [hlt]
  refine ⟨?_, ?_, y.extractLsb 8 0, ?_, hslice⟩
  · simp only [PostNormDiv.step, hstage]
    rfl
  · simp only [PostNormDiv.step, hstage]
    split
    · refine ⟨(0#9 ++ BitVec.ofBool (!q.getLsbD 26)).extractLsb 5 0, ?_, ?_⟩
      · rw [hq]
        rfl
      · have hle := Bool.toNat_le (!q.getLsbD 26)
        rw [toNat_extract, toNat_pad 9, BitVec.toNat_ofBool]
        omega
    · exact ⟨0, rfl, rfl⟩
  · simp only [PostNormDiv.step, hstage]
    rfl

theorem fraco1_normal {q : BitVec 27} {l : BitVec 6} (hq : s.sQutntI = some q) (hr : s.sShr1 = 0) (hl : s.sShl1 = some l) :
    (s.step i).sFraco1 = some (q <<< l.toNat) := by
  simp only [PostNormDiv.step, hr, ne_eq, not_true_eq_false, if_false, hq, hl]
  rfl

/-- Whether the last place goes up. -/
def up (f : BitVec 27) (r : BitVec 27) : Bool :=
  f.getLsbD 2 && ((f.getLsbD 1 || (f.getLsbD 0 || r != 0)) || f.getLsbD 3)

/-- `s_expo3` and `s_fraco2`, the fraction rounded to the nearest even. -/
theorem rounded_normal {f r : BitVec 27} {x : BitVec 9} (hf : s.sFraco1 = some f) (hx : s.sExpo1 = some x)
    (hr : s.sRmndrI = some r) (hmode : s.sRmodeI = 0b00) (hx1 : 1 ≤ x.toNat) :
    ∃ y g, (s.step i).sExpo3 = some y ∧ (s.step i).sFraco2 = some g ∧
      (f.toNat < 2 ^ 26 → x.toNat < 511 → x.toNat ≤ y.toNat + 1) ∧
      (2 ^ 26 ≤ f.toNat → x.toNat < 511 → x.toNat ≤ y.toNat ∧
        y.toNat * 2 ^ 23 + g.toNat % 2 ^ 23 = sig 23 x.toNat (f.toNat / 8 + (up f r).toNat)) := by
  have hup : roundup s.sRmodeI s.sSignI (bit s.sFraco1 2) (bit s.sFraco1 1)
      (lor (bit s.sFraco1 0) (orReduce s.sRmndrI)) (bit s.sFraco1 3) = some (up f r) := by
    have hbit : ∀ k, bit (some f) k = some (f.getLsbD k) := fun _ => rfl
    have hor : orReduce (some r) = some (r != 0) := rfl
    rw [roundup, if_pos hmode, hf, hr, hbit, hbit, hbit, hbit, hor, lor_some, lor_some, lor_some, land_some, up]
  obtain ⟨u, hu⟩ : ∃ u, u = up f r := ⟨_, rfl⟩
  have hle := Bool.toNat_le u
  have hflt := f.isLt
  have htop : (0#1 ++ f.extractLsb 26 3).toNat = f.toNat / 8 := by
    rw [toNat_pad 1, toNat_extract]
    omega
  obtain ⟨g, hg, hgnat⟩ : ∃ g, fracRnd s = some g ∧ g.toNat = f.toNat / 8 + u.toNat := by
    unfold fracRnd
    simp only [hup, ← hu]
    rw [hf]
    cases u with
    | true =>
      refine ⟨(0#1 ++ f.extractLsb 26 3) + 1, rfl, ?_⟩
      have hone : (1 : BitVec (1 + range 26 3)).toNat = 1 := rfl
      rw [BitVec.toNat_add, htop, hone, Bool.toNat_true]
      omega
    | false => exact ⟨0#1 ++ f.extractLsb 26 3, rfl, htop⟩
  have hexpo2 : ∃ z, expo2 s = some z ∧ z.toNat = if f.toNat < 2 ^ 26 then x.toNat - 1 else x.toNat := by
    have hbit : bit s.sFraco1 26 = some (decide (f.toNat / 2 ^ 26 % 2 = 1)) := by
      rw [hf, ← getLsbD_eq]
      rfl
    unfold expo2
    rw [hbit, hx]
    by_cases hlt : f.toNat < 2 ^ 26
    · have : ¬ f.toNat / 2 ^ 26 % 2 = 1 := by omega
      rw [decide_eq_false this, if_pos rfl, if_pos hlt]
      refine ⟨x - 1, rfl, ?_⟩
      have hone : (1 : BitVec 9).toNat = 1 := rfl
      rw [BitVec.toNat_sub_of_le (BitVec.le_def.mpr (hone ▸ hx1)), hone]
    · have : f.toNat / 2 ^ 26 % 2 = 1 := by omega
      rw [decide_eq_true this, if_neg hlt]
      exact ⟨x, by simp, rfl⟩
  obtain ⟨z, hz, hznat⟩ := hexpo2
  have hshr2 : shr2 s = some (decide (2 ^ 24 ≤ g.toNat)) := by
    have : bit (some g) 24 = some (g.getLsbD 24) := rfl
    rw [shr2, hg, this, getLsbD_eq]
    congr 2
    have := g.isLt
    simp
    omega
  simp only [PostNormDiv.step, hshr2, hg, hz]
  by_cases hc : 2 ^ 24 ≤ g.toNat
  · have hg24 : g.toNat = 2 ^ 24 := by omega
    rw [decide_eq_true hc, if_pos rfl, if_pos rfl]
    refine ⟨z + 1, 0#1 ++ g.extractLsb 24 1, rfl, rfl, fun h h' => ?_, fun h h' => ?_⟩
    · rw [if_pos h] at hznat
      rw [BitVec.toNat_add, hznat]
      simp
      omega
    · rw [if_neg (by omega)] at hznat
      have hy : (z + 1).toNat = x.toNat + 1 := by
        rw [BitVec.toNat_add, hznat]
        simp
        omega
      have hfrac : (0#1 ++ g.extractLsb 24 1).toNat = 2 ^ 23 := by
        rw [toNat_pad 1, toNat_extract, hg24]
        rfl
      rw [hy, hfrac, ← hu, sig, ← hgnat, hg24]
      omega
  · rw [decide_eq_false hc, if_neg (by simp), if_neg (by simp)]
    refine ⟨z, g, rfl, rfl, fun h h' => ?_, fun h h' => ?_⟩
    · rw [if_pos h] at hznat
      omega
    · rw [if_neg (by omega)] at hznat
      rw [hznat, ← hu, sig, ← hgnat]
      omega

/-- The word of a quotient that the operands alone do not decide. -/
theorem sOutputO_normal (hops : s.Operands (some a) (some b)) (ha : isInf (some a) = false) (hb : isInf (some b) = false)
    (ha0 : a.extractLsb 30 0 ≠ 0) (hb0 : b.extractLsb 30 0 ≠ 0) {sign : Bool} (hsign : s.sSignI = some sign)
    {y : BitVec 9} {g : BitVec 25} (hy : s.sExpo3 = some y) (hg : s.sFraco2 = some g) :
    ∃ w, sOutputO s = some w ∧ w.msb = sign ∧
      w.toNat % 2 ^ 31 = if 255 ≤ y.toNat then infCode else y.toNat * 2 ^ 23 + g.toNat % 2 ^ 23 := by
  have hone : ∀ x : BitVec 32, x.extractLsb 30 0 ≠ 0 → orReduce (slice (some x) 30 0) = some true := fun x hx => by
    rw [Core.orReduce_some, bne_iff_ne.mpr hx]
  have hnan : nanResult (some a) (some b) = false := by
    rw [nanResult, isNan, isNan, ha, hb, hone a ha0, hone b hb0, lor_some]
    rfl
  have hopb0 : opb0 (some b) = false := by
    rw [opb0, hone b hb0]
    rfl
  have hop0 : op0 (some a) (some b) = false := by
    rw [op0, hone a ha0, hone b hb0, land_some]
    rfl
  have hinf : expInf s = decide (255 ≤ y.toNat) := by
    have hones : (BitVec.allOnes 8).toNat = 255 := rfl
    have hand : andReduce (slice (some y) 7 0) = some (decide (y.toNat % 256 = 255)) := by
      have : andReduce (slice (some y) 7 0) = some (y.extractLsb 7 0 == BitVec.allOnes 8) := rfl
      rw [this, Option.some_inj, Bool.eq_iff_iff, beq_iff_eq, decide_eq_true_iff, ← BitVec.toNat_inj, hones, toNat_extract]
      simp
    have hhigh : bit (some y) 8 = some (y.getLsbD 8) := rfl
    have hlt := y.isLt
    rw [expInf, hy, hand, hhigh, lor_some, getLsbD_eq, decide_eq_decide, Option.some_inj, Bool.or_eq_true,
      decide_eq_true_iff, decide_eq_true_iff]
    omega
  rw [sOutputO_eq hops, hnan, ha, hb, hopb0, hop0, hinf, hsign, hy, hg]
  by_cases hle : 255 ≤ y.toNat
  · simp only [decide_eq_true hle, Bool.or_true, if_true, Bool.false_eq_true, if_false, if_pos hle]
    refine ⟨BitVec.ofBool sign ++ 0b11111111#8 ++ 0#23, ?_, ?_⟩
    · cases sign <;> rfl
    · obtain ⟨hmsb, hnat⟩ := toNat_result sign 0b11111111#8 0#23
      exact ⟨hmsb, hnat⟩
  · simp only [decide_eq_false hle, Bool.or_false, Bool.false_eq_true, if_false, if_neg hle]
    obtain ⟨hmsb, hnat⟩ := toNat_result sign (y.extractLsb 7 0) (g.extractLsb 22 0)
    refine ⟨_, rfl, hmsb, hnat.trans ?_⟩
    rw [toNat_extract, toNat_extract]
    norm_num
    omega

end

end PostNormDiv

/-! ## The quotient in numbers -/

section
variable {a b : BitVec 32}

/-- Two significands with their leading ones in place. -/
theorem quotient_bounds {N D : Nat} (hN0 : 2 ^ 23 ≤ N) (hN1 : N < 2 ^ 24) (hD0 : 2 ^ 23 ≤ D) (hD1 : D < 2 ^ 24) :
    2 ^ 25 ≤ N * 2 ^ 26 / D ∧ N * 2 ^ 26 / D < 2 ^ 27 ∧ (N * 2 ^ 26 / D < 2 ^ 26 ↔ N < D) := by
  have hpos : 0 < D := by omega
  rw [Nat.le_div_iff_mul_le hpos, Nat.div_lt_iff_lt_mul hpos, Nat.div_lt_iff_lt_mul hpos]
  omega

/-- The shifted quotient `f` and the remainder round the quotient of the operands. -/
theorem rounds_quotient {N D : BitVec 24} {f r : BitVec 27} {za zb E qd : Nat} (hN : N.toNat = significand a * 2 ^ za)
    (hD : D.toNat = significand b * 2 ^ zb) (hb : significand b ≠ 0) (hE : 1 ≤ E)
    (hexp : expo a + zb + 127 = expo b + za + E + qd) (hqd : qd ≤ 1)
    (hf : f.toNat = N.toNat * 2 ^ 26 / D.toNat * 2 ^ qd) (hr : r.toNat = N.toNat * 2 ^ 26 % D.toNat)
    (hf0 : 2 ^ 26 ≤ f.toNat) :
    RoundsEven (single ℚ) |floatValue a / floatValue b|
      (sig 23 E (f.toNat / 8 + (PostNormDiv.up f r).toNat)) := by
  have hDpos : 0 < D.toNat := by
    rw [hD]
    exact Nat.mul_pos (Nat.pos_of_ne_zero hb) (Nat.two_pow_pos _)
  have hDq : (0 : ℚ) < D.toNat := by exact_mod_cast hDpos
  have hflt := f.isLt
  have hrlt : r.toNat < D.toNat := hr ▸ Nat.mod_lt _ hDpos
  -- what the datapath does not keep of the quotient
  obtain ⟨e, he⟩ : ∃ e : ℚ, e = ((f.toNat % 2 : Nat) + r.toNat * 2 ^ qd / D.toNat) / 2 := ⟨_, rfl⟩
  have hfrac : (r.toNat * 2 ^ qd / D.toNat : ℚ) < if qd = 0 then 1 else 2 := by
    have hrq : (r.toNat : ℚ) < D.toNat := by exact_mod_cast hrlt
    rw [div_lt_iff₀ hDq]
    interval_cases qd <;> simp <;> linarith
  have hlow : f.toNat % 2 = 0 ∨ qd = 0 := by
    interval_cases qd
    · exact .inr rfl
    · left
      rw [hf]
      omega
  have hfr0 : (0 : ℚ) ≤ r.toNat * 2 ^ qd / D.toNat := by positivity
  have he0 : 0 ≤ e := by
    rw [he]
    positivity
  have he1 : e < 1 := by
    have hmod : ((f.toNat % 2 : Nat) : ℚ) ≤ 1 := by
      have : f.toNat % 2 ≤ 1 := by omega
      exact_mod_cast this
    rw [he]
    rcases hlow with h0 | h0
    · rw [h0]
      split at hfrac <;> push_cast <;> linarith
    · rw [if_pos h0] at hfrac
      linarith
  have hezero : e ≠ 0 ↔ f.toNat % 2 ≠ 0 ∨ r.toNat ≠ 0 := by
    have hiff : e = 0 ↔ f.toNat % 2 = 0 ∧ r.toNat = 0 := by
      constructor
      · intro h0
        rw [he] at h0
        have hmod0 : (0 : ℚ) ≤ (f.toNat % 2 : Nat) := Nat.cast_nonneg _
        have hmod : ((f.toNat % 2 : Nat) : ℚ) = 0 := by linarith
        have hrem : (r.toNat * 2 ^ qd / D.toNat : ℚ) = 0 := by linarith
        refine ⟨Nat.cast_eq_zero.mp hmod, ?_⟩
        have := (div_eq_zero_iff.mp hrem).resolve_right hDq.ne'
        exact Nat.cast_eq_zero.mp ((mul_eq_zero.mp this).resolve_right (by positivity))
      · rintro ⟨h0, h1⟩
        rw [he, h0, h1]
        simp
    rw [ne_eq, hiff]
    tauto
  have hv : |floatValue a / floatValue b| * 2 ^ (1 + 150) = ((f.toNat / 2 : Nat) + e) * 2 ^ (E - 1) := by
    have hval := quotient_value hN hD hb hE hexp
    have hsplit : (N.toNat * 2 ^ 26 : ℚ) = D.toNat * (N.toNat * 2 ^ 26 / D.toNat : Nat) + r.toNat := by
      rw [hr]
      exact_mod_cast (Nat.div_add_mod _ _).symm
    have hhalf : (f.toNat : ℚ) = 2 * (f.toNat / 2 : Nat) + (f.toNat % 2 : Nat) := by
      exact_mod_cast (Nat.div_add_mod _ _).symm
    have hfq : (f.toNat : ℚ) = (N.toNat * 2 ^ 26 / D.toNat : Nat) * 2 ^ qd := by
      rw [hf]
      push_cast
      ring
    have hquot : (N.toNat * 2 ^ 26 / D.toNat : ℚ) * 2 ^ qd = f.toNat + r.toNat * 2 ^ qd / D.toNat := by
      rw [hsplit, hfq]
      field_simp
    rw [hquot] at hval
    have htwo : |floatValue a / floatValue b| * 2 ^ (1 + 150) * 2 = |floatValue a / floatValue b| * 2 ^ 152 := by ring
    have : |floatValue a / floatValue b| * 2 ^ (1 + 150) * 2 = ((f.toNat / 2 : Nat) + e) * 2 ^ (E - 1) * 2 := by
      rw [htwo, hval, hhalf, he]
      ring
    exact mul_right_cancel₀ two_ne_zero this
  have hround := rounds_sig (x := f.toNat / 2) (g := 1) hE (by omega) (by omega) he0 he1 hv (f.getLsbD 2)
    (f.getLsbD 1 || (f.getLsbD 0 || r != 0)) (f.getLsbD 3) ?_ ?_ ?_
  · have hdiv : f.toNat / 2 / 2 ^ (1 + 1) = f.toNat / 8 := by omega
    rw [hdiv, sig_add] at hround
    exact hround
  · rw [getLsbD_eq]
    exact decide_eq_decide.mpr (by omega)
  · rw [hezero, Bool.or_eq_true, Bool.or_eq_true, getLsbD_eq, getLsbD_eq, decide_eq_true_iff, decide_eq_true_iff,
      bne_zero_eq, decide_eq_true_iff]
    omega
  · rw [getLsbD_eq]
    exact decide_eq_decide.mpr (by omega)

/-- The exponent that goes with the quotient. -/
theorem exp10_some {za zb : BitVec 6} (hza : countLZeros (fract24 (some a)) = some za)
    (hzb : countLZeros (fract24 (some b)) = some zb) {X : Nat} (hX : X < 1024)
    (h : expo a + zb.toNat + 127 = expo b + za.toNat + X) :
    ∃ e, expIn (some a) - expIn (some b) + 0b0001111111 - ((0 : Vec 4) ++ countLZeros (fract24 (some a))) +
      ((0 : Vec 4) ++ countLZeros (fract24 (some b))) = some e ∧ e.toNat = X := by
  obtain ⟨ea, hea, hanat⟩ := expIn_expo a
  obtain ⟨eb, heb, hbnat⟩ := expIn_expo b
  refine ⟨ea - eb + 127#10 - (0#4 ++ za) + (0#4 ++ zb), by rw [hea, heb, hza, hzb]; rfl, ?_⟩
  have hpada := toNat_pad 4 za
  have hpadb := toNat_pad 4 zb
  have h127 : (127#10).toNat = 127 := rfl
  have hlt := za.isLt
  simp only [BitVec.toNat_add, BitVec.toNat_sub, hpada, hpadb, h127, hanat, hbnat]
  have hae : expo a < 1024 := hanat ▸ ea.isLt
  have hbe : expo b < 1024 := hbnat ▸ eb.isLt
  omega

end

/-! ## What belongs to two operands -/

/-- The quotient and the remainder of the significands, the exponent `e` that goes with them, and
the exponent `E` of the quotient once its leading one is in place, `qd` places higher. -/
structure IsQuotient (a b : BitVec 32) (q r : BitVec 27) (e : BitVec 10) (qd E : Nat) : Prop where
  digits : ∃ N D : BitVec 24, normalized (some a) = some N ∧ normalized (some b) = some D ∧ N.toNat < 2 * D.toNat ∧
    q.toNat = N.toNat * 2 ^ 26 / D.toNat ∧ r.toNat = N.toNat * 2 ^ 26 % D.toNat
  exp10 : expIn (some a) - expIn (some b) + 0b0001111111 - ((0 : Vec 4) ++ countLZeros (fract24 (some a))) +
    ((0 : Vec 4) ++ countLZeros (fract24 (some b))) = some e
  lead : qd = (!q.getLsbD 26).toNat
  expo : (e - (0#9 ++ BitVec.ofBool (!q.getLsbD 26))).toNat = E
  one_le : 1 ≤ E
  lt : E < 500
  top : 2 ^ 26 ≤ q.toNat * 2 ^ qd
  top_lt : q.toNat * 2 ^ qd < 2 ^ 27
  rounds : ∀ f : BitVec 27, f.toNat = q.toNat * 2 ^ qd →
    RoundsEven (single ℚ) |floatValue a / floatValue b| (sig 23 E (f.toNat / 8 + (PostNormDiv.up f r).toNat))

section
variable {a b : BitVec 32}

theorem significands_of_quotient (hv : 1 ≤ |floatValue a / floatValue b| * 2 ^ 126) :
    significand a ≠ 0 ∧ significand b ≠ 0 := by
  constructor <;> refine significand_of_value fun h0 => ?_ <;> norm_num [h0] at hv

theorem exists_isQuotient (ha : Half.Finite a) (hv : 1 ≤ |floatValue a / floatValue b| * 2 ^ 126) : ∃ q r e qd E, IsQuotient a b q r e qd E := by
  obtain ⟨hsa, hsb⟩ := significands_of_quotient hv
  obtain ⟨N, za, hN, hza, hNnat, hN0, hza23⟩ := normalized_some hsa
  obtain ⟨D, zb, hD, hzb, hDnat, hD0, hzb23⟩ := normalized_some hsb
  have hNlt := N.isLt
  have hDlt := D.isLt
  obtain ⟨hq0, hq1, hq26⟩ := quotient_bounds hN0 hNlt hD0 hDlt
  have hrlt : N.toNat * 2 ^ 26 % D.toNat < 2 ^ 27 := by
    have := Nat.mod_lt (N.toNat * 2 ^ 26) (y := D.toNat) (by omega)
    omega
  obtain ⟨q, hq⟩ : ∃ q : BitVec 27, q.toNat = N.toNat * 2 ^ 26 / D.toNat :=
    ⟨BitVec.ofNat 27 _, by rw [BitVec.toNat_ofNat]; exact Nat.mod_eq_of_lt hq1⟩
  obtain ⟨r, hr⟩ : ∃ r : BitVec 27, r.toNat = N.toNat * 2 ^ 26 % D.toNat :=
    ⟨BitVec.ofNat 27 _, by rw [BitVec.toNat_ofNat]; exact Nat.mod_eq_of_lt hrlt⟩
  -- the leading digit says whether the exponent is one less
  obtain ⟨qd, hqd⟩ : ∃ qd, qd = (!q.getLsbD 26).toNat := ⟨_, rfl⟩
  have hqd26 : qd = if N.toNat < D.toNat then 1 else 0 := by
    rw [hqd, getLsbD_eq, hq]
    split
    next hlt =>
      have : ¬ N.toNat * 2 ^ 26 / D.toNat / 2 ^ 26 % 2 = 1 := by omega
      rw [decide_eq_false this]
      rfl
    next hlt =>
      have : N.toNat * 2 ^ 26 / D.toNat / 2 ^ 26 % 2 = 1 := by omega
      rw [decide_eq_true this]
      rfl
  have hNqd : N.toNat * 2 ^ qd < 2 * D.toNat := by
    rw [hqd26]
    split <;> omega
  have hqd1 : qd ≤ 1 := by
    rw [hqd26]
    split <;> omega
  have htop : 2 ^ 26 ≤ q.toNat * 2 ^ qd ∧ q.toNat * 2 ^ qd < 2 ^ 27 := by
    rw [hqd26, hq]
    split <;> omega
  have hexpo := quotient_expo hNnat hDnat hsb hNqd hv
  have ha255 := expo_lt ha
  have hb1 := expo_pos b
  obtain ⟨E, hE⟩ : ∃ E, Fpu.expo a + zb.toNat + 127 = Fpu.expo b + za.toNat + E + qd :=
    ⟨Fpu.expo a + zb.toNat + 127 - (Fpu.expo b + za.toNat + qd), by omega⟩
  obtain ⟨e, he, henat⟩ := exp10_some hza hzb (X := E + qd) (by omega) (by omega)
  have hexp10 : (e - (0#9 ++ BitVec.ofBool (!q.getLsbD 26))).toNat = E := by
    have hpad : (0#9 ++ BitVec.ofBool (!q.getLsbD 26)).toNat = qd := by
      rw [toNat_pad 9, BitVec.toNat_ofBool, hqd]
    rw [BitVec.toNat_sub_of_le (BitVec.le_def.mpr (by rw [hpad, henat]; omega)), hpad, henat, Nat.add_sub_cancel]
  exact ⟨q, r, e, qd, E, ⟨N, D, hN, hD, by omega, hq, hr⟩, he, hqd, hexp10, by omega, by omega, htop.1, htop.2,
    fun f hf => rounds_quotient hNnat hDnat hsb (by omega) hE hqd1 (hf.trans (by rw [hq])) hr (hf.symm ▸ htop.1)⟩

end

/-! ## Division -/

namespace Core

section
variable {i : Nat → Ports} {s : Nat → Core} {a b : BitVec 32} {op : BitVec 3}

/-- Thirty edges after the pulse the quotient is there. -/
theorem serialDiv_quotient (h : Pulse a b op i s) {N D : BitVec 24} (hN : normalized (some a) = some N)
    (hD : normalized (some b) = some D) (hlt : N.toNat < 2 * D.toNat) :
    After 30 fun n => (s n).serialDiv.Quotient N D := by
  have hin := inputs h.run h.held
  have hstart : ∀ n, 2 ≤ n → (s n).sStartI ≠ some true := fun n hn => by
    obtain ⟨n, rfl⟩ : ∃ k, n = k + 1 := ⟨n - 1, by omega⟩
    rw [h.run n]
    exact h.quiet n (by omega)
  have hheld : ∀ n, 2 ≤ n → SerialDivIn.Held N D {
      dvdndI := dvdnd50O (s n).sOpaI
      dvsorI := dvsor27O (s n).sOpbI
      startI := (s n).sStartI } := fun n hn => by
    have hn1 := hin n (by omega)
    refine ⟨?_, ?_, hstart n hn⟩
    · rw [hn1.opa, dvdnd50O, hN]
      rfl
    · rw [hn1.opb, dvsor27O, hD]
      rfl
  have hdigits : ∀ k ≤ 26, (s (k + 3)).serialDiv.Dividing N D (26 - k) := by
    intro k hk
    induction k with
    | zero =>
      rw [h.run 2]
      exact SerialDiv.dividing_start hlt (serial_start h.run h.start).1 (hheld 2 le_rfl)
    | succ k ih =>
      have hc : 26 - k = 26 - (k + 1) + 1 := by omega
      have hk3 : k + 1 + 3 = k + 3 + 1 := by omega
      have hd := ih (by omega)
      rw [hc] at hd
      rw [hk3, h.run (k + 3)]
      exact hd.step (hheld _ (by omega))
  refine After.induct ?_ fun n hn hq => ?_
  · rw [h.run 29]
    exact (hdigits 26 le_rfl).last (hheld 29 (by omega)).start
  · rw [h.run n]
    exact hq.step (hheld n (by omega)).start

/-- What `post_norm_div` registers. -/
structure DivRegs (a b : BitVec 32) (q r : BitVec 27) (e : BitVec 10) (s : PostNormDiv) : Prop where
  qutnt : s.sQutntI = some q
  rmndr : s.sRmndrI = some r
  exp10 : s.sExp10I = some e
  rmode : s.sRmodeI = 0b00
  sign : s.sSignI = some (a.msb ^^ b.msb)
  operands : s.Operands (some a) (some b)

theorem divRegs (h : Pulse a b op i s) {q r : BitVec 27} {e : BitVec 10}
    (hq : After 30 fun n => (s n).serialDiv.sQutntO = some q ∧ (s n).serialDiv.sRmndrO = some r)
    (he : After 4 fun n => (s n).preNormDiv.exp10O = some e) :
    After 31 fun n => DivRegs a b q r e (s n).postNormDiv := by
  have hin := inputs h.run h.held
  refine (hq.and ((he.mono (by omega)).and (hin.mono (by omega)))).edge fun n hn => ?_
  obtain ⟨⟨hq, hr⟩, he, hin⟩ := hn
  rw [h.run n]
  refine ⟨hq, hr, he, hin.rmode, ?_, ?_⟩
  · have : (lxor (bit (s n).sOpaI 31) (bit (s n).sOpbI 31)) = some (a.msb ^^ b.msb) := by
      rw [hin.opa, hin.opb, BitVec.msb_eq_getLsbD_last, BitVec.msb_eq_getLsbD_last]
      rfl
    exact this
  · refine ⟨?_, ?_, ?_, ?_⟩ <;> simp [step, PostNormDiv.step, hin.opa, hin.opb]

theorem isQuotient_settles {q r : BitVec 27} {e : BitVec 10} {qd E : Nat} (hquot : IsQuotient a b q r e qd E)
    (h : Pulse a b op i s) :
    After 30 fun n => (s n).serialDiv.sQutntO = some q ∧ (s n).serialDiv.sRmndrO = some r := by
  obtain ⟨N, D, hN, hD, hlt, hq, hr⟩ := hquot.digits
  refine (serialDiv_quotient h hN hD hlt).imp fun n hn => ?_
  obtain ⟨q', r', hq', hr', hqn, hrn⟩ := hn.result
  rw [hq', hr', BitVec.eq_of_toNat_eq (hqn.trans hq.symm), BitVec.eq_of_toNat_eq (hrn.trans hr.symm)]
  exact ⟨rfl, rfl⟩

theorem isQuotient_exp10 {q r : BitVec 27} {e : BitVec 10} {qd E : Nat} (hquot : IsQuotient a b q r e qd E)
    (h : Pulse a b op i s) : After 4 fun n => (s n).preNormDiv.exp10O = some e :=
  (Core.exp10_settles h.run h.held).imp fun _ hn => hn.trans hquot.exp10

/-- The code that is put together from the exponent and the rounded fraction; from 255 on it is
infinity's. -/
theorem code_normal {E M y g : Nat} (hM : 2 ^ 23 ≤ M) (hsum : y * 2 ^ 23 + g % 2 ^ 23 = sig 23 E M) :
    (if 255 ≤ y then infCode else y * 2 ^ 23 + g % 2 ^ 23) = min (sig 23 E M) infCode := by
  unfold sig at *
  unfold infCode
  split <;> omega

/-- From register to register. -/
theorem div_registers (h : Pulse a b op i s) {q r f : BitVec 27} {e : BitVec 10} {qd E : Nat}
    (hquot : IsQuotient a b q r e qd E) (hf : f.toNat = q.toNat * 2 ^ qd) :
    After 34 fun n => DivRegs a b q r e (s n).postNormDiv ∧
      ∃ y g, (s n).postNormDiv.sExpo3 = some y ∧ (s n).postNormDiv.sFraco2 = some g ∧
        (if 255 ≤ y.toNat then infCode else y.toNat * 2 ^ 23 + g.toNat % 2 ^ 23) =
          min (sig 23 E (f.toNat / 8 + (PostNormDiv.up f r).toNat)) infCode := by
  have hE := hquot.one_le
  have hElt := hquot.lt
  have hf26 : 2 ^ 26 ≤ f.toNat := hf ▸ hquot.top
  have hflt := f.isLt
  have hqlt := q.isLt
  have hregs := divRegs h (isQuotient_settles hquot h) (isQuotient_exp10 hquot h)
  have hstage1 : After 32 fun n => (s n).postNormDiv.sShr1 = 0 ∧
      (∃ k, (s n).postNormDiv.sShl1 = some k ∧ k.toNat = if E < 256 then qd else 0) ∧
      ∃ x, (s n).postNormDiv.sExpo1 = some x ∧ x.toNat = E :=
    hregs.edge fun n hn => by
      rw [h.run n, hquot.lead]
      exact PostNormDiv.stage1_normal hn.qutnt hn.exp10 hquot.expo hE (by omega)
  have hfraco1 : After 33 fun n => (s n).postNormDiv.sFraco1 = some (if E < 256 then f else q) :=
    (hstage1.and (hregs.mono (by omega))).edge fun n hn => by
      obtain ⟨⟨hshr, ⟨k, hk, hknat⟩, -⟩, hn⟩ := hn
      rw [h.run n]
      refine (PostNormDiv.fraco1_normal hn.qutnt hshr hk).trans (congrArg some (BitVec.eq_of_toNat_eq ?_))
      rw [BitVec.toNat_shiftLeft, Nat.shiftLeft_eq, hknat]
      split
      · rw [← hf, Nat.mod_eq_of_lt hflt]
      · rw [Nat.pow_zero, Nat.mul_one, Nat.mod_eq_of_lt hqlt]
  refine ((hfraco1.and ((hstage1.mono (by omega)).and (hregs.mono (by omega)))).edge fun n hn => ?_).and
    (hregs.mono (by omega)) |>.imp fun n hn => ⟨hn.2, hn.1⟩
  obtain ⟨hf1, ⟨-, -, x, hx, hxnat⟩, hn⟩ := hn
  obtain ⟨y, g, hy, hg, hlo, hhi⟩ := PostNormDiv.rounded_normal (i := _) hf1 hx hn.rmndr hn.rmode (hxnat ▸ hE)
  rw [h.run n]
  refine ⟨y, g, hy, hg, ?_⟩
  rw [hxnat] at hlo hhi
  by_cases hlt : E < 256
  · rw [if_pos hlt] at hhi
    obtain ⟨-, hsum⟩ := hhi hf26 (by omega)
    exact code_normal (by omega) hsum
  · -- beyond the range the quotient is not shifted, and the exponent may lose one
    rw [if_neg hlt] at hlo hhi
    have hy255 : 255 ≤ y.toNat := by
      by_cases hq26 : q.toNat < 2 ^ 26
      · have := hlo hq26 (by omega)
        omega
      · have := (hhi (by omega) (by omega)).1
        omega
    rw [if_pos hy255, sig, infCode]
    omega

/-- **The divider rounds the exact quotient to the nearest even**, where it is in the range of the
normal numbers or beyond it. -/
theorem div_unit (h : Pulse a b op i s) (ha : Half.Finite a) (hb : Half.Finite b)
    (hv : 1 ≤ |floatValue a / floatValue b| * 2 ^ 126) :
    After 35 fun n => Delivers (floatValue a / floatValue b) (a.msb ^^ b.msb) (s n).postNormDiv.outputO := by
  obtain ⟨hsa, hsb⟩ := significands_of_quotient hv
  obtain ⟨q, r, e, qd, E, hquot⟩ := exists_isQuotient ha hv
  obtain ⟨f, hf⟩ : ∃ f : BitVec 27, f.toNat = q.toNat * 2 ^ qd :=
    ⟨BitVec.ofNat 27 (q.toNat * 2 ^ qd), by rw [BitVec.toNat_ofNat, Nat.mod_eq_of_lt hquot.top_lt]⟩
  refine (div_registers h hquot hf).edge fun n hn => ?_
  obtain ⟨hn, y, g, hy, hg, hcode⟩ := hn
  obtain ⟨w, hw, hmsb, hnat⟩ := PostNormDiv.sOutputO_normal hn.operands (isInf_of_finite ha) (isInf_of_finite hb)
    (low_ne_zero hsa) (low_ne_zero hsb) hn.sign hy hg
  have hout : (s (n + 1)).postNormDiv.outputO = PostNormDiv.sOutputO (s n).postNormDiv := by
    rw [h.run n]
    rfl
  exact ⟨w, hout.trans hw, hmsb, _, hquot.rounds f hf, hnat.trans hcode⟩

/-- **A started core delivers the rounded quotient.** -/
theorem divides (h : Pulse a b 0b011 i s) (ha : Half.Finite a) (hb : Half.Finite b)
    (hv : 1 ≤ |floatValue a / floatValue b| * 2 ^ 126) :
    After 37 fun n => Delivers (floatValue a / floatValue b) (a.msb ^^ b.msb) (s n).outputO := by
  refine output_of_unit h.run h.held (P := Delivers (floatValue a / floatValue b) (a.msb ^^ b.msb)) (t := 35) (by omega)
    fun n hn => ?_
  have hmux : output1 (i n) (s n) = (s n).postNormDiv.outputO := by
    rw [output1, (h.held n (by omega)).fpuOp]
    rfl
  show Delivers _ _ (output1 (i n) (s n))
  rw [hmux]
  exact div_unit h ha hb hv n hn

/-- One by three. -/
theorem divides_third :
    Delivers (floatValue 0x3F800000 / floatValue 0x40400000) false (delivered .powerUp 0x3F800000 0x40400000 0b011) := by
  have ha : significand 0x3F800000 = 2 ^ 23 ∧ expo 0x3F800000 = 127 := by decide
  have hb : significand 0x40400000 = 3 * 2 ^ 22 ∧ expo 0x40400000 = 128 := by decide
  have hv : 1 ≤ |floatValue 0x3F800000 / floatValue 0x40400000| * 2 ^ 126 := by
    rw [abs_div, abs_floatValue_rat, abs_floatValue_rat, ha.1, ha.2, hb.1, hb.2]
    norm_num
  exact divides (pulse_pulsed .powerUp _ _ _) (by unfold Half.Finite; decide) (by unfold Half.Finite; decide) hv 41
    (by omega)

end

end Core

end FpgaQuat.Fpu
