import FpgaQuaternions.Fpu.Quotient

/-!
# The product

`mul_24` takes four partial sums, one at an edge (`Summing.step`), and its output is the exact
product of the significands (`fractO_product`).  `post_norm_mul` feeds the carry of its rounding back into
the sticky bit; the rounding settles all the same, as a carry leaves the last place set
(`PostNormMul.up_of_carry`).
-/

namespace FpgaQuat.Fpu

open StdLogic Pipeline Minifloat
open Half (floatValue)

/-! ## The partial sums -/

namespace Mul24

/-- The products of step `k` for the factors `A` and `B`. -/
def part (A B : BitVec 24) (k : Fin 4) : Fin 4 → Vec 24 :=
  prods { powerUp with sFractaI := some A, sFractbI := some B } k

def total (A B : BitVec 24) (k : Fin 4) : Vec 24 :=
  haveI := four
  part A B k 0 + part A B k 1 + part A B k 2 + part A B k 3

theorem prods_eq {A B : BitVec 24} {s : Mul24} (ha : s.sFractaI = some A) (hb : s.sFractbI = some B) (k : Fin 4) :
    s.prods k = part A B k := by
  have hprod : ∀ m, s.prod k m = prod { powerUp with sFractaI := some A, sFractbI := some B } k m := fun m => by
    unfold prod
    rw [ha, hb]
  funext m
  unfold part prods
  simp only [hprod]

theorem toNat_mult {m n : Nat} (x : BitVec m) (y : BitVec n) :
    (x.setWidth (m + n) * y.setWidth (m + n)).toNat = x.toNat * y.toNat := by
  have hm : x.toNat < 2 ^ m := x.isLt
  have hn : y.toNat < 2 ^ n := y.isLt
  have hx : x.toNat < 2 ^ (m + n) := hm.trans_le (Nat.pow_le_pow_right (by omega) (by omega))
  have hy : y.toNat < 2 ^ (m + n) := hn.trans_le (Nat.pow_le_pow_right (by omega) (by omega))
  have hxy : x.toNat * y.toNat < 2 ^ (m + n) := by
    rw [Nat.pow_add]
    exact Nat.mul_lt_mul'' hm hn
  rw [BitVec.toNat_mul, BitVec.toNat_setWidth, BitVec.toNat_setWidth, Nat.mod_eq_of_lt hx, Nat.mod_eq_of_lt hy,
    Nat.mod_eq_of_lt hxy]

/-- Two halves of 12 bits, multiplied in pieces of six. -/
theorem total_halves (x y : BitVec 12) :
    ∃ t : BitVec 24, (mult (slice (some x) 11 6) (slice (some y) 11 6) ++ (0 : Vec 12)) +
        ((0 : Vec 6) ++ mult (slice (some x) 11 6) (slice (some y) 5 0) ++ (0 : Vec 6)) +
        ((0 : Vec 6) ++ mult (slice (some x) 5 0) (slice (some y) 11 6) ++ (0 : Vec 6)) +
        ((0 : Vec 12) ++ mult (slice (some x) 5 0) (slice (some y) 5 0)) = some t ∧ t.toNat = x.toNat * y.toNat := by
  obtain ⟨xh, hxh⟩ : ∃ xh, xh = x.extractLsb 11 6 := ⟨_, rfl⟩
  obtain ⟨xl, hxl⟩ : ∃ xl, xl = x.extractLsb 5 0 := ⟨_, rfl⟩
  obtain ⟨yh, hyh⟩ : ∃ yh, yh = y.extractLsb 11 6 := ⟨_, rfl⟩
  obtain ⟨yl, hyl⟩ : ∃ yl, yl = y.extractLsb 5 0 := ⟨_, rfl⟩
  have hx : x.toNat = xh.toNat * 64 + xl.toNat := by
    have := x.isLt
    rw [hxh, hxl, toNat_extract, toNat_extract]
    omega
  have hy : y.toNat = yh.toNat * 64 + yl.toNat := by
    have := y.isLt
    rw [hyh, hyl, toNat_extract, toNat_extract]
    omega
  refine ⟨((xh.setWidth 12 * yh.setWidth 12) ++ 0#12) + (0#6 ++ (xh.setWidth 12 * yl.setWidth 12) ++ 0#6) +
    (0#6 ++ (xl.setWidth 12 * yh.setWidth 12) ++ 0#6) + (0#12 ++ (xl.setWidth 12 * yl.setWidth 12)), ?_, ?_⟩
  · rw [hxh, hxl, hyh, hyl]
    rfl
  · have hhh : (xh.setWidth 12 * yh.setWidth 12).toNat = xh.toNat * yh.toNat := toNat_mult xh yh
    have hhl : (xh.setWidth 12 * yl.setWidth 12).toNat = xh.toNat * yl.toNat := toNat_mult xh yl
    have hlh : (xl.setWidth 12 * yh.setWidth 12).toNat = xl.toNat * yh.toNat := toNat_mult xl yh
    have hll : (xl.setWidth 12 * yl.setWidth 12).toNat = xl.toNat * yl.toNat := toNat_mult xl yl
    have hlt : x.toNat * y.toNat < 2 ^ 12 * 2 ^ 12 := Nat.mul_lt_mul'' x.isLt y.isLt
    have hmul : x.toNat * y.toNat =
        xh.toNat * yh.toNat * 4096 + xh.toNat * yl.toNat * 64 + xl.toNat * yh.toNat * 64 + xl.toNat * yl.toNat := by
      rw [hx, hy]
      ring
    simp only [BitVec.toNat_add, toNat_append_eq, BitVec.toNat_zero, hhh, hhl, hlh, hll]
    rw [hmul] at hlt ⊢
    omega

/-- **The output is the exact product.** -/
theorem fractO_product {A B : BitVec 24} {s : Mul24} (h : ∀ k, s.sum k = total A B k) :
    ∃ p, s.fractO = some p ∧ p.toNat = A.toNat * B.toNat := by
  obtain ⟨t0, h0, hn0⟩ := total_halves (A.extractLsb 23 12) (B.extractLsb 23 12)
  obtain ⟨t1, h1, hn1⟩ := total_halves (A.extractLsb 23 12) (B.extractLsb 11 0)
  obtain ⟨t2, h2, hn2⟩ := total_halves (A.extractLsb 11 0) (B.extractLsb 23 12)
  obtain ⟨t3, h3, hn3⟩ := total_halves (A.extractLsb 11 0) (B.extractLsb 11 0)
  have ha := A.isLt
  have hb := B.isLt
  refine ⟨(t0 ++ 0#24) + (0#12 ++ t1 ++ 0#12) + (0#12 ++ t2 ++ 0#12) + (0#24 ++ t3), ?_, ?_⟩
  · have e0 : s.sum 0 = some t0 := (h 0).trans h0
    have e1 : s.sum 1 = some t1 := (h 1).trans h1
    have e2 : s.sum 2 = some t2 := (h 2).trans h2
    have e3 : s.sum 3 = some t3 := (h 3).trans h3
    unfold fractO
    rw [e0, e1, e2, e3]
    rfl
  · rw [toNat_extract, toNat_extract] at hn0 hn1 hn2 hn3
    obtain ⟨ah, hah⟩ : ∃ ah, ah = A.toNat / 2 ^ 12 % 2 ^ 12 := ⟨_, rfl⟩
    obtain ⟨al, hal⟩ : ∃ al, al = A.toNat / 2 ^ 0 % 2 ^ 12 := ⟨_, rfl⟩
    obtain ⟨bh, hbh⟩ : ∃ bh, bh = B.toNat / 2 ^ 12 % 2 ^ 12 := ⟨_, rfl⟩
    obtain ⟨bl, hbl⟩ : ∃ bl, bl = B.toNat / 2 ^ 0 % 2 ^ 12 := ⟨_, rfl⟩
    have hn0 : t0.toNat = ah * bh := by rw [hn0, hah, hbh]
    have hn1 : t1.toNat = ah * bl := by rw [hn1, hah, hbl]
    have hn2 : t2.toNat = al * bh := by rw [hn2, hal, hbh]
    have hn3 : t3.toNat = al * bl := by rw [hn3, hal, hbl]
    have hA : A.toNat = ah * 4096 + al := by omega
    have hB : B.toNat = bh * 4096 + bl := by omega
    have hmul : A.toNat * B.toNat = ah * bh * 2 ^ 24 + ah * bl * 2 ^ 12 + al * bh * 2 ^ 12 + al * bl := by
      rw [hA, hB]
      ring
    have hlt : A.toNat * B.toNat < 2 ^ 24 * 2 ^ 24 := Nat.mul_lt_mul'' ha hb
    simp only [BitVec.toNat_add, toNat_append_eq, BitVec.toNat_zero, hn0, hn1, hn2, hn3]
    rw [hmul] at hlt ⊢
    omega

/-- `k` edges after `mul_24` became busy, the factors held. -/
structure Summing (A B : BitVec 24) (k : Nat) (s : Mul24) : Prop where
  start : s.sStartI ≠ some true
  state : s.sState = .busy
  count : s.count.val = k
  fracta : s.sFractaI = some A
  fractb : s.sFractbI = some B
  prod2 : ∀ j : Fin 4, j.val < k → s.prod2 j = part A B j
  sum : ∀ j : Fin 4, j.val + 1 < k → s.sum j = total A B j

/-- All four sums taken. -/
structure Product (A B : BitVec 24) (s : Mul24) : Prop where
  start : s.sStartI ≠ some true
  state : s.sState = .waiting
  sum : ∀ j, s.sum j = total A B j

/-- The factors are at the inputs, and no start. -/
structure Held (A B : BitVec 24) (i : Mul24In) : Prop where
  fracta : i.fractaI = some A
  fractb : i.fractbI = some B
  start : i.startI ≠ some true

section
variable {A B : BitVec 24} {k : Nat} {s : Mul24} {i : Mul24In}

theorem summing_start (hs : s.sStartI = some true) (hi : Held A B i) : Summing A B 0 (s.step i) :=
  ⟨hi.start, by simp [step, hs], by simp [step, hs], hi.fracta, hi.fractb, nofun, nofun⟩

theorem Summing.sum_step (h : Summing A B k s) (i : Mul24In) (j : Fin 4) (hj : j.val < k) :
    (s.step i).sum j = total A B j := by
  simp only [step]
  split
  · rw [h.prod2 j hj, total]
  next hc =>
    refine h.sum j ?_
    have hne : s.count.val ≠ j.val + 1 := fun he => hc ⟨Fin.ext he, h.state⟩
    have := h.count
    omega

theorem Summing.step (h : Summing A B k s) (hk : k < 4) (hi : Held A B i) : Summing A B (k + 1) (s.step i) := by
  have hcount : s.count ≠ 4 := fun h4 => by
    have := h.count
    rw [h4] at this
    exact absurd this (by simp; omega)
  refine ⟨hi.start, ?_, ?_, hi.fracta, hi.fractb, fun j hj => ?_, fun j hj => h.sum_step i j (by omega)⟩
  · simp [Mul24.step, h.start, hcount, h.state]
  · have hlt : s.count < Fin.last 4 := Fin.lt_last_iff_ne_last.mpr hcount
    simp only [Mul24.step, if_neg h.start, if_neg (fun hc => hcount hc.1 : ¬ (s.count = 4 ∧ s.sState = .busy)),
      if_pos h.state]
    rw [Fin.val_add_one_of_lt hlt, h.count]
  · simp only [Mul24.step]
    split
    · exact prods_eq h.fracta h.fractb j
    next hc =>
      refine h.prod2 j ?_
      have hne : s.count.val ≠ j.val := fun he => hc (Fin.ext he)
      have := h.count
      omega

theorem Summing.last (h : Summing A B 4 s) (hi : i.startI ≠ some true) : Product A B (s.step i) := by
  have hcount : s.count = 4 := Fin.ext h.count
  exact ⟨hi, by simp [Mul24.step, h.start, hcount, h.state], fun j => h.sum_step i j j.isLt⟩

/-- They stay until the next start. -/
theorem Product.step (h : Product A B s) (hi : i.startI ≠ some true) : Product A B (s.step i) := by
  refine ⟨hi, by simp [Mul24.step, h.start, h.state], fun j => ?_⟩
  simp only [Mul24.step, h.state]
  simpa using h.sum j

end

end Mul24

/-! ## Rounding -/

namespace PostNormMul

/-- Whether the last place goes up; `lost` is what the shift to the right left behind. -/
def up (F : BitVec 48) (lost : Bool) : Bool :=
  F.getLsbD 22 && ((F.getLsbD 21 || (F.extractLsb 20 0 != 0 || lost)) || F.getLsbD 23)

/-- With the last place set the bits behind the guard bit do not matter. -/
theorem up_of_carry {F : BitVec 48} (h : F.toNat / 2 ^ 23 % 2 = 1) (lost lost' : Bool) : up F lost = up F lost' := by
  have hlsb : F.getLsbD 23 = true := by rw [getLsbD_eq, decide_eq_true h]
  unfold up
  rw [hlsb, Bool.or_true, Bool.or_true]

section
variable {s : PostNormMul} {i : PostNormMulIn} {a b : BitVec 32} {P F : BitVec 48}

theorem zeros_some (hP : P.toNat ≠ 0) (h : s.sFract48I = some P) :
    ∃ z, (s.step i).sZeros = some z ∧ z.toNat = if 2 ^ 47 ≤ P.toNat then 0 else 46 - P.toNat.log2 := by
  have hbit : bit (some P) 47 = some (decide (2 ^ 47 ≤ P.toNat)) := by
    have : bit (some P) 47 = some (P.getLsbD 47) := rfl
    have hlt := P.isLt
    rw [this, getLsbD_eq, Option.some_inj]
    exact decide_eq_decide.mpr (by omega)
  simp only [PostNormMul.step, h, hbit]
  by_cases hle : 2 ^ 47 ≤ P.toNat
  · rw [decide_eq_true hle, if_neg (by simp), if_pos hle]
    exact ⟨0, rfl, rfl⟩
  · rw [decide_eq_false hle, if_pos rfl, if_neg hle]
    have hW : (P.extractLsb 46 1).toNat = P.toNat / 2 := by
      rw [toNat_extract]
      omega
    have hslice : slice (some P) 46 1 = some (P.extractLsb 46 1) := rfl
    rw [hslice]
    by_cases h1 : P.toNat = 1
    · have hzero : P.extractLsb 46 1 = 0 := BitVec.eq_of_toNat_eq (by rw [hW, h1]; rfl)
      obtain ⟨z, hz, hnat⟩ := countLZeros_zero (w := range 46 1) (by decide)
      have hlog : Nat.log2 1 = 0 := rfl
      rw [hzero]
      exact ⟨z, hz, by rw [hnat, h1, hlog]⟩
    · obtain ⟨z, hz, hnat⟩ := countLZeros_log (v := P.extractLsb 46 1) (by decide) (by rw [hW]; omega)
      refine ⟨z, hz, ?_⟩
      have hlog : P.toNat.log2 = (P.toNat / 2).log2 + 1 := by
        rw [Nat.log2_def P.toNat, if_pos (by omega)]
      have hrange : range 46 1 = 46 := rfl
      rw [hW] at hnat
      omega

/-- A product whose exponent `E` is that of a normal number, or beyond them. -/
theorem stage1_normal {e : BitVec 10} {z : BitVec 6} {E c : Nat} (hP : s.sFract48I = some P) (he : s.sExp10I = some e)
    (hz : s.sZeros = some z) (hc : c = if 2 ^ 47 ≤ P.toNat then 1 else 0) (hE : (e.toNat + c) % 1024 = E + z.toNat)
    (h1 : 1 ≤ E) (h2 : E + z.toNat < 512) :
    (∃ k, (s.step i).sShr2 = some k ∧ k.toNat = if E < 256 then c else 0) ∧
      (∃ l, (s.step i).sShl2 = some l ∧ l.toNat = if E < 256 then z.toNat else 0) ∧
      ∃ x, (s.step i).sExpo1 = some x ∧ x.toNat = if E < 256 then E else 255 := by
  obtain ⟨u, hu⟩ : ∃ u, u = 0#9 ++ BitVec.ofBool (P.getLsbD 47) := ⟨_, rfl⟩
  have hunat : u.toNat = c := by
    have hlt := P.isLt
    rw [hu, toNat_pad 9, BitVec.toNat_ofBool, getLsbD_eq, hc]
    by_cases hle : 2 ^ 47 ≤ P.toNat
    · have : P.toNat / 2 ^ 47 % 2 = 1 := by omega
      rw [decide_eq_true this, if_pos hle]
      rfl
    · have : ¬ P.toNat / 2 ^ 47 % 2 = 1 := by omega
      rw [decide_eq_false this, if_neg hle]
      rfl
  have hpadz := toNat_pad 4 z
  have hc1 : c ≤ 1 := by
    rw [hc]
    split <;> omega
  have hcarry : (0 : Vec 9) ++ ofBit (carry s) = some u := by
    rw [carry, hP, hu]
    rfl
  have hzeros : (0 : Vec 4) ++ s.sZeros = some (0#4 ++ z) := by
    rw [hz]
    rfl
  have ha : (e + u).toNat = E + z.toNat := by rw [BitVec.toNat_add, hunat]; exact hE
  have hb : (e + u - (0#4 ++ z)).toNat = E := by
    rw [BitVec.toNat_sub_of_le (BitVec.le_def.mpr (by rw [ha, hpadz]; omega)), ha, hpadz, Nat.add_sub_cancel]
  have hbita : ¬ (bit (some (e + u)) 9 = some true ∨ (some (e + u) : Vec 10) = 0) := by
    rintro (h | h)
    · have : (e + u).getLsbD 9 = true := Option.some_inj.mp h
      rw [getLsbD_eq, ha, decide_eq_true_iff] at this
      omega
    · rw [Option.some_inj.mp h] at ha
      exact absurd ha.symm (by simp; omega)
  have hbitb : ¬ (bit (some (e + u - (0#4 ++ z))) 9 = some true ∨ (some (e + u - (0#4 ++ z)) : Vec 10) = 0) := by
    rintro (h | h)
    · have : (e + u - (0#4 ++ z)).getLsbD 9 = true := Option.some_inj.mp h
      rw [getLsbD_eq, hb, decide_eq_true_iff] at this
      omega
    · rw [Option.some_inj.mp h] at hb
      exact absurd hb.symm (by simp; omega)
  have hbit8 : bit (some (e + u - (0#4 ++ z))) 8 = some true ↔ ¬ E < 256 := by
    have : bit (some (e + u - (0#4 ++ z))) 8 = some ((e + u - (0#4 ++ z)).getLsbD 8) := rfl
    rw [this, Option.some_inj, getLsbD_eq, hb, decide_eq_true_iff]
    omega
  have hadd : s.sExp10I + some u = some (e + u) := by
    rw [he]
    rfl
  have hsub : (some (e + u) : Vec 10) - some (0#4 ++ z) = some (e + u - (0#4 ++ z)) := rfl
  have hstage : stage1 s =
      if E < 256 then (some u, some (0#4 ++ z), slice (some (e + u - (0#4 ++ z))) 8 0) else (0, 0, 0b011111111) := by
    unfold stage1
    simp only [hcarry, hzeros, hadd, hsub, if_neg hbita, if_neg hbitb, hbit8]
    by_cases hlt : E < 256 <;> simp [hlt]
  have hlow : ∀ v : BitVec 10, v.toNat < 64 →
      ∃ k, (if bit (some v) 6 = some true then (0b111111 : Vec 6) else slice (some v) 5 0) = some k ∧ k.toNat = v.toNat :=
    fun v hv => by
      have hb6 : ¬ bit (some v) 6 = some true := fun h => by
        have : v.getLsbD 6 = true := Option.some_inj.mp h
        rw [getLsbD_eq, decide_eq_true_iff] at this
        omega
      refine ⟨v.extractLsb 5 0, by rw [if_neg hb6]; rfl, ?_⟩
      rw [toNat_extract]
      omega
  have hzlt := z.isLt
  simp only [PostNormMul.step, hstage]
  by_cases hlt : E < 256
  · simp only [if_pos hlt]
    obtain ⟨k, hk, hkn⟩ := hlow u (by omega)
    refine ⟨⟨k, hk, hkn.trans hunat⟩, ⟨(0#4 ++ z).extractLsb 5 0, rfl, ?_⟩,
      ⟨(e + u - (0#4 ++ z)).extractLsb 8 0, rfl, ?_⟩⟩
    · rw [toNat_extract, hpadz]
      omega
    · rw [toNat_extract, hb]
      omega
  · simp only [if_neg hlt]
    exact ⟨⟨0, rfl, rfl⟩, ⟨0, rfl, rfl⟩, ⟨0b011111111, rfl, rfl⟩⟩

theorem frac2a_some {k l : BitVec 6} (hP : s.sFract48I = some P) (hk : s.sShr2 = some k) (hl : s.sShl2 = some l) :
    ∃ F, (s.step i).sFrac2a = some F ∧
      F.toNat = if k.toNat = 0 then P.toNat * 2 ^ l.toNat % 2 ^ 48 else P.toNat / 2 ^ k.toNat := by
  simp only [PostNormMul.step, hP, hk, hl]
  by_cases h0 : k.toNat = 0
  · have hzero : (some k : Vec 6) = 0 := congrArg some (BitVec.eq_of_toNat_eq h0)
    rw [if_neg (by simpa using hzero), if_pos h0]
    refine ⟨P <<< l.toNat, rfl, ?_⟩
    rw [BitVec.toNat_shiftLeft, Nat.shiftLeft_eq]
  · have hne : (some k : Vec 6) ≠ 0 := fun h => h0 (by rw [Option.some_inj.mp h]; rfl)
    rw [if_pos hne, if_neg h0]
    refine ⟨P >>> k.toNat, rfl, ?_⟩
    rw [BitVec.toNat_ushiftRight, Nat.shiftRight_eq_div_pow]

theorem fracRnd_some (hF : s.sFrac2a = some F) (hmode : s.sRmodeI = 0b00) (hlt : F.toNat / 2 ^ 23 + 1 < 2 ^ 25) :
    ∃ R, (s.step i).sFracRnd = some R ∧ R.toNat = F.toNat / 2 ^ 23 + (up F (lost s)).toNat := by
  have hup : sRoundup s = some (up F (lost s)) := by
    have hbit : ∀ k, bit (some F) k = some (F.getLsbD k) := fun _ => rfl
    have hor : orReduce (slice (some F) 20 0) = some (F.extractLsb 20 0 != 0) := rfl
    rw [sRoundup, roundup, if_pos hmode, hF, hbit, hbit, hbit, hor, lor_some, lor_some, lor_some, land_some, up]
  have htop : (F.extractLsb 47 23).toNat = F.toNat / 2 ^ 23 := by
    have := F.isLt
    rw [toNat_extract]
    omega
  simp only [PostNormMul.step, hup, hF]
  cases hu : up F (lost s) with
  | true =>
    have hone : (1 : BitVec (range 47 23)).toNat = 1 := rfl
    refine ⟨F.extractLsb 47 23 + 1, rfl, ?_⟩
    rw [BitVec.toNat_add, htop, hone, Bool.toNat_true]
    exact Nat.mod_eq_of_lt hlt
  | false => exact ⟨F.extractLsb 47 23, rfl, htop⟩

theorem shr3_some {R : BitVec 25} (hR : s.sFracRnd = some R) : shr3 s = some (decide (2 ^ 24 ≤ R.toNat)) := by
  have hlt := R.isLt
  have : bit (some R) 24 = some (R.getLsbD 24) := rfl
  rw [shr3, hR, this, getLsbD_eq, Option.some_inj]
  exact decide_eq_decide.mpr (by omega)

/-- Without a carry the sticky bit sees what the shift to the right lost. -/
theorem lost_of_no_carry {R : BitVec 25} {k z : BitVec 6} (hR : s.sFracRnd = some R) (hlt : R.toNat < 2 ^ 24)
    (hk : s.sShr2 = some k) (hz : s.sRZeros = some z) : lost s = decide (z.toNat < k.toNat) := by
  have hshr3 : shr3 s = some false := by
    rw [shr3_some hR, decide_eq_false (by omega)]
  have hsum : (some k : Vec 6) + ((0 : Vec 5) ++ ofBit (some false)) = some (k + 0) := rfl
  have hzero : k + 0 = k := BitVec.add_zero k
  rw [lost, hshr3, hk, hz, hsum, hzero]
  rfl

/-- `s_expo3` and `s_frac3`: a carry out of the rounding goes into the exponent, 255 stays. -/
theorem expo3_some {x : BitVec 9} {R : BitVec 25} (hF : s.sFrac2a = some F) (hx : s.sExpo1 = some x)
    (hR : s.sFracRnd = some R) (hx1 : 1 ≤ x.toNat) (hx255 : x.toNat ≤ 255) {y : Nat}
    (hy : y = if F.toNat / 2 ^ 46 % 2 = 1 then x.toNat else x.toNat - 1) :
    ∃ e g, expo3 s = some e ∧ frac3 s = some g ∧
      (2 ^ 24 ≤ R.toNat ∧ y ≠ 255 → e.toNat = y + 1 ∧ g.toNat = R.toNat / 2) ∧
      (¬ (2 ^ 24 ≤ R.toNat ∧ y ≠ 255) → e.toNat = y ∧ g = R) := by
  have hRlt := R.isLt
  have hone : (1 : BitVec 9).toNat = 1 := rfl
  have hle : y ≤ 255 := by
    rw [hy]
    split <;> omega
  obtain ⟨v, hv, hvnat⟩ : ∃ v, expo2b s = some v ∧ v.toNat = y := by
    have hbit : bit s.sFrac2a 46 = some (decide (F.toNat / 2 ^ 46 % 2 = 1)) := by
      rw [hF, ← getLsbD_eq]
      rfl
    unfold expo2b
    rw [hbit, hx, hy]
    by_cases hlead : F.toNat / 2 ^ 46 % 2 = 1
    · rw [decide_eq_true hlead, if_neg (by simp), if_pos hlead]
      exact ⟨x, rfl, rfl⟩
    · rw [decide_eq_false hlead, if_pos rfl, if_neg hlead]
      refine ⟨x - 1, rfl, ?_⟩
      rw [BitVec.toNat_sub_of_le (BitVec.le_def.mpr (hone ▸ hx1)), hone]
  have h255 : (0b011111111 : BitVec 9).toNat = 255 := rfl
  have hne : (expo2b s ≠ 0b011111111) ↔ y ≠ 255 := by
    rw [hv, ne_eq, some_eq_ofNat, ← BitVec.toNat_inj, hvnat]
    rfl
  unfold expo3 frac3
  rw [shr3_some hR, hR]
  simp only [hne, Option.some_inj, decide_eq_true_iff]
  by_cases hc : 2 ^ 24 ≤ R.toNat ∧ y ≠ 255
  · rw [if_pos hc, if_pos hc, hv]
    refine ⟨v + 1, 0#1 ++ R.extractLsb 24 1, rfl, rfl, fun _ => ⟨?_, ?_⟩, fun h => absurd hc h⟩
    · rw [BitVec.toNat_add, hone, hvnat]
      omega
    · rw [toNat_pad 1, toNat_extract]
      omega
  · rw [if_neg hc, if_neg hc]
    exact ⟨v, R, hv, rfl, fun h => absurd h hc, fun _ => ⟨hvnat, rfl⟩⟩

/-- The word of a product that the operands alone do not decide. -/
theorem sOutputO_normal (hops : s.Operands (some a) (some b)) (ha : isInf (some a) = false) (hb : isInf (some b) = false)
    {sign : Bool} (hsign : s.sSignI = some sign) {e : BitVec 9} {z : BitVec 6} {g : BitVec 25} (he : expo3 s = some e)
    (hg : frac3 s = some g) (hz : s.sRZeros = some z) (hz48 : z.toNat < 48) (hle : e.toNat ≤ 255) :
    ∃ w, sOutputO s = some w ∧ w.msb = sign ∧
      w.toNat % 2 ^ 31 = if 255 ≤ e.toNat then infCode else e.toNat * 2 ^ 23 + g.toNat % 2 ^ 23 := by
  have hnan : nanResult (some a) (some b) = false := by
    rw [nanResult, isNan, isNan, ha, hb]
    rfl
  have hinf : (some e : Vec 9) = 0b011111111 ↔ 255 ≤ e.toNat := by
    have h255 : (0b011111111 : BitVec 9).toNat = 255 := rfl
    rw [some_eq_ofNat, ← BitVec.toNat_inj]
    show e.toNat = 255 ↔ _
    omega
  have hz0 : ¬ (some z : Vec 6) = 48 := by
    rw [some_eq_ofNat, ← BitVec.toNat_inj]
    show ¬ z.toNat = 48
    omega
  rw [sOutputO_eq hops, hnan, ha, hb, rounded, he, hg, hz, hsign]
  simp only [hinf, hz0, Bool.false_eq_true, Bool.or_false, if_false]
  by_cases h255 : 255 ≤ e.toNat
  · rw [if_pos h255, if_pos h255]
    obtain ⟨hmsb, hnat⟩ := toNat_result sign 0b11111111#8 0#23
    refine ⟨BitVec.ofBool sign ++ 0b11111111#8 ++ 0#23, ?_, hmsb, hnat⟩
    cases sign <;> rfl
  · rw [if_neg h255, if_neg h255]
    obtain ⟨hmsb, hnat⟩ := toNat_result sign (e.extractLsb 7 0) (g.extractLsb 22 0)
    refine ⟨_, rfl, hmsb, hnat.trans ?_⟩
    rw [toNat_extract, toNat_extract]
    omega

end

end PostNormMul

/-! ## What belongs to two operands -/

/-- The product of the significands, the exponent `e` that goes with it, and the exponent `E` of the
product once its leading one is in place, `z` places higher. -/
structure IsProduct (a b : BitVec 32) (P : BitVec 48) (e : BitVec 10) (z E : Nat) : Prop where
  product : P.toNat = significand a * significand b
  ne_zero : P.toNat ≠ 0
  exp10 : expIn (some a) + expIn (some b) - 0b0001111111 = some e
  zeros : z = if 2 ^ 47 ≤ P.toNat then 0 else 46 - P.toNat.log2
  expo : (e.toNat + if 2 ^ 47 ≤ P.toNat then 1 else 0) % 1024 = E + z
  one_le : 1 ≤ E
  lt : E + z < 512
  log2 : Fpu.expo a + Fpu.expo b + P.toNat.log2 = E + 173

section
variable {a b : BitVec 32} {P : BitVec 48} {e : BitVec 10} {z E : Nat}

theorem abs_product (a b : BitVec 32) :
    |floatValue a * floatValue b| * 2 ^ 149 * 2 ^ 149 =
      (significand a * significand b : Nat) * 2 ^ (expo a - 1 + (expo b - 1)) := by
  rw [abs_mul, abs_floatValue_rat, abs_floatValue_rat, pow_add]
  push_cast
  field_simp

theorem IsProduct.shifted_lt (h : IsProduct a b P e z E) :
    (if 2 ^ 47 ≤ P.toNat then P.toNat / 2 else P.toNat * 2 ^ z) < 2 ^ 48 := by
  have hPlt := P.isLt
  split
  · omega
  next hlt =>
    have hlog : P.toNat.log2 < 47 := (Nat.log2_lt h.ne_zero).mpr (Nat.lt_of_not_le hlt)
    have hz : z + (P.toNat.log2 + 1) = 47 := by
      rw [h.zeros, if_neg hlt]
      omega
    calc P.toNat * 2 ^ z < 2 ^ (P.toNat.log2 + 1) * 2 ^ z :=
          Nat.mul_lt_mul_of_pos_right Nat.lt_log2_self (Nat.two_pow_pos _)
      _ = 2 ^ 47 := by rw [← Nat.pow_add, Nat.add_comm, hz]
      _ < 2 ^ 48 := by omega

theorem exists_isProduct (ha : Half.Finite a) (hb : Half.Finite b) (hv : 1 ≤ |floatValue a * floatValue b| * 2 ^ 126) :
    ∃ P e z E, IsProduct a b P e z E := by
  have hne : floatValue a ≠ 0 ∧ floatValue b ≠ 0 := by
    constructor <;> intro h0 <;> norm_num [h0] at hv
  have hsa := significand_of_value hne.1
  have hsb := significand_of_value hne.2
  have hplt : significand a * significand b < 2 ^ 24 * 2 ^ 24 := Nat.mul_lt_mul'' (significand_lt a) (significand_lt b)
  obtain ⟨P, hP⟩ : ∃ P : BitVec 48, P.toNat = significand a * significand b :=
    ⟨BitVec.ofNat 48 _, by rw [BitVec.toNat_ofNat]; exact Nat.mod_eq_of_lt hplt⟩
  have hP0 : P.toNat ≠ 0 := hP ▸ Nat.mul_ne_zero hsa hsb
  have hlog := Nat.log2_self_le hP0
  have hlog' := Nat.lt_log2_self (n := P.toNat)
  have hlog48 : P.toNat.log2 < 48 := (Nat.log2_lt hP0).mpr P.isLt
  have hlog47 : 2 ^ 47 ≤ P.toNat ↔ P.toNat.log2 = 47 := by
    rw [← Nat.le_log2 hP0]
    omega
  have ha1 := expo_pos a
  have hb1 := expo_pos b
  have ha255 := expo_lt ha
  have hb255 := expo_lt hb
  -- the leading one of the product is in the range of the normal numbers
  have hsum : 174 ≤ expo a + expo b + P.toNat.log2 := by
    by_contra hlt
    have hprod := abs_product a b
    rw [← hP] at hprod
    have hle : P.toNat * 2 ^ (expo a - 1 + (expo b - 1)) < 2 ^ 172 := by
      calc P.toNat * 2 ^ (expo a - 1 + (expo b - 1)) < 2 ^ (P.toNat.log2 + 1) * 2 ^ (expo a - 1 + (expo b - 1)) :=
            Nat.mul_lt_mul_of_pos_right hlog' (Nat.two_pow_pos _)
        _ = 2 ^ (P.toNat.log2 + 1 + (expo a - 1 + (expo b - 1))) := (Nat.pow_add _ _ _).symm
        _ ≤ 2 ^ 172 := Nat.pow_le_pow_right (by omega) (by omega)
    have hle' : (P.toNat * 2 ^ (expo a - 1 + (expo b - 1)) : ℚ) < 2 ^ 172 := by exact_mod_cast hle
    have hscale : |floatValue a * floatValue b| * 2 ^ 149 * 2 ^ 149 =
        |floatValue a * floatValue b| * 2 ^ 126 * 2 ^ 172 := by ring
    have hge : (1 : ℚ) * 2 ^ 172 ≤ |floatValue a * floatValue b| * 2 ^ 126 * 2 ^ 172 :=
      mul_le_mul_of_nonneg_right hv (by positivity)
    linarith
  obtain ⟨ea, hea, hanat⟩ := expIn_expo a
  obtain ⟨eb, heb, hbnat⟩ := expIn_expo b
  obtain ⟨z, hz⟩ : ∃ z, z = if 2 ^ 47 ≤ P.toNat then 0 else 46 - P.toNat.log2 := ⟨_, rfl⟩
  refine ⟨P, ea + eb - 127#10, z, expo a + expo b + P.toNat.log2 - 173, hP, hP0, ?_, hz, ?_, by omega, ?_, by omega⟩
  · rw [hea, heb]
    rfl
  · have h127 : (127#10).toNat = 127 := rfl
    rw [BitVec.toNat_sub, BitVec.toNat_add, h127, hanat, hbnat, hz]
    split <;> omega
  · rw [hz]
    split <;> omega

/-- Only two normal numbers have a product beyond the range. -/
theorem IsProduct.large (h : IsProduct a b P e z E) (ha : Half.Finite a) (hb : Half.Finite b) (hE : 256 ≤ E) :
    2 ^ 46 ≤ P.toNat := by
  have ha255 := expo_lt ha
  have hb255 := expo_lt hb
  have hlog : P.toNat.log2 < 48 := (Nat.log2_lt h.ne_zero).mpr P.isLt
  have hlog2 := h.log2
  have hnormal : ∀ x : BitVec 32, 1 < Fpu.expo x → 2 ^ 23 ≤ significand x := fun x hx => by
    unfold Fpu.expo at hx
    unfold significand
    split at hx
    · omega
    next h0 =>
      rw [if_neg h0]
      omega
  rw [h.product, show 2 ^ 46 = 2 ^ 23 * 2 ^ 23 from rfl]
  exact Nat.mul_le_mul (hnormal a (by omega)) (hnormal b (by omega))

/-- The shifted product `F` and what was lost round the product of the operands. -/
theorem rounds_product (h : IsProduct a b P e z E) {F : BitVec 48}
    (hF : F.toNat = if 2 ^ 47 ≤ P.toNat then P.toNat / 2 else P.toNat * 2 ^ z) {lost : Bool}
    (hlost : lost = decide (2 ^ 47 ≤ P.toNat ∧ P.toNat % 2 ≠ 0)) :
    2 ^ 46 ≤ F.toNat ∧ F.toNat < 2 ^ 47 ∧
      RoundsEven (single ℚ) |floatValue a * floatValue b| (sig 23 E (F.toNat / 2 ^ 23 + (PostNormMul.up F lost).toNat)) := by
  have hE := h.one_le
  have ha1 := expo_pos a
  have hb1 := expo_pos b
  have hlog2 := h.log2
  have hPlt := P.isLt
  have hlog := Nat.log2_self_le h.ne_zero
  have hlog' := Nat.lt_log2_self (n := P.toNat)
  have hlog47 : 2 ^ 47 ≤ P.toNat ↔ P.toNat.log2 = 47 := by
    have : P.toNat.log2 < 48 := (Nat.log2_lt h.ne_zero).mpr hPlt
    rw [← Nat.le_log2 h.ne_zero]
    omega
  have hshift : ¬ 2 ^ 47 ≤ P.toNat → 2 ^ P.toNat.log2 * 2 ^ z = 2 ^ 46 := fun hlt => by
    have : P.toNat.log2 < 47 := (Nat.log2_lt h.ne_zero).mpr (Nat.lt_of_not_le hlt)
    rw [← Nat.pow_add, h.zeros, if_neg hlt]
    congr 1
    omega
  have hF46 : 2 ^ 46 ≤ F.toNat := by
    rw [hF]
    split
    · omega
    next hlt =>
      rw [← hshift hlt]
      exact Nat.mul_le_mul_right _ hlog
  have hF47 : F.toNat < 2 ^ 47 := by
    rw [hF]
    split
    · omega
    next hlt =>
      calc P.toNat * 2 ^ z < 2 ^ (P.toNat.log2 + 1) * 2 ^ z := Nat.mul_lt_mul_of_pos_right hlog' (Nat.two_pow_pos _)
        _ = 2 ^ P.toNat.log2 * 2 ^ z * 2 := by rw [Nat.pow_succ, Nat.mul_right_comm]
        _ = 2 ^ 47 := by rw [hshift hlt, ← Nat.pow_succ]
  -- the bit that the shift to the right loses
  obtain ⟨r, hr⟩ : ∃ r, r = if 2 ^ 47 ≤ P.toNat then P.toNat % 2 else 0 := ⟨_, rfl⟩
  have hr1 : r ≤ 1 := by
    rw [hr]
    split <;> omega
  have hrq : (r : ℚ) ≤ 1 := by exact_mod_cast hr1
  have hr0 : (0 : ℚ) ≤ r := Nat.cast_nonneg r
  have hval : (F.toNat + (r : ℚ) / 2) * 2 ^ P.toNat.log2 = P.toNat * 2 ^ 46 := by
    by_cases hle : 2 ^ 47 ≤ P.toNat
    · rw [if_pos hle] at hF hr
      have hsplit : (P.toNat : ℚ) = 2 * F.toNat + r := by
        rw [hF, hr]
        exact_mod_cast (Nat.div_add_mod _ _).symm
      rw [hlog47.mp hle, hsplit]
      ring
    · rw [if_neg hle] at hF hr
      have hpow : (2 : ℚ) ^ P.toNat.log2 * 2 ^ z = 2 ^ 46 := by exact_mod_cast hshift hle
      rw [hF, hr, ← hpow]
      push_cast
      ring
  have hv : |floatValue a * floatValue b| * 2 ^ (22 + 150) = (F.toNat + (r : ℚ) / 2) * 2 ^ (E - 1) := by
    have hprod := abs_product a b
    rw [← h.product] at hprod
    have hpos : (2 : ℚ) ^ (126 + P.toNat.log2) ≠ 0 := by positivity
    have hexp : (2 : ℚ) ^ (Fpu.expo a - 1 + (Fpu.expo b - 1)) * 2 ^ P.toNat.log2 = 2 ^ 126 * 2 ^ (E - 1) * 2 ^ 46 := by
      rw [← pow_add, ← pow_add, ← pow_add]
      congr 1
      omega
    have hscale : (2 : ℚ) ^ (22 + 150) * 2 ^ (126 + P.toNat.log2) = 2 ^ 149 * 2 ^ 149 * 2 ^ P.toNat.log2 := by
      rw [← pow_add, ← pow_add, ← pow_add]
      congr 1
      omega
    refine mul_right_cancel₀ hpos ?_
    calc |floatValue a * floatValue b| * 2 ^ (22 + 150) * 2 ^ (126 + P.toNat.log2)
        = |floatValue a * floatValue b| * 2 ^ 149 * 2 ^ 149 * 2 ^ P.toNat.log2 := by
          rw [mul_assoc, hscale, ← mul_assoc, ← mul_assoc]
      _ = (P.toNat : ℚ) * (2 ^ (Fpu.expo a - 1 + (Fpu.expo b - 1)) * 2 ^ P.toNat.log2) := by rw [hprod, mul_assoc]
      _ = (P.toNat : ℚ) * 2 ^ 46 * (2 ^ 126 * 2 ^ (E - 1)) := by rw [hexp]; ring
      _ = (F.toNat + (r : ℚ) / 2) * 2 ^ (E - 1) * 2 ^ (126 + P.toNat.log2) := by rw [← hval]; ring
  have hround := rounds_sig (x := F.toNat) (g := 22) hE (by omega) (by omega) (by positivity) (by linarith) hv
    (F.getLsbD 22) (F.getLsbD 21 || (F.extractLsb 20 0 != 0 || lost)) (F.getLsbD 23) ?_ ?_ ?_
  · rw [sig_add] at hround
    exact ⟨hF46, hF47, hround⟩
  · rw [getLsbD_eq]
  · have hbne : (F.extractLsb 20 0 != 0) = decide ((F.extractLsb 20 0).toNat ≠ 0) := bne_zero_eq _
    have hrne : (r : ℚ) / 2 ≠ 0 ↔ r ≠ 0 := by
      rw [ne_eq, div_eq_zero_iff, or_iff_left two_ne_zero, Nat.cast_eq_zero]
    have hlostr : lost = true ↔ r ≠ 0 := by
      rw [hlost, decide_eq_true_iff, hr]
      split <;> simp_all
    rw [hrne, Bool.or_eq_true, Bool.or_eq_true, hlostr, hbne, getLsbD_eq, decide_eq_true_iff, decide_eq_true_iff,
      toNat_extract]
    omega
  · rw [getLsbD_eq]

end

/-! ## Multiplication -/

namespace Core

section
variable {i : Nat → Ports} {s : Nat → Core} {a b : BitVec 32} {op : BitVec 3} {P F : BitVec 48} {e : BitVec 10} {z E : Nat}

/-- Seven edges after the pulse the product is there. -/
theorem mul24_product (h : Pulse a b op i s) {A B : BitVec 24} (hA : fract24 (some a) = some A)
    (hB : fract24 (some b) = some B) : After 7 fun n => (s n).mul24.Product A B := by
  have hin := inputs h.run h.held
  have hheld : ∀ n, 1 ≤ n → Mul24.Held A B {
      fractaI := fract24 (s n).sOpaI
      fractbI := fract24 (s n).sOpbI
      signaI := bit (s n).sOpaI 31
      signbI := bit (s n).sOpbI 31
      startI := (i n).startI } := fun n hn => by
    have hn1 := hin n (by omega)
    exact ⟨by rw [hn1.opa, hA], by rw [hn1.opb, hB], h.quiet n hn⟩
  have hsums : ∀ k ≤ 4, (s (k + 2)).mul24.Summing A B k := by
    intro k hk
    induction k with
    | zero =>
      have hs1 : (s 1).mul24.sStartI = some true := by
        rw [h.run 0]
        exact h.start
      rw [h.run 1]
      exact Mul24.summing_start hs1 (hheld 1 le_rfl)
    | succ k ih =>
      rw [show k + 1 + 2 = k + 2 + 1 by omega, h.run (k + 2)]
      exact (ih (by omega)).step (by omega) (hheld _ (by omega))
  refine After.induct ?_ fun n hn hp => ?_
  · rw [h.run 6]
    exact (hsums 4 le_rfl).last (h.quiet 6 (by omega))
  · rw [h.run n]
    exact hp.step (h.quiet n (by omega))

/-- What `post_norm_mul` registers. -/
structure MulRegs (a b : BitVec 32) (P : BitVec 48) (e : BitVec 10) (s : PostNormMul) : Prop where
  fract48 : s.sFract48I = some P
  exp10 : s.sExp10I = some e
  rmode : s.sRmodeI = 0b00
  sign : s.sSignI = some (a.msb ^^ b.msb)
  operands : s.Operands (some a) (some b)

theorem mulRegs (h : Pulse a b op i s) (hP : P.toNat = significand a * significand b)
    (he : expIn (some a) + expIn (some b) - 0b0001111111 = some e) :
    After 8 fun n => MulRegs a b P e (s n).postNormMul := by
  have hin := inputs h.run h.held
  obtain ⟨A, hA, hAnat⟩ := fract24_significand a
  obtain ⟨B, hB, hBnat⟩ := fract24_significand b
  have hfract : After 7 fun n => (s n).mul24.fractO = some P := (mul24_product h hA hB).imp fun n hn => by
    obtain ⟨p, hp, hpnat⟩ := Mul24.fractO_product hn.sum
    rw [hp, BitVec.eq_of_toNat_eq (hpnat.trans (by rw [hAnat, hBnat, ← hP]))]
  have hexp : After 2 fun n => (s n).preNormMul.exp10O = some e := hin.edge fun n hn => by
    rw [h.run n, ← he, ← hn.opa, ← hn.opb]
    rfl
  have hregs : After 8 fun n => (s n).postNormMul.sFract48I = some P ∧ (s n).postNormMul.sExp10I = some e ∧
      (s n).postNormMul.sRmodeI = 0b00 :=
    (hfract.and ((hexp.mono (by omega)).and (hin.mono (by omega)))).edge fun n hn => by
      rw [h.run n]
      exact ⟨hn.1, hn.2.1, hn.2.2.rmode⟩
  refine (hregs.and ((mul_operands h.run h.held).mono (by omega))).imp fun n hn => ?_
  obtain ⟨⟨hf, he, hm⟩, hops, hsgn⟩ := hn
  exact ⟨hf, he, hm, hsgn.trans (signOf_some a b), hops⟩

/-- The shifted product, its exponent, and the zeros that end the product. -/
structure MulShifted (P F : BitVec 48) (E : Nat) (s : PostNormMul) : Prop where
  rZeros : ∃ rz, s.sRZeros = some rz ∧ rz.toNat < 48 ∧ ∀ t, rz.toNat < t ↔ P.toNat % 2 ^ t ≠ 0
  shr2 : ∃ k, s.sShr2 = some k ∧ k.toNat = if E < 256 then if 2 ^ 47 ≤ P.toNat then 1 else 0 else 0
  expo1 : ∃ x, s.sExpo1 = some x ∧ x.toNat = if E < 256 then E else 255
  frac2a : s.sFrac2a = some F

theorem mulShifted (h : Pulse a b op i s) (hprod : IsProduct a b P e z E)
    (hF : F.toNat = if E < 256 then if 2 ^ 47 ≤ P.toNat then P.toNat / 2 else P.toNat * 2 ^ z else P.toNat) :
    After 11 fun n => MulShifted P F E (s n).postNormMul := by
  have hregs := mulRegs h hprod.product hprod.exp10
  have hPlt := P.isLt
  have hrz : After 9 fun n => ∃ rz, (s n).postNormMul.sRZeros = some rz ∧ rz.toNat < 48 ∧
      ∀ t, rz.toNat < t ↔ P.toNat % 2 ^ t ≠ 0 := hregs.edge fun n hn => by
    rw [h.run n]
    show ∃ rz, countRZeros (s n).postNormMul.sFract48I = some rz ∧ _
    rw [hn.fract48]
    exact countRZeros_lt (by omega) hprod.ne_zero
  have hzeros : After 9 fun n => ∃ y, (s n).postNormMul.sZeros = some y ∧ y.toNat = z := hregs.edge fun n hn => by
    rw [h.run n, hprod.zeros]
    exact PostNormMul.zeros_some hprod.ne_zero hn.fract48
  have hstage1 : After 10 fun n =>
      (∃ k, (s n).postNormMul.sShr2 = some k ∧ k.toNat = if E < 256 then if 2 ^ 47 ≤ P.toNat then 1 else 0 else 0) ∧
      (∃ l, (s n).postNormMul.sShl2 = some l ∧ l.toNat = if E < 256 then z else 0) ∧
      ∃ x, (s n).postNormMul.sExpo1 = some x ∧ x.toNat = if E < 256 then E else 255 :=
    (hzeros.and (hregs.mono (by omega))).edge fun n hn => by
      obtain ⟨⟨y, hy, hynat⟩, hn⟩ := hn
      rw [h.run n, ← hynat]
      exact PostNormMul.stage1_normal hn.fract48 hn.exp10 hy rfl (hynat ▸ hprod.expo) hprod.one_le (hynat ▸ hprod.lt)
  have hfrac : After 11 fun n => (s n).postNormMul.sFrac2a = some F :=
    (hstage1.and (hregs.mono (by omega))).edge fun n hn => by
      obtain ⟨⟨⟨k, hk, hknat⟩, ⟨l, hl, hlnat⟩, -⟩, hn⟩ := hn
      obtain ⟨F', hF', hnat⟩ := PostNormMul.frac2a_some (i := _) hn.fract48 hk hl
      rw [h.run n]
      refine hF'.trans (congrArg some (BitVec.eq_of_toNat_eq (hnat.trans ?_)))
      rw [hF, hknat, hlnat]
      have hFlt := F.isLt
      rw [hF] at hFlt
      split
      next hlt =>
        simp only [if_pos hlt] at hFlt
        split
        next hle =>
          rw [if_neg (by omega), Nat.pow_one]
        next hle =>
          rw [if_neg hle] at hFlt
          rw [if_pos rfl, Nat.mod_eq_of_lt hFlt]
      next hlt => rw [if_pos rfl, Nat.pow_zero, Nat.mul_one, Nat.mod_eq_of_lt hPlt]
  exact ((hrz.mono (by omega)).and ((hstage1.mono (by omega)).and hfrac)).imp
    fun n hn => ⟨hn.1, hn.2.1.1, hn.2.1.2.2, hn.2.2⟩

/-- The rounding, with whatever the sticky bit takes for lost. -/
theorem mul_fracRnd (h : Pulse a b op i s) (hprod : IsProduct a b P e z E)
    (hF : F.toNat = if E < 256 then if 2 ^ 47 ≤ P.toNat then P.toNat / 2 else P.toNat * 2 ^ z else P.toNat)
    (hlt : F.toNat / 2 ^ 23 + 1 < 2 ^ 25) :
    After 12 fun n => ∃ R l, (s n).postNormMul.sFracRnd = some R ∧
      R.toNat = F.toNat / 2 ^ 23 + (PostNormMul.up F l).toNat := by
  refine ((mulShifted h hprod hF).and ((mulRegs h hprod.product hprod.exp10).mono (by omega))).edge fun n hn => ?_
  obtain ⟨R, hR, hRnat⟩ := PostNormMul.fracRnd_some (i := _) hn.1.frac2a hn.2.rmode hlt
  rw [h.run n]
  exact ⟨R, _, hR, hRnat⟩

/-- **The rounding settles**: where the carry is fed back, it changes nothing. -/
theorem mul_rounded (h : Pulse a b op i s) (hprod : IsProduct a b P e z E) (hE : E < 256)
    (hF : F.toNat = if 2 ^ 47 ≤ P.toNat then P.toNat / 2 else P.toNat * 2 ^ z) (hlt : F.toNat < 2 ^ 47) :
    After 13 fun n => ∃ R, (s n).postNormMul.sFracRnd = some R ∧
      R.toNat = F.toNat / 2 ^ 23 + (PostNormMul.up F (decide (2 ^ 47 ≤ P.toNat ∧ P.toNat % 2 ≠ 0))).toNat := by
  have hF' : F.toNat = if E < 256 then if 2 ^ 47 ≤ P.toNat then P.toNat / 2 else P.toNat * 2 ^ z else P.toNat := by
    rw [if_pos hE, hF]
  refine ((mul_fracRnd h hprod hF' (by omega)).and (((mulShifted h hprod hF').mono (by omega)).and
    ((mulRegs h hprod.product hprod.exp10).mono (by omega)))).edge fun n hn => ?_
  obtain ⟨⟨R, l, hR, hRnat⟩, hsh, hn⟩ := hn
  obtain ⟨R', hR', hRnat'⟩ := PostNormMul.fracRnd_some (i := _) hsh.frac2a hn.rmode (by omega)
  rw [h.run n]
  refine ⟨R', hR', hRnat'.trans ?_⟩
  by_cases hcarry : R.toNat < 2 ^ 24
  · obtain ⟨k, hk, hknat⟩ := hsh.shr2
    obtain ⟨rz, hrz, -, hzeros⟩ := hsh.rZeros
    have hlost : PostNormMul.lost (s n).postNormMul = decide (2 ^ 47 ≤ P.toNat ∧ P.toNat % 2 ≠ 0) := by
      rw [PostNormMul.lost_of_no_carry hR hcarry hk hrz, decide_eq_decide, hzeros, hknat, if_pos hE]
      by_cases hle : 2 ^ 47 ≤ P.toNat
      · rw [if_pos hle, Nat.pow_one]
        exact (and_iff_right hle).symm
      · rw [if_neg hle, Nat.pow_zero, Nat.mod_one]
        exact iff_of_false (by simp) fun h => hle h.1
    rw [hlost]
  · have hule := Bool.toNat_le (PostNormMul.up F l)
    rw [PostNormMul.up_of_carry (show F.toNat / 2 ^ 23 % 2 = 1 by omega)]

/-- **The multiplier rounds the exact product to the nearest even**, where it is in the range of the
normal numbers or beyond it. -/
theorem mul_unit (h : Pulse a b op i s) (ha : Half.Finite a) (hb : Half.Finite b)
    (hv : 1 ≤ |floatValue a * floatValue b| * 2 ^ 126) :
    After 14 fun n => Delivers (floatValue a * floatValue b) (a.msb ^^ b.msb) (s n).postNormMul.outputO := by
  obtain ⟨P, e, z, E, hprod⟩ := exists_isProduct ha hb hv
  have hPlt := P.isLt
  have hPle : P.toNat ≤ (2 ^ 24 - 1) * (2 ^ 24 - 1) := by
    rw [hprod.product]
    exact Nat.mul_le_mul (by have := significand_lt a; omega) (by have := significand_lt b; omega)
  obtain ⟨F, hF⟩ : ∃ F : BitVec 48, F.toNat = if 2 ^ 47 ≤ P.toNat then P.toNat / 2 else P.toNat * 2 ^ z :=
    ⟨BitVec.ofNat 48 _, by rw [BitVec.toNat_ofNat]; exact Nat.mod_eq_of_lt hprod.shifted_lt⟩
  obtain ⟨hF46, hF47, hround⟩ := rounds_product hprod hF rfl
  have hregs := mulRegs h hprod.product hprod.exp10
  have hout : ∀ n, (s (n + 1)).postNormMul.outputO = PostNormMul.sOutputO (s n).postNormMul := fun n => by
    rw [h.run n]
    rfl
  have hE := hprod.one_le
  by_cases hlt : E < 256
  · have hF' : F.toNat = if E < 256 then if 2 ^ 47 ≤ P.toNat then P.toNat / 2 else P.toNat * 2 ^ z else P.toNat := by
      rw [if_pos hlt, hF]
    refine ((mul_rounded h hprod hlt hF hF47).and (((mulShifted h hprod hF').mono (by omega)).and
      (hregs.mono (by omega)))).edge fun n hn => ?_
    obtain ⟨⟨R, hR, hRnat⟩, hsh, hn⟩ := hn
    obtain ⟨x, hx, hxnat⟩ := hsh.expo1
    obtain ⟨rz, hrz, hrz48, -⟩ := hsh.rZeros
    rw [if_pos hlt] at hxnat
    obtain ⟨e3, g, he3, hg, hcarry, hstay⟩ :=
      PostNormMul.expo3_some hsh.frac2a hx hR (by omega) (by omega) (y := E) (by rw [if_pos (by omega), hxnat])
    have hRle := Bool.toNat_le (PostNormMul.up F (decide (2 ^ 47 ≤ P.toNat ∧ P.toNat % 2 ≠ 0)))
    have hsum := code_carry (e := e3.toNat) (g := g.toNat) hE hlt (by omega) (by omega) hcarry
      fun hc => ⟨(hstay hc).1, by rw [(hstay hc).2]⟩
    obtain ⟨w, hw, hmsb, hnat⟩ := PostNormMul.sOutputO_normal hn.operands (isInf_of_finite ha) (isInf_of_finite hb) hn.sign
      he3 hg hrz hrz48 hsum.1
    exact ⟨w, (hout n).trans hw, hmsb, _, hround, hnat.trans (by rw [hsum.2, hRnat])⟩
  · -- beyond the range the product is not shifted, and its leading bits make an exponent of 255
    have hP46 := hprod.large ha hb (by omega)
    refine ((mul_fracRnd h hprod (F := P) (if_neg hlt).symm (by omega)).and
      (((mulShifted h hprod (F := P) (if_neg hlt).symm).mono (by omega)).and (hregs.mono (by omega))) |>.mono
        (by decide : 12 ≤ 13)).edge fun n hn => ?_
    obtain ⟨⟨R, l, hR, hRnat⟩, hsh, hn⟩ := hn
    obtain ⟨x, hx, hxnat⟩ := hsh.expo1
    obtain ⟨rz, hrz, hrz48, -⟩ := hsh.rZeros
    rw [if_neg hlt] at hxnat
    obtain ⟨e3, g, he3, hg, hcarry, hstay⟩ :=
      PostNormMul.expo3_some hsh.frac2a hx hR (by omega) (by omega) (y := if P.toNat / 2 ^ 46 % 2 = 1 then 255 else 254)
        (by rw [hxnat])
    have h255 : e3.toNat = 255 := by
      by_cases hlead : P.toNat / 2 ^ 46 % 2 = 1
      · rw [if_pos hlead] at hstay
        exact (hstay fun hc => hc.2 rfl).1
      · rw [if_neg hlead] at hcarry
        exact (hcarry ⟨by omega, by omega⟩).1
    obtain ⟨w, hw, hmsb, hnat⟩ := PostNormMul.sOutputO_normal hn.operands (isInf_of_finite ha) (isInf_of_finite hb) hn.sign
      he3 hg hrz hrz48 h255.le
    refine ⟨w, (hout n).trans hw, hmsb, _, hround, hnat.trans ?_⟩
    rw [if_pos h255.ge]
    exact code_beyond (by omega) (by omega)

/-- **A started core delivers the rounded product.** -/
theorem multiplies (h : Pulse a b 0b010 i s) (ha : Half.Finite a) (hb : Half.Finite b)
    (hv : 1 ≤ |floatValue a * floatValue b| * 2 ^ 126) :
    After 16 fun n => Delivers (floatValue a * floatValue b) (a.msb ^^ b.msb) (s n).outputO := by
  refine output_of_unit h.run h.held (P := Delivers (floatValue a * floatValue b) (a.msb ^^ b.msb)) (t := 14) (by omega)
    fun n hn => ?_
  have hmux : output1 (i n) (s n) = (s n).postNormMul.outputO := by
    rw [output1, (h.held n (by omega)).fpuOp]
    rfl
  show Delivers _ _ (output1 (i n) (s n))
  rw [hmux]
  exact mul_unit h ha hb hv n hn

/-- Three times one and a half. -/
theorem multiplies_three :
    Delivers (floatValue 0x40400000 * floatValue 0x3FC00000) false (delivered .powerUp 0x40400000 0x3FC00000 0b010) := by
  have ha : significand 0x40400000 = 3 * 2 ^ 22 ∧ expo 0x40400000 = 128 := by decide
  have hb : significand 0x3FC00000 = 3 * 2 ^ 22 ∧ expo 0x3FC00000 = 127 := by decide
  have hv : 1 ≤ |floatValue 0x40400000 * floatValue 0x3FC00000| * 2 ^ 126 := by
    rw [abs_mul, abs_floatValue_rat, abs_floatValue_rat, ha.1, ha.2, hb.1, hb.2]
    norm_num
  exact multiplies (pulse_pulsed .powerUp _ _ _) (by unfold Half.Finite; decide) (by unfold Half.Finite; decide) hv 41
    (by omega)

end

end Core

end FpgaQuat.Fpu
