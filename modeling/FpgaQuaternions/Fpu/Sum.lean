import FpgaQuaternions.Fpu.Product

/-!
# The sum

`pre_norm_addsub` shifts the operand of the smaller exponent to the right and keeps in the last
bit what is lost, so that the 28 bits behind the adder are the exact sum but for a sticky last bit
(`Summed`).  What was shifted by more than one place cannot cancel; so where the sum has to be
shifted to the left by more than one place, it is exact.
-/

namespace FpgaQuat.Fpu

open StdLogic Pipeline Minifloat
open Half (floatValue)

/-! ## Sums with a sticky bit -/

/-- `T` is what the adder gives for the sum `t`, the larger exponent being `e`. -/
structure Summed (t : ℚ) (T e : Nat) : Prop where
  sticky : Sticky t T
  exact : T < 2 ^ 25 ∨ e = 1 → t = T ∧ T % 4 = 0 ∧ (e = 1 → T % 8 = 0)

/-- The fractions at the inputs of `addsub_28`, and what they stand for. -/
structure Aligned (α β : ℚ) (A B e : Nat) : Prop where
  add : Summed (α + β) (A + B) e
  sub : Summed |α - β| (A - B + (B - A)) e
  lt : B < A ↔ β < α
  eq : A = B ↔ α = β

section
variable {α β : ℚ} {A B e : Nat}

theorem Aligned.symm (h : Aligned α β A B e) : Aligned β α B A e where
  add := by
    rw [add_comm, Nat.add_comm]
    exact h.add
  sub := by
    rw [abs_sub_comm, Nat.add_comm]
    exact h.sub
  lt := by
    rw [← not_iff_not, not_lt, not_lt, le_iff_lt_or_eq, le_iff_lt_or_eq, h.lt, eq_comm, h.eq, eq_comm (a := β)]
  eq := by rw [eq_comm, h.eq, eq_comm]

/-- Nothing was lost. -/
theorem aligned_exact (hA : A % 4 = 0 ∧ (e = 1 → A % 8 = 0)) (hB : B % 4 = 0 ∧ (e = 1 → B % 8 = 0)) :
    Aligned A B A B e where
  add := by
    have hcast : (A : ℚ) + B = (A + B : Nat) := (Nat.cast_add A B).symm
    rw [hcast]
    exact ⟨.self _, fun _ => ⟨rfl, by omega, fun he => by have := hA.2 he; have := hB.2 he; omega⟩⟩
  sub := by
    have hcast : |(A : ℚ) - B| = (A - B + (B - A) : Nat) := by
      rcases Nat.le_total A B with hle | hle
      · rw [Nat.sub_eq_zero_of_le hle, Nat.zero_add, Nat.cast_sub hle, abs_sub_comm, abs_of_nonneg]
        exact sub_nonneg.mpr (Nat.cast_le.mpr hle)
      · rw [Nat.sub_eq_zero_of_le hle, Nat.add_zero, Nat.cast_sub hle, abs_of_nonneg]
        exact sub_nonneg.mpr (Nat.cast_le.mpr hle)
    rw [hcast]
    exact ⟨.self _, fun _ => ⟨rfl, by omega, fun he => by have := hA.2 he; have := hB.2 he; omega⟩⟩
  lt := Nat.cast_lt.symm
  eq := Nat.cast_inj.symm

/-- Two places and more: the sum keeps its magnitude. -/
theorem aligned_apart (hA : A % 2 = 0) (hA' : 2 ^ 26 ≤ A) (hβ : Sticky β B) (hB : B < 2 ^ 25) (he : e ≠ 1) :
    Aligned A β A B e := by
  have hlt : B < A := by omega
  have hβlt : β < A := by
    have hle : 2 * (B / 2) + 2 ≤ A := by omega
    exact hβ.upper.trans_le (Nat.cast_le.mpr hle)
  have hsub : A - B + (B - A) = A - B := by omega
  refine ⟨⟨hβ.add hA, fun h => absurd h (by omega)⟩, ?_, iff_of_true hlt hβlt,
    iff_of_false (by omega) hβlt.ne'⟩
  rw [hsub, abs_of_pos (sub_pos.mpr hβlt)]
  exact ⟨hβ.sub hA hlt.le, fun h => absurd h (by omega)⟩

/-- Two significands, the one of the smaller exponent shifted. -/
theorem aligned_jam {x y d : Nat} (hy : y < 2 ^ 24) (hd : d < e) (hx : e = 1 ∨ 2 ^ 23 ≤ x) :
    Aligned ((8 * x : Nat) : ℚ) (((8 * y : Nat) : ℚ) / 2 ^ d) (8 * x) (jam (8 * y) d) e := by
  by_cases h0 : d = 0
  · subst h0
    rw [jam_zero, pow_zero, div_one]
    exact aligned_exact (by omega) (by omega)
  · by_cases h1 : d = 1
    · subst h1
      have hjam : jam (8 * y) 1 = 4 * y := by
        unfold jam
        rw [if_pos (by omega)]
        omega
      have hhalf : ((8 * y : Nat) : ℚ) / 2 ^ 1 = (4 * y : Nat) := by
        push_cast
        ring
      rw [hjam, hhalf]
      exact aligned_exact (by omega) (by omega)
    · exact aligned_apart (by omega) (by omega) (sticky_jam _ _) (jam_lt (k := 2) (n := 24) (by omega) (by omega))
        (by omega)

end

/-! ## Before the adder -/

namespace PreNormAddsub

variable {a b : BitVec 32}

/-- The exponent field. -/
def field (a : BitVec 32) : Nat := a.toNat / 2 ^ 23 % 256

theorem toNat_field (a : BitVec 32) : (a.extractLsb 30 23).toNat = field a := toNat_extract a 30 23

theorem expo_eq (a : BitVec 32) : expo a = max (field a) 1 := by
  unfold expo field
  split <;> omega

theorem significand_eq (a : BitVec 32) :
    significand a = if field a = 0 then a.toNat % 2 ^ 23 else 2 ^ 23 + a.toNat % 2 ^ 23 := rfl

/-- Denormal or not, three places above the fraction. -/
theorem fract28_some (a : BitVec 32) :
    ∃ F, (if lnot (orReduce (slice (some a) 30 23)) = some false then (0b01 : Vec 2) ++ slice (some a) 22 0 ++ (0 : Vec 3)
        else (0 : Vec 2) ++ slice (some a) 22 0 ++ (0 : Vec 3)) = some F ∧ F.toNat = 8 * significand a := by
  have hdn : lnot (orReduce (slice (some a) 30 23)) = some (!decide (field a ≠ 0)) := by
    rw [← toNat_field, ← bne_zero_eq]
    rfl
  rw [hdn, significand_eq]
  by_cases h0 : field a = 0
  · rw [if_neg (by simp [h0]), if_pos h0]
    refine ⟨0#2 ++ a.extractLsb 22 0 ++ 0#3, rfl, ?_⟩
    rw [toNat_append_eq, toNat_append_eq, toNat_extract]
    simp
    omega
  · rw [if_pos (by simp [h0]), if_neg h0]
    refine ⟨1#2 ++ a.extractLsb 22 0 ++ 0#3, rfl, ?_⟩
    rw [toNat_append_eq, toNat_append_eq, toNat_extract]
    simp
    omega

/-- `s_fract_shr_28` with the sticky bit. -/
theorem shifted_some (F : BitVec 28) (d : BitVec 8) :
    ∃ G, slice (shr (some F) (some d)) 27 1 ++
        ofBit (lor (some (gt (some d) (countRZeros (some F)) && orReduce (some F) = some true))
          (bit (shr (some F) (some d)) 0)) = some G ∧ G.toNat = jam F.toNat d.toNat := by
  obtain ⟨sticky, hsticky⟩ : ∃ t : Bool, (gt (some d) (countRZeros (some F)) && orReduce (some F) = some true) = t ∧
      (t = true ↔ F.toNat % 2 ^ d.toNat ≠ 0) := by
    refine ⟨_, rfl, ?_⟩
    have hor : orReduce (some F) = some (decide (F.toNat ≠ 0)) := by
      rw [← bne_zero_eq]
      rfl
    by_cases h0 : F.toNat = 0
    · simp [hor, h0]
    · obtain ⟨z, hz, -, hlt⟩ := countRZeros_lt (by decide) h0
      rw [hz, hor, decide_eq_true h0, Bool.and_eq_true, ← hlt]
      simp [gt]
  refine ⟨(F >>> d.toNat).extractLsb 27 1 ++ BitVec.ofBool (sticky || (F >>> d.toNat).getLsbD 0), ?_, ?_⟩
  · have hbit : bit (shr (some F) (some d)) 0 = some ((F >>> d.toNat).getLsbD 0) := rfl
    rw [hsticky.1, hbit, lor_some]
    rfl
  · have hlt := F.isLt
    have hle : F.toNat / 2 ^ d.toNat ≤ F.toNat := Nat.div_le_self _ _
    rw [toNat_append_eq, toNat_extract, BitVec.toNat_ofBool, getLsbD_eq, BitVec.toNat_ushiftRight,
      Nat.shiftRight_eq_div_pow, jam]
    generalize F.toNat / 2 ^ d.toNat = q at hle ⊢
    have hiff := hsticky.2
    by_cases h0 : F.toNat % 2 ^ d.toNat = 0
    · have hs : sticky = false := Bool.eq_false_iff.mpr fun ht => hiff.mp ht h0
      rw [if_pos h0, hs, Bool.false_or]
      by_cases hodd : q / 2 ^ 0 % 2 = 1
      · rw [decide_eq_true hodd, Bool.toNat_true]
        omega
      · rw [decide_eq_false hodd, Bool.toNat_false]
        omega
    · rw [if_neg h0, hiff.mpr h0, Bool.true_or, Bool.toNat_true]
      omega

/-- `s_exp_diff`, from the larger exponent `x` and the smaller `y`. -/
theorem expDiff_some {x y : BitVec 8} (h : y.toNat ≤ x.toNat) {dnx dny : Bool} (hx : dnx = decide (x.toNat = 0))
    (hy : dny = decide (y.toNat = 0)) :
    ∃ d : BitVec 8, (if dnx ^^ dny then some (x - (y + 1)) else some (x - y)) = some d ∧
      d.toNat = max x.toNat 1 - max y.toNat 1 := by
  have hlt := x.isLt
  have hone : (1 : BitVec 8).toNat = 1 := rfl
  by_cases hx0 : x.toNat = 0
  · have hy0 : y.toNat = 0 := by omega
    rw [hx, hy, decide_eq_true hx0, decide_eq_true hy0]
    refine ⟨x - y, rfl, ?_⟩
    rw [BitVec.toNat_sub_of_le h]
    omega
  · by_cases hy0 : y.toNat = 0
    · rw [hx, hy, decide_eq_false hx0, decide_eq_true hy0]
      have hy1 : (y + 1).toNat = 1 := by rw [BitVec.toNat_add, hone, hy0]
      refine ⟨x - (y + 1), rfl, ?_⟩
      rw [BitVec.toNat_sub_of_le (BitVec.le_def.mpr (by omega)), hy1]
      omega
    · rw [hx, hy, decide_eq_false hx0, decide_eq_false hy0]
      refine ⟨x - y, rfl, ?_⟩
      rw [BitVec.toNat_sub_of_le h]
      omega

theorem gt_fields (a b : BitVec 32) :
    gt (slice (some a) 30 23) (slice (some b) 30 23) = decide (field b < field a) := by
  rw [← toNat_field, ← toNat_field]
  rfl

theorem sExpDiff_some (a b : BitVec 32) (s : PreNormAddsub) :
    ∃ d, (step (some a, some b) s).sExpDiff = some d ∧ d.toNat = max (expo a) (expo b) - min (expo a) (expo b) := by
  have hdn : ∀ x : BitVec 32, lnot (orReduce (slice (some x) 30 23)) = some (decide ((x.extractLsb 30 23).toNat = 0)) :=
    fun x => by
      have hbne : lnot (orReduce (slice (some x) 30 23)) = some (!(x.extractLsb 30 23 != 0)) := rfl
      rw [hbne, bne_zero_eq, Option.some_inj, Bool.not_eq_eq_eq_not, ← decide_not]
  simp only [step, gt_fields, hdn, expo_eq]
  by_cases hlt : field b < field a
  · obtain ⟨d, hd, hnat⟩ := expDiff_some (x := a.extractLsb 30 23) (y := b.extractLsb 30 23)
      (by rw [toNat_field, toNat_field]; omega) rfl rfl
    rw [toNat_field, toNat_field] at hnat
    refine ⟨d, ?_, by omega⟩
    rw [decide_eq_true hlt, ← hd]
    cases hx : decide ((a.extractLsb 30 23).toNat = 0) ^^ decide ((b.extractLsb 30 23).toNat = 0) with
    | true =>
      rw [lxor, Option.map₂_some_some, hx]
      rfl
    | false =>
      rw [lxor, Option.map₂_some_some, hx]
      rfl
  · obtain ⟨d, hd, hnat⟩ := expDiff_some (x := b.extractLsb 30 23) (y := a.extractLsb 30 23)
      (by rw [toNat_field, toNat_field]; omega) rfl rfl
    rw [toNat_field, toNat_field] at hnat
    refine ⟨d, ?_, by omega⟩
    rw [decide_eq_false hlt, ← hd, Bool.xor_comm]
    cases hx : decide ((a.extractLsb 30 23).toNat = 0) ^^ decide ((b.extractLsb 30 23).toNat = 0) with
    | true =>
      rw [lxor, Option.map₂_some_some, hx]
      rfl
    | false =>
      rw [lxor, Option.map₂_some_some, hx]
      rfl

end PreNormAddsub

namespace Core

open PreNormAddsub in
/-- **The operands behind `pre_norm_addsub`**: the one of the smaller exponent is shifted. -/
theorem settledPre_some (a b : BitVec 32) :
    ∃ A B f, (settledPre a b).fracta28O = some A ∧ (settledPre a b).fractb28O = some B ∧ (settledPre a b).expO = some f ∧
      f.toNat = max (field a) (field b) ∧ A.toNat = jam (8 * significand a) (max (expo a) (expo b) - expo a) ∧
      B.toNat = jam (8 * significand b) (max (expo a) (expo b) - expo b) := by
  obtain ⟨d, hd, hdnat⟩ := sExpDiff_some a b .powerUp
  obtain ⟨A, hA, hAnat⟩ := fract28_some a
  obtain ⟨B, hB, hBnat⟩ := fract28_some b
  have hstep : settledPre a b = PreNormAddsub.step (some a, some b) (PreNormAddsub.step (some a, some b) .powerUp) := rfl
  have ha := expo_eq a
  have hb := expo_eq b
  by_cases hlt : field b < field a
  · have hgt : gt (slice (some a) 30 23) (slice (some b) 30 23) = true := by rw [gt_fields, decide_eq_true hlt]
    obtain ⟨G, hG, hGnat⟩ := shifted_some B d
    refine ⟨A, G, a.extractLsb 30 23, ?_, ?_, ?_, ?_, ?_, ?_⟩
    · rw [hstep, PreNormAddsub.step]
      simp only [hgt, if_true]
      exact hA
    · rw [hstep, PreNormAddsub.step]
      simp only [hd, hgt, Bool.true_eq_false, if_false, hB]
      exact hG
    · rw [hstep]
      simp only [PreNormAddsub.step, hgt, if_true]
      rfl
    · rw [toNat_field]
      omega
    · rw [show max (expo a) (expo b) - expo a = 0 by omega, jam_zero, hAnat]
    · rw [hGnat, hBnat, hdnat, show max (expo a) (expo b) - min (expo a) (expo b) = max (expo a) (expo b) - expo b by omega]
  · have hgt : gt (slice (some a) 30 23) (slice (some b) 30 23) = false := by rw [gt_fields, decide_eq_false hlt]
    obtain ⟨G, hG, hGnat⟩ := shifted_some A d
    refine ⟨G, B, b.extractLsb 30 23, ?_, ?_, ?_, ?_, ?_, ?_⟩
    · rw [hstep, PreNormAddsub.step]
      simp only [hd, hgt, Bool.false_eq_true, if_false, if_true, hA]
      exact hG
    · rw [hstep, PreNormAddsub.step]
      simp only [hgt, if_true]
      exact hB
    · rw [hstep]
      simp only [PreNormAddsub.step, hgt, Bool.false_eq_true, if_false]
      rfl
    · rw [toNat_field]
      omega
    · rw [hGnat, hAnat, hdnat, show max (expo a) (expo b) - min (expo a) (expo b) = max (expo a) (expo b) - expo a by omega]
    · rw [show max (expo a) (expo b) - expo b = 0 by omega, jam_zero, hBnat]

end Core

/-! ## The exact sum -/

/-- The sum of two operands, or their difference. -/
def combined (sub : Bool) (a b : BitVec 32) : ℚ := if sub then floatValue a - floatValue b else floatValue a + floatValue b

/-- A fraction in units of an eighth of the last place of the exponent `e`. -/
def scaled (a : BitVec 32) (e : Nat) : ℚ := ((8 * significand a : Nat) : ℚ) / 2 ^ (e - expo a)

/-- Whether `addsub_28` subtracts. -/
def addop (sub : Bool) (a b : BitVec 32) : Bool := a.msb ^^ b.msb ^^ sub

/-- What the adder is to give. -/
def target (sub : Bool) (a b : BitVec 32) (e : Nat) : ℚ :=
  if addop sub a b then |scaled a e - scaled b e| else scaled a e + scaled b e

section
variable {a b : BitVec 32} {sub : Bool} {e : Nat}

theorem scaled_nonneg (a : BitVec 32) (e : Nat) : 0 ≤ scaled a e := by
  unfold scaled
  positivity

theorem floatValue_scaled (h : expo a ≤ e) :
    floatValue a = (if a.msb then -1 else 1) * (scaled a e * (2 ^ (e - 1) / 2 ^ 152)) := by
  have hpos := expo_pos a
  have hmag : (mag 23 (a.toNat % 2 ^ 31) : ℚ) / 2 ^ 149 = scaled a e * (2 ^ (e - 1) / 2 ^ 152) := by
    rw [mag_operand, scaled, show e - 1 = e - expo a + (expo a - 1) by omega, pow_add]
    push_cast
    field_simp
    norm_num
  rw [floatValue, hmag]

theorem normal_of_expo (h : expo a ≠ 1) : 2 ^ 23 ≤ significand a := by
  unfold expo at h
  unfold significand
  split at h
  · exact absurd rfl h
  next h0 =>
    rw [if_neg h0]
    exact Nat.le_add_right _ _

/-- **The fractions behind `pre_norm_addsub` stand for the operands.** -/
theorem aligned_operands {A B : Nat} (he : e = max (expo a) (expo b)) (hA : A = jam (8 * significand a) (e - expo a))
    (hB : B = jam (8 * significand b) (e - expo b)) : Aligned (scaled a e) (scaled b e) A B e := by
  have hapos := expo_pos a
  have hbpos := expo_pos b
  by_cases hle : expo b ≤ expo a
  · have hae : e - expo a = 0 := by omega
    have hsa : scaled a e = (8 * significand a : Nat) := by rw [scaled, hae, pow_zero, div_one]
    rw [hA, hB, hae, jam_zero, hsa]
    refine aligned_jam (significand_lt b) (by omega) ?_
    by_cases h1 : expo a = 1
    · exact .inl (by omega)
    · exact .inr (normal_of_expo h1)
  · have hbe : e - expo b = 0 := by omega
    have hsb : scaled b e = (8 * significand b : Nat) := by rw [scaled, hbe, pow_zero, div_one]
    rw [hA, hB, hbe, jam_zero, hsb]
    refine (aligned_jam (significand_lt a) (by omega) ?_).symm
    by_cases h1 : expo b = 1
    · exact .inl (by omega)
    · exact .inr (normal_of_expo h1)

theorem combined_scaled (ha : expo a ≤ e) (hb : expo b ≤ e) :
    combined sub a b = ((if a.msb then -1 else 1) * scaled a e + (if b.msb ^^ sub then -1 else 1) * scaled b e) *
      (2 ^ (e - 1) / 2 ^ 152) := by
  rw [combined, floatValue_scaled ha, floatValue_scaled hb]
  generalize (2 ^ (e - 1) / 2 ^ 152 : ℚ) = u
  generalize (if a.msb then -1 else 1 : ℚ) = σ
  cases b.msb <;> cases sub <;> simp <;> ring

theorem abs_combined (ha : expo a ≤ e) (hb : expo b ≤ e) :
    |combined sub a b| = target sub a b e * (2 ^ (e - 1) / 2 ^ 152) := by
  have hu : (0 : ℚ) ≤ 2 ^ (e - 1) / 2 ^ 152 := by positivity
  have hα := scaled_nonneg a e
  have hβ := scaled_nonneg b e
  have hsum : |scaled a e + scaled b e| = scaled a e + scaled b e := abs_of_nonneg (by linarith)
  have hneg : |-scaled a e + -scaled b e| = scaled a e + scaled b e := by
    rw [← neg_add, abs_neg, hsum]
  have hswap : |-scaled a e + scaled b e| = |scaled a e - scaled b e| := by
    rw [← abs_neg, neg_add, neg_neg, sub_eq_add_neg]
  rw [combined_scaled ha hb, abs_mul, abs_of_nonneg hu]
  congr 1
  unfold target addop
  cases a.msb <;> cases b.msb <;> cases sub <;> simp [hsum, hneg, hswap, sub_eq_add_neg]

/-- Nothing is there only if the sum is zero. -/
theorem Summed.eq_zero {t : ℚ} {T : Nat} (h : Summed t T e) : T = 0 ↔ t = 0 := by
  constructor
  · intro h0
    have := (h.exact (.inl (by omega))).1
    rw [this, h0, Nat.cast_zero]
  · intro h0
    have hle : ((2 * (T / 2) : Nat) : ℚ) ≤ (0 : Nat) := by
      rw [Nat.cast_zero, ← h0]
      exact h.sticky.lower
    have hT := Nat.cast_le.mp hle
    have := (h.exact (.inl (by omega))).1
    rw [h0] at this
    exact_mod_cast this.symm

/-- `sign_o`, in numbers. -/
def adderSign (sa sb sub : Bool) (A B T : Nat) : Bool :=
  if T = 0 ∧ (sa && sb) = false then false
  else (!sa && (!decide (B < A) && (sub ^^ sb))) || (sa && (decide (B < A) || (sub ^^ sb)))

theorem adderSign_cases {α β : ℚ} {A B : Nat} (sa sb sub : Bool) (hα : 0 ≤ α) (hβ : 0 ≤ β) (hlt : B < A ↔ β < α)
    (hadd : A + B = 0 ↔ α + β = 0) (hsub : A - B + (B - A) = 0 ↔ α = β) :
    adderSign sa sb sub A B (if sa ^^ sb ^^ sub then A - B + (B - A) else A + B) =
      decide ((if sa then -1 else 1) * α + (if sb ^^ sub then -1 else 1) * β < 0 ∨ sub = false ∧ sa ∧ sb) := by
  unfold adderSign
  cases sa <;> cases sb <;> cases sub <;> simp [hlt] <;> grind

/-- **The sign at the output of `addsub_28`**; only the sum of two negative operands is a negative zero. -/
theorem sign_combined {A B : Nat} (ha : expo a ≤ e) (hb : expo b ≤ e) (h : Aligned (scaled a e) (scaled b e) A B e) :
    adderSign a.msb b.msb sub A B (if addop sub a b then A - B + (B - A) else A + B) =
      decide (combined sub a b < 0 ∨ sub = false ∧ a.msb ∧ b.msb) := by
  have hu : (0 : ℚ) < 2 ^ (e - 1) / 2 ^ 152 := by positivity
  have hsub : A - B + (B - A) = 0 ↔ scaled a e = scaled b e := by rw [← h.eq]; omega
  have hneg : combined sub a b < 0 ↔
      (if a.msb then -1 else 1) * scaled a e + (if b.msb ^^ sub then -1 else 1) * scaled b e < 0 := by
    rw [combined_scaled ha hb, mul_neg_iff, or_iff_right fun h => hu.not_gt h.2, and_iff_left hu]
  simp only [hneg]
  exact adderSign_cases a.msb b.msb sub (scaled_nonneg a e) (scaled_nonneg b e) h.lt h.add.eq_zero hsub

end

/-! ## The adder -/

section
variable {A B : BitVec 28}

/-- `addsub_28` on two fractions that leave room for a carry. -/
theorem Addsub28.step_some (hA : A.toNat < 2 ^ 27) (hB : B.toNat < 2 ^ 27) (sa sb sub : Bool) (s : Addsub28) :
    ∃ T, (step ⟨some sub, some A, some B, some sa, some sb⟩ s).fractO = some T ∧
      T.toNat = (if sa ^^ sb ^^ sub then A.toNat - B.toNat + (B.toNat - A.toNat) else A.toNat + B.toNat) ∧
      (step ⟨some sub, some A, some B, some sa, some sb⟩ s).signO = some (adderSign sa sb sub A.toNat B.toNat T.toNat) := by
  have haddop : lor (land (lxor (some sa) (some sb)) (lnot (some sub))) (land (lnot (lxor (some sa) (some sb))) (some sub)) =
      some (sa ^^ sb ^^ sub) := by
    cases sa <;> cases sb <;> cases sub <;> rfl
  have hgt : gt (some A) (some B) = decide (B.toNat < A.toNat) := rfl
  obtain ⟨T, hT, hTnat⟩ : ∃ T, (step ⟨some sub, some A, some B, some sa, some sb⟩ s).fractO = some T ∧
      T.toNat = if sa ^^ sb ^^ sub then A.toNat - B.toNat + (B.toNat - A.toNat) else A.toNat + B.toNat := by
    simp only [step, haddop, hgt]
    cases sa ^^ sb ^^ sub with
    | false =>
      refine ⟨A + B, rfl, ?_⟩
      rw [BitVec.toNat_add, if_neg (by simp)]
      omega
    | true =>
      rw [if_neg (by simp), if_pos rfl]
      by_cases hlt : B.toNat < A.toNat
      · refine ⟨A - B, by rw [decide_eq_true hlt]; rfl, ?_⟩
        rw [BitVec.toNat_sub_of_le (BitVec.le_def.mpr hlt.le)]
        omega
      · refine ⟨B - A, by rw [decide_eq_false hlt]; rfl, ?_⟩
        rw [BitVec.toNat_sub_of_le (BitVec.le_def.mpr (by omega))]
        omega
  refine ⟨T, hT, hTnat, ?_⟩
  have hzero : (some T : Vec 28) = 0 ↔ T.toNat = 0 := by
    rw [some_eq_ofNat, ← BitVec.toNat_inj]
    rfl
  have hsign : (step ⟨some sub, some A, some B, some sa, some sb⟩ s).signO =
      if (step ⟨some sub, some A, some B, some sa, some sb⟩ s).fractO = 0 ∧ land (some sa) (some sb) = some false then
        some false
      else lor (land (lnot (some sa)) (land (lnot (some (gt (some A) (some B)))) (lxor (some sub) (some sb))))
        (land (some sa) (lor (some (gt (some A) (some B))) (lxor (some sub) (some sb)))) := rfl
  rw [hsign, hT, hgt, adderSign]
  simp only [hzero, land_some, Option.some_inj]
  cases sa <;> cases sb <;> cases sub <;> cases decide (B.toNat < A.toNat) <;> split <;> rfl

end

/-! ## Normalization and rounding -/

namespace PostNormAddsub

/-- The places that a fraction has to be shifted to the left. -/
structure Leading (T z : Nat) : Prop where
  carry : 2 ^ 27 ≤ T → z = 0
  shifted : T < 2 ^ 27 → T ≠ 0 → 2 ^ 26 ≤ T * 2 ^ z ∧ T * 2 ^ z < 2 ^ 27
  zero : z = 27 ↔ T = 0
  le : z ≤ 27

section
variable {i : PostNormAddsubIn} {s : PostNormAddsub} {T F : BitVec 28} {f : BitVec 8}

theorem carry_some (hT : i.fract28I = some T) : carry i = some (decide (2 ^ 27 ≤ T.toNat)) := by
  have hlt := T.isLt
  have hbit : bit (some T) 27 = some (T.getLsbD 27) := rfl
  rw [carry, hT, hbit, getLsbD_eq, Option.some_inj]
  exact decide_eq_decide.mpr (by omega)

theorem zeros_some (hT : i.fract28I = some T) : ∃ z, zeros i = some z ∧ Leading T.toNat z.toNat := by
  have hlt := T.isLt
  unfold zeros
  rw [carry_some hT, hT]
  by_cases hle : 2 ^ 27 ≤ T.toNat
  · rw [decide_eq_true hle, if_neg (by simp)]
    exact ⟨0, rfl, fun _ => rfl, fun h => absurd hle (by omega), ⟨fun h => absurd h (by decide), fun h => by omega⟩, by decide⟩
  · rw [decide_eq_false hle, if_pos rfl]
    have hlow : (T.extractLsb 26 0).toNat = T.toNat := by
      rw [toNat_extract]
      omega
    have hslice : slice (some T) 26 0 = some (T.extractLsb 26 0) := rfl
    rw [hslice]
    by_cases h0 : T.toNat = 0
    · have hzero : T.extractLsb 26 0 = 0 := BitVec.eq_of_toNat_eq (by rw [hlow, h0]; rfl)
      obtain ⟨z, hz, hnat⟩ := countLZeros_zero (w := range 26 0) (by decide)
      rw [hzero]
      exact ⟨z, hz, fun h => absurd h hle, fun _ h => absurd h0 h, ⟨fun _ => h0, fun _ => hnat⟩, hnat.le⟩
    · obtain ⟨z, hz, hnat⟩ := countLZeros_log (v := T.extractLsb 26 0) (by decide) (by rw [hlow]; exact h0)
      rw [hlow] at hnat
      refine ⟨z, hz, fun h => absurd h hle, fun _ _ => ⟨?_, ?_⟩, by omega, by omega⟩
      · calc 2 ^ 26 = 2 ^ T.toNat.log2 * 2 ^ z.toNat := by rw [← Nat.pow_add]; congr 1; omega
          _ ≤ T.toNat * 2 ^ z.toNat := Nat.mul_le_mul_right _ (Nat.log2_self_le h0)
      · calc T.toNat * 2 ^ z.toNat < 2 ^ (T.toNat.log2 + 1) * 2 ^ z.toNat :=
              Nat.mul_lt_mul_of_pos_right Nat.lt_log2_self (Nat.two_pow_pos _)
          _ = 2 ^ 27 := by rw [← Nat.pow_add]; congr 1; omega

/-- What stage 1 makes of the exponent field `f`. -/
structure Shifts (T f z k l x : Nat) : Prop where
  normal : z < f + (if 2 ^ 27 ≤ T then 1 else 0) →
    k = (if 2 ^ 27 ≤ T then 1 else 0) ∧ l = z ∧ x + z = f + if 2 ^ 27 ≤ T then 1 else 0
  denormal : f + (if 2 ^ 27 ≤ T then 1 else 0) ≤ z → k = 0 ∧ l = f - 1 ∧ x = 1

theorem stage1_some (hT : i.fract28I = some T) (hf : i.expI = some f) (hf' : f.toNat < 255) {z : BitVec 6}
    (hz : zeros i = some z) (hlead : Leading T.toNat z.toNat) :
    ∃ k l x, stage1 i = (some k, some l, some x) ∧ Shifts T.toNat f.toNat z.toNat k.toNat l.toNat x.toNat := by
  obtain ⟨u, hu⟩ : ∃ u, u = BitVec.ofBool (decide (2 ^ 27 ≤ T.toNat)) := ⟨_, rfl⟩
  obtain ⟨c, hc⟩ : ∃ c, c = if 2 ^ 27 ≤ T.toNat then 1 else 0 := ⟨_, rfl⟩
  have hunat : u.toNat = c := by
    rw [hu, BitVec.toNat_ofBool, hc]
    by_cases hle : 2 ^ 27 ≤ T.toNat
    · rw [decide_eq_true hle, if_pos hle]
      rfl
    · rw [decide_eq_false hle, if_neg hle]
      rfl
  have hc1 : c ≤ 1 := by
    rw [hc]
    split <;> omega
  have hzle := hlead.le
  have hcarry : ofBit (carry i) = some u := by rw [carry_some hT, hu]; rfl
  have hpadf := toNat_pad 2 f
  have hpadu := toNat_pad 9 u
  have hpadz := toNat_pad 4 z
  obtain ⟨e, he⟩ : ∃ e, e = (0#2 ++ f) + (0#9 ++ u) - (0#4 ++ z) := ⟨_, rfl⟩
  have henat : e.toNat = (f.toNat + c + (1024 - z.toNat)) % 1024 := by
    rw [he, BitVec.toNat_sub, BitVec.toNat_add, hpadf, hpadu, hpadz, hunat]
    omega
  have hexp : ((0 : Vec 2) ++ i.expI) + ((0 : Vec 9) ++ ofBit (carry i)) - ((0 : Vec 4) ++ zeros i) = some e := by
    rw [hf, hcarry, hz, he]
    rfl
  have h9 : bit (some e) 9 = some true ∨ (some e : Vec 10) = 0 ↔ f.toNat + c ≤ z.toNat := by
    have hbit : bit (some e) 9 = some (e.getLsbD 9) := rfl
    rw [hbit, getLsbD_eq, Option.some_inj, decide_eq_true_iff, some_eq_ofNat, ← BitVec.toNat_inj, henat]
    show _ ∨ _ = 0 ↔ _
    omega
  unfold stage1
  simp only [hexp, h9]
  by_cases hle : f.toNat + c ≤ z.toNat
  · rw [if_pos hle]
    have hor : orReduce (some f) = some (decide (f.toNat ≠ 0)) := by
      rw [← bne_zero_eq]
      rfl
    obtain ⟨l, hl, hlnat⟩ : ∃ l : BitVec 6, (if orReduce i.expI ≠ some false then slice i.expI 5 0 - 1 else 0) = some l ∧
        l.toNat = f.toNat - 1 := by
      rw [hf, hor]
      by_cases h0 : f.toNat = 0
      · rw [if_neg (by simp [h0])]
        exact ⟨0, rfl, by rw [h0]; rfl⟩
      · rw [if_pos (by simp [h0])]
        have hone : (1 : BitVec (range 5 0)).toNat = 1 := rfl
        have hlow : (f.extractLsb 5 0).toNat = f.toNat := by
          rw [toNat_extract]
          omega
        refine ⟨f.extractLsb 5 0 - 1, rfl, ?_⟩
        rw [BitVec.toNat_sub_of_le (BitVec.le_def.mpr (by rw [hone, hlow]; omega)), hone, hlow]
    refine ⟨0, l, 1, by rw [hl]; rfl, fun h => absurd (hc ▸ h) (by omega), fun _ => ⟨rfl, hlnat, rfl⟩⟩
  · have h8 : ¬ bit (some e) 8 = some true := by
      have hbit : bit (some e) 8 = some (e.getLsbD 8) := rfl
      rw [hbit, getLsbD_eq, Option.some_inj, decide_eq_true_iff, henat]
      omega
    rw [if_neg hle, if_neg h8, hcarry, hz]
    refine ⟨0#5 ++ u, z, e.extractLsb 8 0, rfl, fun _ => ⟨?_, rfl, ?_⟩, fun h => absurd (hc ▸ h) hle⟩
    · rw [toNat_pad 5, hunat, hc]
    · rw [toNat_extract, henat, ← hc]
      omega

theorem fracto281_some (hT : i.fract28I = some T) {k l : BitVec 6} (hk : s.sShr1 = some k) (hl : s.sShl1 = some l) :
    ∃ F, (step i s).sFracto281 = some F ∧
      F.toNat = if k.toNat = 0 then T.toNat * 2 ^ l.toNat % 2 ^ 28 else T.toNat / 2 ^ k.toNat := by
  simp only [step, hT, hk, hl]
  by_cases h0 : k.toNat = 0
  · have hzero : (some k : Vec 6) = 0 := congrArg some (BitVec.eq_of_toNat_eq h0)
    rw [if_neg (by simpa using hzero), if_pos h0]
    refine ⟨T <<< l.toNat, rfl, ?_⟩
    rw [BitVec.toNat_shiftLeft, Nat.shiftLeft_eq]
  · have hne : (some k : Vec 6) ≠ 0 := fun h => h0 (by rw [Option.some_inj.mp h]; rfl)
    rw [if_pos hne, if_neg h0]
    refine ⟨T >>> k.toNat, rfl, ?_⟩
    rw [BitVec.toNat_ushiftRight, Nat.shiftRight_eq_div_pow]

/-- Whether the last place goes up. -/
def up (T F : BitVec 28) : Bool :=
  F.getLsbD 2 && ((F.getLsbD 1 || (F.getLsbD 0 || T.getLsbD 0 && T.getLsbD 27)) || F.getLsbD 3)

/-- The word of a sum of numbers: `y` is its exponent and `R` its rounded fraction. -/
theorem sOutputO_some (ha : isInf i.opaI = false) (hb : isInf i.opbI = false) (hT : i.fract28I = some T)
    {sign : Bool} (hsign : i.signI = some sign) (hmode : i.rmodeI = 0b00) {z : BitVec 6} (hz : zeros i = some z)
    (hlead : Leading T.toNat z.toNat) (hF : s.sFracto281 = some F) (hF27 : F.toNat < 2 ^ 27) {x : BitVec 9}
    (hx : s.sExpo91 = some x) (hx1 : 1 ≤ x.toNat) (hx255 : x.toNat ≤ 255) {y R e g : Nat}
    (hy : y = if F.toNat < 2 ^ 26 then x.toNat - 1 else x.toNat) (hR : R = F.toNat / 8 + (up T F).toNat)
    (he : e = if 2 ^ 24 ≤ R ∧ y ≠ 255 then y + 1 else y) (hg : g = if 2 ^ 24 ≤ R ∧ y ≠ 255 then R / 2 else R) :
    ∃ w, sOutputO i s = some w ∧ w.msb = sign ∧
      w.toNat % 2 ^ 31 = if 255 ≤ e then infCode else if T.toNat = 0 then 0 else e * 2 ^ 23 + g % 2 ^ 23 := by
  have hup : roundup i.rmodeI i.signI (bit s.sFracto281 2) (bit s.sFracto281 1)
      (some (bit s.sFracto281 0 = some true ∨ land (bit i.fract28I 0) (bit i.fract28I 27) = some true))
      (bit s.sFracto281 3) = some (up T F) := by
    have hbit : ∀ k, bit (some F) k = some (F.getLsbD k) := fun _ => rfl
    have hbitT : ∀ k, bit (some T) k = some (T.getLsbD k) := fun _ => rfl
    rw [hF, hT, hbit, hbit, hbit, hbit, hbitT, hbitT, land_some, roundup, if_pos hmode, lor_some, lor_some, land_some, up]
    simp [Bool.or_assoc]
  obtain ⟨v, hv, hvnat⟩ : ∃ v : BitVec 9, (if slice s.sFracto281 27 26 = 0 then s.sExpo91 - 1 else s.sExpo91) = some v ∧
      v.toNat = y := by
    have hone : (1 : BitVec 9).toNat = 1 := rfl
    have htop : slice s.sFracto281 27 26 = 0 ↔ F.toNat < 2 ^ 26 := by
      have hslice : slice (some F) 27 26 = some (F.extractLsb 27 26) := rfl
      rw [hF, hslice, some_eq_ofNat, ← BitVec.toNat_inj, toNat_extract]
      show _ = 0 ↔ _
      omega
    rw [hx, hy]
    by_cases hlt : F.toNat < 2 ^ 26
    · rw [if_pos (htop.mpr hlt), if_pos hlt]
      refine ⟨x - 1, rfl, ?_⟩
      rw [BitVec.toNat_sub_of_le (BitVec.le_def.mpr (hone ▸ hx1)), hone]
    · rw [if_neg fun h => hlt (htop.mp h), if_neg hlt]
      exact ⟨x, rfl, rfl⟩
  obtain ⟨r, hr, hrnat⟩ : ∃ r : BitVec 28, (if (some (up T F) : Bit) = some true then s.sFracto281 + 0b1000
      else s.sFracto281) = some r ∧ r.toNat = F.toNat + 8 * (up T F).toNat := by
    have height : (0b1000 : BitVec 28).toNat = 8 := rfl
    rw [hF]
    cases up T F with
    | true =>
      refine ⟨F + 0b1000, rfl, ?_⟩
      rw [BitVec.toNat_add, height, Bool.toNat_true]
      omega
    | false => exact ⟨F, rfl, rfl⟩
  have hule := Bool.toNat_le (up T F)
  have hyle : y ≤ 255 := by
    rw [hy]
    split <;> omega
  have hshr2 : bit (some r) 27 = some (decide (2 ^ 24 ≤ R)) := by
    have hbit : bit (some r) 27 = some (r.getLsbD 27) := rfl
    rw [hbit, getLsbD_eq, hrnat, Option.some_inj]
    exact decide_eq_decide.mpr (by omega)
  have hne : (some v : Vec 9) ≠ 0b011111111 ↔ y ≠ 255 := by
    rw [ne_eq, some_eq_ofNat, ← BitVec.toNat_inj, hvnat]
    rfl
  obtain ⟨q, hq, hqnat⟩ : ∃ q : BitVec 9, (if bit (some r) 27 = some true ∧ (some v : Vec 9) ≠ 0b011111111 then
      (some v : Vec 9) + 1 else some v) = some q ∧ q.toNat = e := by
    have hone : (1 : BitVec 9).toNat = 1 := rfl
    simp only [hshr2, hne, Option.some_inj, decide_eq_true_iff]
    rw [he]
    by_cases hc : 2 ^ 24 ≤ R ∧ y ≠ 255
    · rw [if_pos hc, if_pos hc]
      refine ⟨v + 1, rfl, ?_⟩
      rw [BitVec.toNat_add, hone, hvnat]
      omega
    · rw [if_neg hc, if_neg hc]
      exact ⟨v, rfl, hvnat⟩
  have hinf : (some q : Vec 9) = 0b011111111 ↔ 255 ≤ e := by
    have hele : e ≤ 255 := by
      rw [he]
      split <;> omega
    rw [some_eq_ofNat, ← BitVec.toNat_inj, hqnat]
    show _ = 255 ↔ _
    omega
  have hzero : (zeros i = 27 && bit i.fract28I 27 = some false) = decide (T.toNat = 0) := by
    have hbit : bit (some T) 27 = some (T.getLsbD 27) := rfl
    have hz27 : (some z : Vec 6) = 27 ↔ T.toNat = 0 := by
      rw [← hlead.zero, some_eq_ofNat, ← BitVec.toNat_inj]
      rfl
    rw [hz, hT, hbit, getLsbD_eq, Bool.eq_iff_iff, Bool.and_eq_true, decide_eq_true_iff, decide_eq_true_iff,
      decide_eq_true_iff, hz27, Option.some_inj, decide_eq_false_iff_not]
    omega
  have hnan : isNan i.opaI = false ∧ isNan i.opbI = false := by
    rw [isNan, isNan, ha, hb]
    exact ⟨rfl, rfl⟩
  unfold sOutputO
  simp only [hup]
  simp only [hr, hv]
  simp only [hq, hinf, hzero, hnan.1, hnan.2, ha, hb, hsign]
  simp only [Bool.and_self, Bool.false_and, Bool.or_self, Bool.false_eq_true, if_false, Bool.not_false, Bool.and_true,
    Bool.false_or, decide_eq_true_iff]
  by_cases h255 : 255 ≤ e
  · rw [if_pos h255, if_pos h255]
    obtain ⟨hmsb, hnat⟩ := toNat_result sign 0b11111111#8 0#23
    refine ⟨BitVec.ofBool sign ++ 0b11111111#8 ++ 0#23, ?_, hmsb, hnat⟩
    cases sign <;> rfl
  · rw [if_neg h255, if_neg h255]
    by_cases h0 : T.toNat = 0
    · rw [if_pos h0, if_pos h0]
      obtain ⟨hmsb, hnat⟩ := toNat_result sign 0#8 0#23
      refine ⟨BitVec.ofBool sign ++ 0#8 ++ 0#23, ?_, hmsb, hnat⟩
      cases sign <;> rfl
    · rw [if_neg h0, if_neg h0, hshr2]
      have hy255 : y ≠ 255 := fun h => by
        rw [h, if_neg (by simp)] at he
        omega
      simp only [Option.some_inj, decide_eq_true_iff]
      by_cases hc : 2 ^ 24 ≤ R
      · rw [if_pos hc]
        obtain ⟨hmsb, hnat⟩ := toNat_result sign (q.extractLsb 7 0) ((0#1 ++ r.extractLsb 27 1).extractLsb 25 3)
        refine ⟨_, rfl, hmsb, hnat.trans ?_⟩
        rw [if_pos ⟨hc, hy255⟩] at hg
        rw [toNat_extract, toNat_extract, toNat_pad 1, toNat_extract, hqnat, hrnat, hg]
        omega
      · rw [if_neg hc]
        obtain ⟨hmsb, hnat⟩ := toNat_result sign (q.extractLsb 7 0) (r.extractLsb 25 3)
        refine ⟨_, rfl, hmsb, hnat.trans ?_⟩
        rw [if_neg fun h => hc h.1] at hg
        rw [toNat_extract, toNat_extract, hqnat, hrnat, hg]
        omega

/-- Of a fraction with `g` bits behind the guard bit, `F` shows the last two places and the guard bit as
they are, and whether there is anything behind. -/
theorem rounds_shifted {v t : ℚ} {E g : Nat} (hE : 1 ≤ E) (hg : 1 ≤ g) (h : Sticky t T.toNat) (hF26 : 2 ^ 26 ≤ F.toNat)
    (hF27 : F.toNat < 2 ^ 27) (hFT : F.toNat / 4 = T.toNat / 2 ^ g)
    (hrest : F.toNat % 4 ≠ 0 ∨ T.toNat % 2 = 1 ∧ 2 ^ 27 ≤ T.toNat ↔ T.toNat % 2 ^ g ≠ 0)
    (hv : v * 2 ^ (g + 150) = t * 2 ^ (E - 1)) :
    RoundsEven (single ℚ) v (sig 23 E (F.toNat / 8 + (up T F).toNat)) := by
  have hTlt := T.isLt
  have hdiv : T.toNat / 2 ^ (g + 1) = F.toNat / 8 := by
    rw [Nat.pow_succ, ← Nat.div_div_eq_div_mul, ← hFT]
    omega
  have hround := rounds_sticky hE hg h ?_ ?_ hv (F.getLsbD 2) (F.getLsbD 1 || (F.getLsbD 0 || T.getLsbD 0 && T.getLsbD 27))
    (F.getLsbD 3) ?_ ?_ ?_
  · rw [hdiv, sig_add] at hround
    exact hround
  · rw [Nat.add_comm, Nat.pow_add, ← Nat.le_div_iff_mul_le (Nat.two_pow_pos g), ← hFT]
    omega
  · rw [Nat.add_comm, Nat.pow_add, ← Nat.div_lt_iff_lt_mul (Nat.two_pow_pos g), ← hFT]
    omega
  · rw [getLsbD_eq, ← hFT]
    rfl
  · rw [← hrest]
    simp only [getLsbD_eq, Bool.or_eq_true, Bool.and_eq_true, decide_eq_true_iff]
    omega
  · rw [getLsbD_eq, hdiv]
    rfl

theorem value_of_exact {T e m : Nat} (h : T * 2 ^ (e - 1) = 8 * m) : (T : ℚ) * (2 ^ (e - 1) / 2 ^ 152) = m / 2 ^ 149 := by
  have hcast : (T : ℚ) * 2 ^ (e - 1) = 8 * m := by exact_mod_cast h
  rw [← mul_div_assoc, hcast]
  ring

/-- The fraction `F` behind stage 2 round the sum, where that is in the range of the normal numbers. -/
theorem rounds_normal {t : ℚ} {e z k l x f : Nat} (h : Summed t T.toNat e) (hT0 : T.toNat ≠ 0) (he : e = max f 1)
    (hf0 : f = 0 → T.toNat < 2 ^ 27) (hlead : Leading T.toNat z) (hs : Shifts T.toNat f z k l x)
    (hz : z < f + if 2 ^ 27 ≤ T.toNat then 1 else 0)
    (hF : F.toNat = if k = 0 then T.toNat * 2 ^ l % 2 ^ 28 else T.toNat / 2 ^ k) :
    2 ^ 26 ≤ F.toNat ∧ F.toNat < 2 ^ 27 ∧
      RoundsEven (single ℚ) (t * (2 ^ (e - 1) / 2 ^ 152)) (sig 23 x (F.toNat / 8 + (up T F).toNat)) := by
  obtain ⟨hk, hl, hx⟩ := hs.normal hz
  have hTlt := T.isLt
  have hvalue : ∀ g, e - 1 + g = x - 1 + 2 → t * (2 ^ (e - 1) / 2 ^ 152) * 2 ^ (g + 150) = t * 2 ^ (x - 1) :=
    fun g hg => by
      have hpow : (2 : ℚ) ^ (e - 1) * 2 ^ (g + 150) = 2 ^ (x - 1) * 2 ^ 152 := by
        rw [← pow_add, ← pow_add]
        congr 1
        omega
      rw [mul_assoc, div_mul_eq_mul_div, hpow, mul_div_cancel_right₀ _ (by positivity)]
  by_cases hle : 2 ^ 27 ≤ T.toNat
  · -- a carry: one place to the right
    have hz0 := hlead.carry hle
    rw [if_pos hle] at hk hx
    rw [if_neg (by omega), hk, Nat.pow_one] at hF
    exact ⟨by omega, by omega, rounds_shifted (g := 3) (by omega) (by omega) h.sticky (by omega) (by omega) (by omega)
      (by omega) (hvalue 3 (by omega))⟩
  · rw [if_neg hle] at hk hx hz
    obtain ⟨hs26, hs27⟩ := hlead.shifted (Nat.lt_of_not_le hle) hT0
    rw [if_pos hk, hl, Nat.mod_eq_of_lt (by omega)] at hF
    rw [← hF] at hs26 hs27
    refine ⟨hs26, hs27, ?_⟩
    by_cases hz0 : z = 0
    · rw [hz0, Nat.pow_zero, Nat.mul_one] at hF
      exact rounds_shifted (g := 2) (by omega) (by omega) h.sticky hs26 hs27 (by omega) (by omega) (hvalue 2 (by omega))
    · by_cases hz1 : z = 1
      · rw [hz1, Nat.pow_one] at hF
        exact rounds_shifted (g := 1) (by omega) (by omega) h.sticky hs26 hs27 (by omega) (by omega) (hvalue 1 (by omega))
      · -- further to the left: the sum is exact
        obtain ⟨d, rfl⟩ : ∃ d, z = d + 2 := ⟨z - 2, by omega⟩
        have hF4 : F.toNat = 4 * (T.toNat * 2 ^ d) := by rw [hF, Nat.pow_add]; ring
        have hT25 : T.toNat < 2 ^ 25 := by
          have := Nat.le_mul_of_pos_right T.toNat (Nat.two_pow_pos d)
          omega
        obtain ⟨ht, hT4, -⟩ := h.exact (.inl hT25)
        have hmul : T.toNat * 2 ^ d % 4 = 0 := by rw [Nat.mul_mod, hT4, Nat.zero_mul, Nat.zero_mod]
        have hup : up T F = false := by
          have : F.getLsbD 2 = false := by
            rw [getLsbD_eq, decide_eq_false_iff_not]
            omega
          rw [up, this, Bool.false_and]
        have hvalue : T.toNat * 2 ^ (e - 1) = 8 * (F.toNat / 8 * 2 ^ (x - 1)) := by
          have hF8 : 8 * (F.toNat / 8) = F.toNat := by omega
          rw [← Nat.mul_assoc, hF8, hF, Nat.mul_assoc, ← Nat.pow_add, show e - 1 = d + 2 + (x - 1) by omega]
        have hgrid : t * (2 ^ (e - 1) / 2 ^ 152) = single ℚ (sig 23 x (F.toNat / 8)) := by
          rw [single, mag_sig (by omega) (by omega) (by omega), ht, value_of_exact hvalue]
        rw [hup, Bool.toNat_false, Nat.add_zero, hgrid]
        exact .self (single_strictMono ℚ) _

/-- A denormal sum, or one of two denormals, is exact. -/
theorem rounds_denormal {t : ℚ} {e z k l x f : Nat} (h : Summed t T.toNat e) (he : e = max f 1)
    (hlead : Leading T.toNat z) (hs : Shifts T.toNat f z k l x)
    (hz : f + (if 2 ^ 27 ≤ T.toNat then 1 else 0) ≤ z)
    (hF : F.toNat = if k = 0 then T.toNat * 2 ^ l % 2 ^ 28 else T.toNat / 2 ^ k) :
    F.toNat < 2 ^ 27 ∧ up T F = false ∧ RoundsEven (single ℚ) (t * (2 ^ (e - 1) / 2 ^ 152)) (F.toNat / 8) := by
  obtain ⟨hk, hl, hx⟩ := hs.denormal hz
  have hlt : T.toNat < 2 ^ 27 := by
    by_contra hle
    have := hlead.carry (by omega)
    rw [if_pos (by omega)] at hz
    omega
  have hexact : T.toNat * 2 ^ l < 2 ^ 27 ∧ (T.toNat < 2 ^ 25 ∨ e = 1) := by
    by_cases h0 : T.toNat = 0
    · rw [h0, Nat.zero_mul]
      exact ⟨by decide, .inl (by decide)⟩
    · by_cases hf1 : f ≤ 1
      · rw [hl, show f - 1 = 0 by omega, Nat.pow_zero, Nat.mul_one]
        exact ⟨hlt, .inr (by omega)⟩
      · obtain ⟨c, rfl⟩ : ∃ c, z = c + 2 := ⟨z - 2, by omega⟩
        have hs27 := (hlead.shifted hlt h0).2
        have hle : 2 ^ l ≤ 2 ^ (c + 2) := Nat.pow_le_pow_right (by omega) (by omega)
        refine ⟨(Nat.mul_le_mul_left _ hle).trans_lt hs27, .inl ?_⟩
        rw [Nat.pow_add] at hs27
        have := Nat.le_mul_of_pos_right T.toNat (Nat.two_pow_pos c)
        have hassoc : T.toNat * (2 ^ c * 2 ^ 2) = T.toNat * 2 ^ c * 4 := by ring
        omega
  obtain ⟨ht, hT4, hT8⟩ := h.exact hexact.2
  rw [if_pos hk, Nat.mod_eq_of_lt (by omega)] at hF
  have hle : l = e - 1 := by omega
  have hF8 : F.toNat % 8 = 0 := by
    by_cases he1 : e = 1
    · rw [hF, hle, he1, Nat.sub_self, Nat.pow_zero, Nat.mul_one]
      exact hT8 he1
    · rw [hF, show l = l - 1 + 1 by omega, Nat.pow_succ]
      have : T.toNat * 2 ^ (l - 1) % 4 = 0 := by rw [Nat.mul_mod, hT4, Nat.zero_mul, Nat.zero_mod]
      rw [← Nat.mul_assoc]
      omega
  have hup : up T F = false := by
    have : F.getLsbD 2 = false := by
      rw [getLsbD_eq, decide_eq_false_iff_not]
      omega
    rw [up, this, Bool.false_and]
  have hF24 : F.toNat / 8 < 2 ^ 24 := by omega
  have hmag : mag 23 (F.toNat / 8) = F.toNat / 8 := by
    by_cases hlt : F.toNat / 8 < 2 ^ 23
    · exact mag_of_lt hlt
    · rw [mag_of_le (by omega), show F.toNat / 8 / 2 ^ 23 = 1 by omega, Nat.sub_self, Nat.pow_zero, Nat.mul_one]
      omega
  have hgrid : t * (2 ^ (e - 1) / 2 ^ 152) = single ℚ (F.toNat / 8) := by
    rw [single, hmag, ht, value_of_exact (m := F.toNat / 8) (by rw [← hle]; omega)]
  refine ⟨by omega, hup, ?_⟩
  rw [hgrid]
  exact .self (single_strictMono ℚ) _

end

end PostNormAddsub

/-! ## Addition and subtraction -/

namespace Core

open PostNormAddsub

section
variable {a b : BitVec 32} {sub : Bool} {A B T : BitVec 28} {f : BitVec 8}

/-- `post_norm_addsub` behind a sum that is right but for its sticky bit. -/
theorem post_rounded {i : PostNormAddsubIn} {t : ℚ} {e : Nat} {sign : Bool} (ha : isInf i.opaI = false)
    (hb : isInf i.opbI = false) (hT : i.fract28I = some T) (hf : i.expI = some f) (hsign : i.signI = some sign)
    (hmode : i.rmodeI = 0b00) (h : Summed t T.toNat e) (he : e = max f.toNat 1) (hf' : f.toNat < 255)
    (hf0 : f.toNat = 0 → T.toNat < 2 ^ 27) :
    ∃ w n, ((PostNormAddsub.step i)^[3] .powerUp).outputO = some w ∧ w.msb = sign ∧
      RoundsEven (single ℚ) (t * (2 ^ (e - 1) / 2 ^ 152)) n ∧ w.toNat % 2 ^ 31 = min n infCode := by
  obtain ⟨z, hz, hlead⟩ := zeros_some hT
  obtain ⟨k, l, x, hstage, hs⟩ := stage1_some hT hf hf' hz hlead
  obtain ⟨s1, hs1⟩ : ∃ s1, s1 = PostNormAddsub.step i .powerUp := ⟨_, rfl⟩
  have hk : s1.sShr1 = some k := by rw [hs1]; exact congrArg Prod.fst hstage
  have hl : s1.sShl1 = some l := by rw [hs1]; exact congrArg (fun t => t.2.1) hstage
  obtain ⟨F, hF, hFnat⟩ := fracto281_some hT hk hl
  have hx : (PostNormAddsub.step i s1).sExpo91 = some x := congrArg (fun t => t.2.2) hstage
  have hout : ((PostNormAddsub.step i)^[3] .powerUp).outputO = PostNormAddsub.sOutputO i (PostNormAddsub.step i s1) := by
    rw [hs1]
    rfl
  have hzle := hlead.le
  have hempty : T.toNat = 0 → F.toNat = 0 := fun h0 => by
    rw [hFnat, h0, Nat.zero_mul, Nat.zero_mod, Nat.zero_div, ite_self]
  rw [hout]
  by_cases hnormal : z.toNat < f.toNat + if 2 ^ 27 ≤ T.toNat then 1 else 0
  · obtain ⟨hx1, hx255⟩ : 1 ≤ x.toNat ∧ x.toNat ≤ 255 := by
      have hx' := (hs.normal hnormal).2.2
      have hc : (if 2 ^ 27 ≤ T.toNat then 1 else 0) ≤ 1 := by split <;> omega
      generalize (if 2 ^ 27 ≤ T.toNat then 1 else 0) = c at hc hx' hnormal
      omega
    by_cases h0 : T.toNat = 0
    · -- nothing is left
      have hF0 := hempty h0
      have hz27 := hlead.zero.mpr h0
      have hx' := (hs.normal hnormal).2.2
      rw [if_neg (by omega)] at hx'
      have hup := Bool.toNat_le (up T F)
      obtain ⟨w, hw, hmsb, hnat⟩ := sOutputO_some ha hb hT hsign hmode hz hlead hF (by omega) hx hx1 hx255
        (if_pos (by omega)).symm rfl (if_neg (by omega)).symm (if_neg (by omega)).symm
      have ht := (h.exact (.inl (by omega))).1
      refine ⟨w, 0, hw, hmsb, ?_, ?_⟩
      · have hzero : t * (2 ^ (e - 1) / 2 ^ 152) = single ℚ 0 := by
          rw [ht, h0, single, mag_zero]
          simp
        rw [hzero]
        exact .self (single_strictMono ℚ) 0
      · rw [hnat, if_neg (by omega), if_pos h0, Nat.zero_min]
    · obtain ⟨hF26, hF27, hround⟩ := rounds_normal h h0 he hf0 hlead hs hnormal hFnat
      obtain ⟨w, hw, hmsb, hnat⟩ := sOutputO_some ha hb hT hsign hmode hz hlead hF hF27 hx hx1 hx255
        (if_neg (by omega)).symm rfl rfl rfl
      have hup := Bool.toNat_le (up T F)
      rw [if_neg h0] at hnat
      refine ⟨w, _, hw, hmsb, hround, hnat.trans ?_⟩
      refine (code_carry (E := x.toNat) hx1 (by omega) (by omega) (by omega) (fun hc => ?_) fun hc => ?_).2
      · exact ⟨if_pos hc, if_pos hc⟩
      · exact ⟨if_neg hc, if_neg hc⟩
  · obtain ⟨hF27, hup, hround⟩ := rounds_denormal h he hlead hs (by omega) hFnat
    have hx' := (hs.denormal (by omega)).2.2
    have hy : (if F.toNat < 2 ^ 26 then x.toNat - 1 else x.toNat) = F.toNat / 2 ^ 26 := by
      split <;> omega
    obtain ⟨w, hw, hmsb, hnat⟩ := sOutputO_some ha hb hT hsign hmode hz hlead hF hF27 hx (by omega) (by omega) hy.symm
      (by rw [hup, Bool.toNat_false, Nat.add_zero]) (if_neg (by omega)).symm (if_neg (by omega)).symm
    refine ⟨w, F.toNat / 8, hw, hmsb, hround, ?_⟩
    rw [hnat, if_neg (by omega)]
    unfold infCode
    by_cases h0 : T.toNat = 0
    · have := hempty h0
      rw [if_pos h0]
      omega
    · rw [if_neg h0]
      omega

/-- The code of an addition or of a subtraction. -/
def opcode (sub : Bool) : BitVec 3 := if sub then 0b001 else 0b000

/-- The sign of a sum; a zero is negative only as the sum of two negative operands. -/
def sumSign (sub : Bool) (a b : BitVec 32) : Bool := combined sub a b < 0 ∨ sub = false ∧ a.msb ∧ b.msb

/-- **The sum behind `addsub_28`**, of any two operands; an exponent of all ones counts as one more. -/
theorem settledSum_some (sub : Bool) (a b : BitVec 32) :
    ∃ T f, (settledSum a b (opcode sub)).fractO = some T ∧ (settledSum a b (opcode sub)).signO = some (sumSign sub a b) ∧
      (settledPre a b).expO = some f ∧ f.toNat = max (PreNormAddsub.field a) (PreNormAddsub.field b) ∧
      Summed (target sub a b (max (expo a) (expo b))) T.toNat (max (expo a) (expo b)) ∧
      (f.toNat = 0 → T.toNat < 2 ^ 27) := by
  obtain ⟨A, B, f, hA, hB, hf, hfnat, hAnat, hBnat⟩ := settledPre_some a b
  have hAlt : A.toNat < 2 ^ 27 := by
    rw [hAnat]
    exact jam_lt (k := 0) (n := 26) (Nat.zero_le _) (by have := significand_lt a; omega)
  have hBlt : B.toNat < 2 ^ 27 := by
    rw [hBnat]
    exact jam_lt (k := 0) (n := 26) (Nat.zero_le _) (by have := significand_lt b; omega)
  have hin : addsubIn a b (opcode sub) = ⟨some sub, some A, some B, some a.msb, some b.msb⟩ := by
    rw [addsubIn, hA, hB, BitVec.msb_eq_getLsbD_last, BitVec.msb_eq_getLsbD_last]
    cases sub <;> rfl
  have hsettled : settledSum a b (opcode sub) =
      Addsub28.step ⟨some sub, some A, some B, some a.msb, some b.msb⟩ .powerUp := by
    rw [← hin]
    rfl
  obtain ⟨T, hT, hTnat, hsign⟩ := Addsub28.step_some hAlt hBlt a.msb b.msb sub .powerUp
  obtain ⟨e, he⟩ : ∃ e, e = max (expo a) (expo b) := ⟨_, rfl⟩
  rw [← he] at hAnat hBnat
  have hali := aligned_operands he hAnat hBnat
  have hsum : Summed (target sub a b e) T.toNat e := by
    rw [hTnat]
    unfold target addop
    cases a.msb ^^ b.msb ^^ sub with
    | true => exact hali.sub
    | false => exact hali.add
  have hae := PreNormAddsub.expo_eq a
  have hbe := PreNormAddsub.expo_eq b
  have hsmall : f.toNat = 0 → T.toNat < 2 ^ 27 := fun h0 => by
    have hdenormal : ∀ x, PreNormAddsub.field x = 0 → significand x < 2 ^ 23 := fun x hx => by
      rw [PreNormAddsub.significand_eq, if_pos hx]
      omega
    have hsa := hdenormal a (by omega)
    have hsb := hdenormal b (by omega)
    rw [show e - expo a = 0 by omega, jam_zero] at hAnat
    rw [show e - expo b = 0 by omega, jam_zero] at hBnat
    rw [hTnat]
    split <;> omega
  refine ⟨T, f, by rw [hsettled]; exact hT, ?_, hf, hfnat, by rw [← he]; exact hsum, hsmall⟩
  rw [hsettled, hsign, hTnat, sumSign, ← sign_combined (by omega) (by omega) hali]
  rfl

/-- **The adder rounds the exact sum to the nearest even.** -/
theorem addSub_rounded (ha : Half.Finite a) (hb : Half.Finite b) :
    Delivers (combined sub a b) (sumSign sub a b) (addSub a b (opcode sub)) := by
  obtain ⟨T, f, hT, hsign, hf, hfnat, hsum, hsmall⟩ := settledSum_some sub a b
  have hae := PreNormAddsub.expo_eq a
  have hbe := PreNormAddsub.expo_eq b
  have hfield : ∀ x, Half.Finite x → PreNormAddsub.field x < 255 := fun x hx => by
    have hlt : PreNormAddsub.field x < 256 := Nat.mod_lt _ (by decide)
    have hne : PreNormAddsub.field x ≠ 255 := hx
    omega
  have hfa := hfield a ha
  have hfb := hfield b hb
  obtain ⟨w, n, hw, hmsb, hround, hnat⟩ := post_rounded (i := postIn a b (opcode sub)) (isInf_of_finite ha)
    (isInf_of_finite hb) hT hf hsign rfl hsum (by omega) (by omega) hsmall
  rw [← @abs_combined a b sub (max (expo a) (expo b)) (by omega) (by omega)] at hround
  exact ⟨w, hw, hmsb, n, hround, hnat⟩

/-- The adder needs no start: the core shows what it gives. -/
theorem addSub_shown {i : Nat → Ports} {s : Nat → Core} (hs : IsRun i s)
    (hi : After 0 fun n => (i n).Hold a b (opcode sub)) : After 9 fun n => (s n).outputO = addSub a b (opcode sub) := by
  refine output_of_unit hs hi (P := (· = addSub a b (opcode sub))) (t := 7) (by omega) fun n hn => ?_
  have hmux : output1 (i n) (s n) = (s n).postNormAddsub.outputO := by
    rw [output1, (hi n (by omega)).fpuOp]
    cases sub <;> rfl
  show output1 (i n) (s n) = _
  rw [hmux, addSub_settles hs hi n (by omega)]

end

end Core

end FpgaQuat.Fpu
