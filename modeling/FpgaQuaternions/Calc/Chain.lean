import FpgaQuaternions.Calc.Transfer

/-!
# Chains of multiplications

A chain writes an operand and executes LOAD, then writes an operand and executes
MULT, any number of times, each command strobed for the two edges that execute it
once.  In the declared format (a word `w` stands for `w / 2 ^ 30`) the product of
the operands, rounded down at each step, is `exactChain`; the accumulator holds
`acc * v / 2 ^ 32` after each step (`accAfter_concat`), a quarter of it.

    acc is exact after every step  ↔  every exact product is in [-2 ^ 30, 2 ^ 30)
                                                                    (chain_exact_iff)
-/

namespace FpgaQuat.Calc

open FixedPoint

/-- An operand written to register 1 and a command `c` executed once. -/
structure Factor (c : Command) where
  write : Transfer
  write_reg : write.regselect = 1#2
  command : Transfer
  command_reg : command.regselect = 0#2
  command_bits : Command.ofBits command.data = c
  command_edges : command.edges = 2

namespace Factor

variable {c : Command}

/-- The operand, a signed word. -/
def operand (f : Factor c) : Int := f.write.data.toInt

def transfers (f : Factor c) : List Transfer := [f.write, f.command]

/-- A factor with its transfers one after the other on the bus. -/
def ofBus (c : Command) (v word : BitVec 32) (h : Command.ofBits word = c) : Factor c where
  write := Transfer.ofBus 1 v 1 (by decide)
  write_reg := rfl
  command := Transfer.ofBus 0 word 2 (by decide)
  command_reg := rfl
  command_bits := h
  command_edges := rfl

end Factor

/-- The accumulator after a LOAD and the given MULTs, from a reset. -/
def accAfter (load : Factor .load) (mults : List (Factor .mult)) : Int :=
  (pairAfter (load.transfers ++ mults.flatMap Factor.transfers)).accumulator.toInt

/-- The product in the declared format, rounded down at every step. -/
def exactChain (v : Int) (vs : List Int) : Int := vs.foldl (fun a v => a * v / 2 ^ 30) v

theorem exactChain_concat (v : Int) (vs : List Int) (w : Int) :
    exactChain v (vs ++ [w]) = exactChain v vs * w / 2 ^ 30 := by
  rw [exactChain, List.foldl_append]; rfl

/-! ## The steps of a chain -/

theorem pairAfter_factor {c : Command} (ts : List Transfer) (f : Factor c) :
    pairAfter (ts ++ f.transfers) =
      ⟨Word.ofBits f.write.data, c.exec (Word.ofBits f.write.data) (pairAfter ts).accumulator⟩ := by
  rw [Factor.transfers, ← List.singleton_append, ← List.append_assoc, pairAfter_concat,
    pairAfter_concat]
  simp [Pair.applyTimes, f.write_reg, f.command_reg, f.command_bits, f.command_edges]

theorem accAfter_nil (load : Factor .load) : accAfter load [] = load.operand := by
  have h := pairAfter_factor [] load
  rw [List.nil_append] at h
  rw [accAfter, List.flatMap_nil, List.append_nil, h]
  rfl

/-- **A step of a chain divides by `2 ^ 32`.** -/
theorem accAfter_concat (load : Factor .load) (ms : List (Factor .mult)) (m : Factor .mult) :
    accAfter load (ms ++ [m]) = m.operand * accAfter load ms / 2 ^ 32 := by
  have h := pairAfter_factor (load.transfers ++ ms.flatMap Factor.transfers) m
  rw [accAfter, List.flatMap_append, List.flatMap_singleton, ← List.append_assoc, h]
  exact toInt_productSlice (Word.ofBits m.write.data) _

/-- Where a step starts from the exact value, it ends in it only if that is 0 or -1. -/
theorem step_exact_iff (a v : Int) :
    v * a / 2 ^ 32 = a * v / 2 ^ 30 ↔ -2 ^ 30 ≤ a * v ∧ a * v < 2 ^ 30 := by
  rw [mul_comm v a]
  omega

/-- **Exact chains.**  The accumulator is the product of the operands, rounded down to the
declared format, after every step of a chain exactly if no step has a product of `2 ^ 30`
or more, or less than `-2 ^ 30`: if every product rounds to 0 or to -1. -/
theorem chain_exact_iff (load : Factor .load) (mults : List (Factor .mult)) :
    (∀ ms, ms <+: mults →
      accAfter load ms = exactChain load.operand (ms.map Factor.operand)) ↔
    ∀ ms m, ms ++ [m] <+: mults →
      -2 ^ 30 ≤ exactChain load.operand (ms.map Factor.operand) * m.operand ∧
        exactChain load.operand (ms.map Factor.operand) * m.operand < 2 ^ 30 := by
  constructor
  · intro h ms m hm
    have h1 := h ms ((List.prefix_append ms [m]).trans hm)
    have h2 := h (ms ++ [m]) hm
    rw [accAfter_concat, h1, List.map_append, List.map_singleton, exactChain_concat] at h2
    exact (step_exact_iff _ _).mp h2
  · intro h ms
    induction ms using List.reverseRecOn with
    | nil => intro _; exact accAfter_nil load
    | append_singleton ms m ih =>
      intro hm
      rw [accAfter_concat, ih ((List.prefix_append ms [m]).trans hm), List.map_append,
        List.map_singleton, exactChain_concat]
      exact (step_exact_iff _ _).mpr (h ms m hm)

/-- 0.5 loaded and multiplied by 0.5 gives 0.0625. -/
theorem half_times_half :
    accAfter (Factor.ofBus .load 0x20000000 3 rfl) [Factor.ofBus .mult 0x20000000 1 rfl] = 2 ^ 26 ∧
      exactChain (2 ^ 29) [2 ^ 29] = 2 ^ 28 := by
  decide

/-! ## How far off a chain is -/

/-- Between zero and the exact value. -/
def Between (a b : Int) : Prop := (0 ≤ a ∧ 0 ≤ b ∧ b ≤ a) ∨ (a < 0 ∧ a ≤ b ∧ b ≤ 0)

/-- A step keeps the accumulator between zero and a quarter of the exact value. -/
theorem step_between {a b : Int} (v : Int) (h : Between a b) :
    Between (a * v / 2 ^ 30 / 4) (v * b / 2 ^ 32) := by
  have hq : a * v / 2 ^ 30 / 4 = a * v / 2 ^ 32 := by omega
  rw [hq, mul_comm v b]
  have hmul : (0 ≤ a * v ∧ 0 ≤ b * v ∧ b * v ≤ a * v) ∨ (a * v ≤ 0 ∧ a * v ≤ b * v ∧ b * v ≤ 0) := by
    rcases h with ⟨ha, hb, hba⟩ | ⟨ha, hab, hb⟩ <;> rcases le_total 0 v with hv | hv
    · exact Or.inl ⟨by positivity, by positivity, mul_le_mul_of_nonneg_right hba hv⟩
    · exact Or.inr ⟨mul_nonpos_of_nonneg_of_nonpos ha hv, mul_le_mul_of_nonpos_right hba hv,
        mul_nonpos_of_nonneg_of_nonpos hb hv⟩
    · exact Or.inr ⟨mul_nonpos_of_nonpos_of_nonneg ha.le hv, mul_le_mul_of_nonneg_right hab hv,
        mul_nonpos_of_nonpos_of_nonneg hb hv⟩
    · exact Or.inl ⟨mul_nonneg_of_nonpos_of_nonpos ha.le hv, mul_nonneg_of_nonpos_of_nonpos hb hv,
        mul_le_mul_of_nonpos_right hab hv⟩
  unfold Between
  omega

theorem between_quarter {a b : Int} (h : Between (a / 4) b) : Between a b ∧ (a = b → a = 0 ∨ a = -1) := by
  unfold Between at *
  omega

theorem acc_between (load : Factor .load) (ms : List (Factor .mult)) :
    Between (exactChain load.operand (ms.map Factor.operand)) (accAfter load ms) := by
  induction ms using List.reverseRecOn with
  | nil => rw [accAfter_nil]; unfold Between exactChain; simp only [List.map_nil, List.foldl_nil]; omega
  | append_singleton ms m ih =>
    rw [accAfter_concat, List.map_append, List.map_singleton, exactChain_concat]
    exact (between_quarter (step_between m.operand ih)).1

/-- After a multiplication the accumulator is never exact on a product other than 0 and -1. -/
theorem exact_product_small (load : Factor .load) (ms : List (Factor .mult)) (m : Factor .mult)
    (h : accAfter load (ms ++ [m]) = exactChain load.operand ((ms ++ [m]).map Factor.operand)) :
    accAfter load (ms ++ [m]) = 0 ∨ accAfter load (ms ++ [m]) = -1 := by
  rw [h]
  rw [accAfter_concat, List.map_append, List.map_singleton, exactChain_concat] at *
  exact (between_quarter (step_between m.operand (acc_between load ms))).2 h.symm

end FpgaQuat.Calc
