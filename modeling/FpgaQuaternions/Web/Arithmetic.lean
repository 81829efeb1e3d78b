import FpgaQuaternions.Fpu.Special
import FpgaQuaternions.Web.Result

/-!
# What the bus shows without a start

The core that `web_interface` instantiates is never started.  The adder needs no start, so address
11 shows the rounded sum or difference of the operands last written (`reads_sum`).  Of the other
operations it shows the results that need no start either: an operand is infinite or not a number, or
a quotient has a zero in it (`reads_special`).
-/

namespace FpgaQuat.Web

open Fpu

namespace Interface

/-- **Address 11 shows the exact sum, rounded to the nearest even.**  The operands and the code of
an addition or a subtraction are written in any order after anything else, and kept for 40 edges. -/
theorem reads_sum {t t' : List Instant} {a b oper : BitVec 32} {p : Pins} {sub : Bool} (h0 : lastWrite 0 t = some a)
    (h1 : lastWrite 1 t = some b) (h2 : lastWrite 2 t = some oper) (hop : oper.extractLsb 2 0 = Core.opcode sub)
    (ha : Half.Finite a) (hb : Half.Finite b)
    (hkept : ∀ n, Regs.powerUp.run (t ++ t'.take n) = Regs.powerUp.run t)
    (hedges : 40 ≤ t'.countP (·.clockEdge)) (hcs : p.cs = true) (hrst : p.rst = true) (hread : p.readEn = true)
    (hadd : p.add = 0b1011) :
    Core.Delivers (combined sub a b) (Core.sumSign sub a b) ((powerUp.run (t ++ t')).read p) := by
  have hshown := read_result (regs_of_writes h0 h1 h2) hkept hedges hcs hrst hread hadd
  rw [hop] at hshown
  have hsum : Core.unstarted a b (Core.opcode sub) = Core.addSub a b (Core.opcode sub) := by
    cases sub <;> rfl
  rw [hshown, hsum]
  exact Core.addSub_rounded ha hb

/-- One less two. -/
theorem reads_difference :
    Core.Delivers (combined true 0x3F800000 0x40000000) (Core.sumSign true 0x3F800000 0x40000000)
      ((powerUp.run (load 0x3F800000 0x40000000 1 ++ hold)).read readResult) :=
  @reads_sum _ _ _ _ _ _ true rfl rfl rfl rfl (by unfold Half.Finite; decide) (by unfold Half.Finite; decide)
    (load_hold_kept _ _ _) (by decide) rfl rfl rfl rfl

end Interface

end FpgaQuat.Web
