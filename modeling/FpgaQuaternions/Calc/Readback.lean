import FpgaQuaternions.Calc.Transfer

/-!
# Reading the accumulator back

The read multiplexer selects the accumulator only while the control register holds
READ, but that register is cleared as soon as no control write is on the bus, so a
read transfer, which is not a write, always sees all ones (`sample_of_not_write`).
It returns the accumulator exactly when that is all ones (`readback_iff`).
-/

namespace FpgaQuat.Calc

open FixedPoint

/-- Without a control write the bus shows all ones. -/
theorem sample_of_not_write (s : State) (p : Pins) (h : p.writeEn = false) :
    s.sampleReaddataint p = 0xffffffff#32 := by
  have h0 : (s.regs.settle p).r32O0 = 0 := by
    unfold Regs.settle
    rw [(writeEnable_of_not_writeEn p h).1]
    cases p.reset <;> rfl
  rw [sampleReaddataint_eq, h0]
  rfl

/-- A run that ends by reading the result: any trace, a cycle without a write, a READ command
strobed for `edges` edges, any cycles without a write, and a read transfer of two cycles. -/
structure Readback where
  before : List Pins
  separator : Pins
  separator_idle : separator.writeEn = false
  word : BitVec 32
  word_read : Command.ofBits word = .read
  edges : Nat
  edges_pos : 0 < edges
  gap : List Pins
  gap_idle : ∀ p ∈ gap, p.writeEn = false
  wait : Pins
  last : Pins
  wait_read : wait.chipselect = true ∧ wait.readEn = true ∧ wait.writeEn = false
  last_read : last.chipselect = true ∧ last.readEn = true ∧ last.writeEn = false

namespace Readback

/-- The pins while the READ command is on the bus. -/
def strobe (r : Readback) : Pins := (Transfer.ofBus 0 r.word r.edges r.edges_pos).strobe

/-- The state in which the READ command is written. -/
def atCommand (r : Readback) : State := State.afterReset.run (r.before ++ [r.separator])

/-- The accumulator when the READ command is written. -/
def held (r : Readback) : Word := r.atCommand.regs.r32O2

/-- The word on the bus at the end of the read transfer. -/
def returned (r : Readback) : BitVec 32 :=
  (r.atCommand.run (List.replicate r.edges r.strobe ++ r.gap ++ [r.wait])).sampleReaddataint r.last

/-- **What a read returns.**  The read transfer after a READ command returns the accumulator
held when the command was written exactly if that is all ones. -/
theorem readback_iff (r : Readback) : r.returned = r.held.toBits ↔ r.held = Word.ones := by
  unfold returned
  rw [sample_of_not_write _ _ r.last_read.2.2]
  constructor
  · intro h
    exact (Sfixed.ext h).symm
  · intro h
    rw [h]
    rfl

/-- After a reset, READ and a read transfer: all ones, and not the zero held. -/
theorem zero_not_read_back :
    let read : Pins := ⟨false, true, 0, false, true, 0⟩
    let r : Readback := ⟨[], Transfer.idlePins, rfl, 2, rfl, 1, by decide, [], by simp, read, read,
      ⟨rfl, rfl, rfl⟩, ⟨rfl, rfl, rfl⟩⟩
    r.returned ≠ r.held.toBits := by
  decide

end Readback

end FpgaQuat.Calc
