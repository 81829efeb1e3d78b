import FpgaQuaternions.Calc.Design

/-!
# calc at clock level

The synthesised reading: every signal of the process is always equal to its
right-hand side on the current values (`wires`), `writedata_2` being a latch.
Input pins are constant between rising edges, so one clock cycle is: the pins
settle (asynchronous clears act), then the clock rises (`State.cycle`).

Above it, the register transfers that remain when the wires are eliminated:
`Regs.settle` and `Regs.clock`, with the control word read as a `Command`.

    (s.cycle p).regs = s.regs.cycle p                                   (cycle_regs)
    the control register is cleared by a cycle without a control write  (cycle_of_not_write0)
-/

namespace FpgaQuat.Calc

open FixedPoint

/-! ## The signals of the process, always up to date -/

/-- The value of every signal of the process, `writedata_2` being `last` where it is held. -/
def wires (p : Pins) (q : Regs) (last : Word) : Signals where
  writedata := Word.ofBits p.writedataint
  writeEnableReg0 := writeEnableReg0 p
  writeEnableReg1 := writeEnableReg1 p
  writeEnableReg2 := q.r32O0.get (-30)
  writedata2 := writedata2 q.r32O0 q.r32O1 (mult q.r32O1 q.r32O2) last
  mult := mult q.r32O1 q.r32O2
  readdata := readdata q.r32O0 q.r32O2
  readdataint := (readdata q.r32O0 q.r32O2).toBits

/-- A held `writedata_2` is held again. -/
theorem writedata2_idem (r0 r1 : Word) (m m' : Sfixed 1 (-62)) (old : Word) :
    writedata2 r0 r1 m (writedata2 r0 r1 m' old) = writedata2 r0 r1 m old := by
  unfold writedata2
  split
  · rfl
  · split <;> rfl

/-- `wires` satisfies every assignment of the process. -/
theorem process_wires (p : Pins) (q : Regs) (last : Word) :
    process p q (wires p q last) = wires p q last := by
  simp only [process, wires, writedataLoop_eq, readdataintLoop_eq, writedata2_idem]

/-! ## Clock cycles -/

/-- What the synthesised circuit stores: the registers and the latch `writedata_2`. -/
structure State where
  regs : Regs
  writedata2 : Word
deriving DecidableEq, Repr

def State.wires (s : State) (p : Pins) : Signals := Calc.wires p s.regs s.writedata2

/-- The registers react, to a clock edge or to the pins alone, and the wires follow. -/
def State.update (clockEdge : Bool) (p : Pins) (s : State) : State :=
  let q := registers p clockEdge (s.wires p) s.regs
  ⟨q, (Calc.wires p q (s.wires p).writedata2).writedata2⟩

/-- One clock cycle: the pins settle, then the clock rises. -/
def State.cycle (s : State) (p : Pins) : State := (s.update false p).update true p

/-- Clock cycles with the given pins, one value of the pins each. -/
def State.run (s : State) (ps : List Pins) : State := ps.foldl State.cycle s

/-- The word on the bus just before the rising edge that ends a cycle. -/
def State.sampleReaddataint (s : State) (p : Pins) : BitVec 32 :=
  ((s.update false p).wires p).readdataint

/-- The state a reset leaves. -/
def State.afterReset : State := ⟨⟨0, 0, 0⟩, 0⟩

/-! ## Commands -/

/-- The low bits of the control register: `Load -> 11, Mult -> 01, Read -> 10`. -/
inductive Command where
  | nop
  | mult
  | read
  | load
deriving DecidableEq, Repr

/-- The command in a bus word. -/
def Command.ofBits (x : BitVec 32) : Command :=
  match x.getLsbD 1, x.getLsbD 0 with
  | false, false => .nop
  | false, true => .mult
  | true, false => .read
  | true, true => .load

/-- The slice `mult(1 downto -30)` of the product. -/
def productSlice (r32O1 r32O2 : Word) : Word := (mult r32O1 r32O2).slice 1 (-30)

/-- What a command puts in the accumulator at the clock edge. -/
def Command.exec (c : Command) (operand accumulator : Word) : Word :=
  match c with
  | .load => operand
  | .mult => productSlice operand accumulator
  | .nop | .read => accumulator

/-- The command the control register holds. -/
def Regs.command (q : Regs) : Command := Command.ofBits q.r32O0.toBits

@[simp] theorem Word.toBits_ofBits (x : BitVec 32) : (Word.ofBits x).toBits = x := rfl

theorem command_bits (q : Regs) :
    q.r32O0.get (-29) = q.r32O0.toBits.getLsbD 1 ∧ q.r32O0.get (-30) = q.r32O0.toBits.getLsbD 0 :=
  ⟨(Word.getLsbD_toBits q.r32O0 1).symm, (Word.getLsbD_toBits q.r32O0 0).symm⟩

/-- The two branches of `writedata_2` behind the enable of the accumulator are the command. -/
theorem writedata2_exec (q : Regs) (old : Word) :
    (if q.r32O0.get (-30) then writedata2 q.r32O0 q.r32O1 (mult q.r32O1 q.r32O2) old else q.r32O2) =
      q.command.exec q.r32O1 q.r32O2 := by
  obtain ⟨h1, h0⟩ := command_bits q
  simp only [Regs.command, Command.ofBits, writedata2, h1, h0]
  cases q.r32O0.toBits.getLsbD 1 <;> cases q.r32O0.toBits.getLsbD 0 <;>
    simp [Command.exec, productSlice]

/-! ## Register transfers -/

/-- The asynchronous clears. -/
def Regs.settle (q : Regs) (p : Pins) : Regs :=
  if p.reset then ⟨0, 0, 0⟩
  else if writeEnableReg0 p then q
  else { q with r32O0 := 0 }

/-- A rising edge, the wires being up to date. -/
def Regs.clock (q : Regs) (p : Pins) : Regs :=
  if p.reset then ⟨0, 0, 0⟩
  else
    { r32O0 := if writeEnableReg0 p then Word.ofBits p.writedataint else 0
      r32O1 := if writeEnableReg1 p then Word.ofBits p.writedataint else q.r32O1
      r32O2 := q.command.exec q.r32O1 q.r32O2 }

def Regs.cycle (q : Regs) (p : Pins) : Regs := (q.settle p).clock p

theorem update_false_regs (s : State) (p : Pins) : (s.update false p).regs = s.regs.settle p := by
  simp only [State.update, State.wires, wires, registers, Regs.settle, reg32Clr_hold, reg32Float_hold]
  cases hr : p.reset
  · cases h0 : writeEnableReg0 p <;> rfl
  · rfl

theorem update_true_regs (s : State) (p : Pins) : (s.update true p).regs = s.regs.clock p := by
  simp only [State.update, State.wires, wires, registers, Regs.clock, reg32Clr_edge, reg32Float_edge,
    ← writedata2_exec s.regs s.writedata2]
  cases hr : p.reset
  · cases h0 : writeEnableReg0 p <;> rfl
  · rfl

/-- **A clock cycle on the registers**: the latch and the wires are gone. -/
theorem cycle_regs (s : State) (p : Pins) : (s.cycle p).regs = s.regs.cycle p := by
  rw [State.cycle, update_true_regs, update_false_regs, Regs.cycle]

theorem run_regs (s : State) (ps : List Pins) : (s.run ps).regs = ps.foldl Regs.cycle s.regs := by
  induction ps generalizing s with
  | nil => rfl
  | cons p ps ih => rw [State.run, List.foldl_cons, List.foldl_cons, ← cycle_regs]; exact ih _

theorem run_append (s : State) (ps qs : List Pins) : s.run (ps ++ qs) = (s.run ps).run qs :=
  List.foldl_append

theorem sampleReaddataint_eq (s : State) (p : Pins) : s.sampleReaddataint p =
    (readdata (s.regs.settle p).r32O0 (s.regs.settle p).r32O2).toBits := by
  rw [← update_false_regs]
  rfl

/-! ## What one cycle can do -/

/-- The decoded register select of the control register. -/
theorem writeEnableReg0_eq (p : Pins) :
    writeEnableReg0 p = (p.writeEn && p.chipselect && decide (p.regselect = 0#2)) := by
  have h : ∀ x : BitVec 2, (!x.getLsbD 1 && !x.getLsbD 0) = decide (x = 0#2) := by decide
  rw [← h, writeEnableReg0, Bool.and_assoc]

/-- The decoded register select of the operand register. -/
theorem writeEnableReg1_eq (p : Pins) :
    writeEnableReg1 p = (p.writeEn && p.chipselect && decide (p.regselect = 1#2)) := by
  have h : ∀ x : BitVec 2, (!x.getLsbD 1 && x.getLsbD 0) = decide (x = 1#2) := by decide
  rw [← h, writeEnableReg1, Bool.and_assoc]

/-- The two write enables are never high together. -/
theorem writeEnable_exclusive (p : Pins) (h : writeEnableReg0 p = true) : writeEnableReg1 p = false := by
  rw [writeEnableReg0_eq] at h
  have hs : p.regselect = 0#2 := by simpa using (Bool.and_eq_true_iff.mp h).2
  simp [writeEnableReg1_eq, hs]

theorem writeEnable_of_not_writeEn (p : Pins) (h : p.writeEn = false) :
    writeEnableReg0 p = false ∧ writeEnableReg1 p = false := by
  simp [writeEnableReg0_eq, writeEnableReg1_eq, h]

@[simp] theorem command_zero (q : Regs) (h : q.r32O0 = 0) : q.command = .nop := by
  rw [Regs.command, h]; rfl

theorem cycle_of_reset (q : Regs) (p : Pins) (h : p.reset = true) : q.cycle p = ⟨0, 0, 0⟩ := by
  simp [Regs.cycle, Regs.clock, h]

/-- A control write: the command already held is executed, and the word is taken. -/
theorem cycle_of_write0 (q : Regs) (p : Pins) (hr : p.reset = false) (h : writeEnableReg0 p = true) :
    q.cycle p = ⟨Word.ofBits p.writedataint, q.r32O1, q.command.exec q.r32O1 q.r32O2⟩ := by
  simp [Regs.cycle, Regs.clock, Regs.settle, hr, h, writeEnable_exclusive p h]

/-- Without a control write the control register is clear and nothing is executed. -/
theorem cycle_of_not_write0 (q : Regs) (p : Pins) (hr : p.reset = false)
    (h : writeEnableReg0 p = false) :
    q.cycle p = ⟨0, if writeEnableReg1 p then Word.ofBits p.writedataint else q.r32O1, q.r32O2⟩ := by
  simp [Regs.cycle, Regs.clock, Regs.settle, hr, h, Command.exec]

end FpgaQuat.Calc
