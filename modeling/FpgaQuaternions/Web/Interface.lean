import FpgaQuaternions.Lib.StdLogic

/-!
# The registers of web_interface

Three registers `reg_32` behind an address decoder: operands at the addresses 0 and 1,
the operation code at 2; 8 to 10 read them back and 11 reads the result of the FPU.

A trace is a list of instants.  At an instant the pins have settled and the clock may
rise; the reset is asynchronous and acts at any of them.

    register = word last written since the last reset, or zero          (run_get)
    reading it back shows that word; nothing else touches it         (reads_back)
-/

namespace FpgaQuat.Web

open StdLogic

structure Pins where
  rst : Bool
  cs : Bool
  readEn : Bool
  writeEn : Bool
  add : BitVec 4
  writedata : BitVec 32
deriving DecidableEq, Repr

structure Instant where
  /-- `CLK'event and CLK = '1'`. -/
  clockEdge : Bool
  pins : Pins
deriving DecidableEq, Repr

/-! ## The design -/

/-- The process of `reg_32`. -/
def reg32 (clockEdge rst writeEn : Bool) (dataIn dataOut : Vec 32) : Vec 32 :=
  if rst = false then some 0
  else if clockEdge then
    if writeEn then dataIn else dataOut
  else dataOut

def writeEnVal1 (p : Pins) : Bool :=
  p.cs && !p.add.getLsbD 3 && !p.add.getLsbD 2 && !p.add.getLsbD 1 && !p.add.getLsbD 0 && p.writeEn

def writeEnVal2 (p : Pins) : Bool :=
  p.cs && !p.add.getLsbD 3 && !p.add.getLsbD 2 && !p.add.getLsbD 1 && p.add.getLsbD 0 && p.writeEn

def writeEnOper (p : Pins) : Bool :=
  p.cs && !p.add.getLsbD 3 && !p.add.getLsbD 2 && p.add.getLsbD 1 && !p.add.getLsbD 0 && p.writeEn

structure Regs where
  value1 : Vec 32
  value2 : Vec 32
  operation : Vec 32
deriving DecidableEq, Repr

/-- `VAL1`, `VAL2` and `OPER` at an instant. -/
def Regs.step (q : Regs) (x : Instant) : Regs where
  value1 := reg32 x.clockEdge x.pins.rst (writeEnVal1 x.pins) (some x.pins.writedata) q.value1
  value2 := reg32 x.clockEdge x.pins.rst (writeEnVal2 x.pins) (some x.pins.writedata) q.value2
  operation := reg32 x.clockEdge x.pins.rst (writeEnOper x.pins) (some x.pins.writedata) q.operation

/-- `READDATA`. -/
def readdata (p : Pins) (q : Regs) (result : Vec 32) : Vec 32 :=
  if p.cs = false then some 0
  else if p.rst = false then some 0
  else if p.readEn = false then some 0
  else if p.add = 0b1000 then q.value1
  else if p.add = 0b1001 then q.value2
  else if p.add = 0b1010 then q.operation
  else if p.add = 0b1011 then result
  else some 0

/-- Nothing has been assigned yet. -/
def Regs.powerUp : Regs := ⟨none, none, none⟩

def Regs.run (q : Regs) (t : List Instant) : Regs := t.foldl Regs.step q

/-! ## One register -/

/-- The registers by the address that writes them. -/
def Regs.get (q : Regs) : Fin 3 → Vec 32
  | 0 => q.value1
  | 1 => q.value2
  | 2 => q.operation

/-- A rising edge that writes register `i`. -/
def Writes (i : Fin 3) (x : Instant) : Prop :=
  x.clockEdge = true ∧ x.pins.cs = true ∧ x.pins.writeEn = true ∧ x.pins.add = BitVec.ofNat 4 i

instance (i : Fin 3) : DecidablePred (Writes i) := fun _ => inferInstanceAs (Decidable (_ ∧ _))

/-- The three bit products decode the address. -/
theorem writeEn_decode (p : Pins) :
    writeEnVal1 p = (p.cs && p.writeEn && decide (p.add = 0)) ∧
    writeEnVal2 p = (p.cs && p.writeEn && decide (p.add = 1)) ∧
    writeEnOper p = (p.cs && p.writeEn && decide (p.add = 2)) := by
  obtain ⟨rst, cs, readEn, writeEn, add, writedata⟩ := p
  have h : ∀ (cs writeEn : Bool) (a : BitVec 4),
      (cs && !a.getLsbD 3 && !a.getLsbD 2 && !a.getLsbD 1 && !a.getLsbD 0 && writeEn) =
        (cs && writeEn && decide (a = 0)) ∧
      (cs && !a.getLsbD 3 && !a.getLsbD 2 && !a.getLsbD 1 && a.getLsbD 0 && writeEn) =
        (cs && writeEn && decide (a = 1)) ∧
      (cs && !a.getLsbD 3 && !a.getLsbD 2 && a.getLsbD 1 && !a.getLsbD 0 && writeEn) =
        (cs && writeEn && decide (a = 2)) := by decide
  exact h cs writeEn add

theorem reg32_eq (clockEdge rst writeEn : Bool) (dataIn dataOut : Vec 32) :
    reg32 clockEdge rst writeEn dataIn dataOut =
      if rst = false then some 0 else if clockEdge = true ∧ writeEn = true then dataIn else dataOut := by
  cases clockEdge <;> cases writeEn <;> rfl

/-- **What an instant can do to a register**: clear it, write it, or nothing. -/
theorem step_get (q : Regs) (x : Instant) (i : Fin 3) :
    (q.step x).get i =
      if x.pins.rst = false then some 0
      else if Writes i x then some x.pins.writedata else q.get i := by
  obtain ⟨h1, h2, h3⟩ := writeEn_decode x.pins
  have w1 : (x.clockEdge = true ∧ writeEnVal1 x.pins = true) ↔ Writes 0 x := by
    simp [h1, Writes, and_assoc]
  have w2 : (x.clockEdge = true ∧ writeEnVal2 x.pins = true) ↔ Writes 1 x := by
    simp [h2, Writes, and_assoc]
  have w3 : (x.clockEdge = true ∧ writeEnOper x.pins = true) ↔ Writes 2 x := by
    simp [h3, Writes, and_assoc]
  match i with
  | 0 => simp only [Regs.step, Regs.get, reg32_eq, w1]
  | 1 => simp only [Regs.step, Regs.get, reg32_eq, w2]
  | 2 => simp only [Regs.step, Regs.get, reg32_eq, w3]

theorem get_ext {q q' : Regs} (h : ∀ i, q.get i = q'.get i) : q = q' := by
  obtain ⟨a, b, c⟩ := q
  obtain ⟨a', b', c'⟩ := q'
  obtain rfl : a = a' := h 0
  obtain rfl : b = b' := h 1
  obtain rfl : c = c' := h 2
  rfl

/-! ## What a register has been told -/

/-- The word that the last write since the last reset gave register `i`. -/
def lastWrite (i : Fin 3) (t : List Instant) : Option (BitVec 32) :=
  (((t.rtakeWhile (·.pins.rst)).filter (Writes i ·)).map (·.pins.writedata)).getLast?

def WasReset (t : List Instant) : Prop := ∃ x ∈ t, x.pins.rst = false

instance : DecidablePred WasReset := fun t => inferInstanceAs (Decidable (∃ x ∈ t, x.pins.rst = false))

theorem lastWrite_concat (i : Fin 3) (t : List Instant) (x : Instant) :
    lastWrite i (t ++ [x]) =
      if x.pins.rst = false then none
      else if Writes i x then some x.pins.writedata else lastWrite i t := by
  unfold lastWrite
  by_cases hr : x.pins.rst = false
  · rw [List.rtakeWhile_concat_neg _ _ _ (by simp [hr]), if_pos hr]
    rfl
  · rw [List.rtakeWhile_concat_pos _ _ _ (by simpa using hr), if_neg hr, List.filter_append]
    by_cases hw : Writes i x
    · simp [hw]
    · simp [hw]

/-- **The history of a register**: the last write, else zero once there has been a reset, else
nothing. -/
theorem run_get (t : List Instant) (i : Fin 3) : (Regs.powerUp.run t).get i =
    (lastWrite i t).or (if WasReset t then some 0 else none) := by
  induction t using List.reverseRecOn with
  | nil => match i with | 0 | 1 | 2 => rfl
  | append_singleton t x ih =>
    have hrun : Regs.powerUp.run (t ++ [x]) = (Regs.powerUp.run t).step x := List.foldl_concat ..
    rw [hrun, step_get, lastWrite_concat, ih]
    by_cases hr : x.pins.rst = false
    · have hreset : WasReset (t ++ [x]) := ⟨x, by simp, hr⟩
      simp [hr, hreset]
    · have hreset : WasReset (t ++ [x]) ↔ WasReset t := by simp [WasReset, hr]
      by_cases hw : Writes i x <;> simp [hr, hw, hreset]

/-- The window of addresses 8 to 10. -/
theorem readdata_window (p : Pins) (q : Regs) (result : Vec 32) (i : Fin 3) (hcs : p.cs = true)
    (hrst : p.rst = true) (hread : p.readEn = true) (hadd : p.add = 8 + BitVec.ofNat 4 i) :
    readdata p q result = q.get i := by
  match i with
  | 0 => simp [readdata, hcs, hrst, hread, hadd, Regs.get]
  | 1 => simp [readdata, hcs, hrst, hread, hadd, Regs.get]
  | 2 => simp [readdata, hcs, hrst, hread, hadd, Regs.get]

theorem not_writes_of_add {i : Fin 3} {x : Instant} (h : x.pins.add ≠ BitVec.ofNat 4 i) : ¬ Writes i x :=
  fun hw => h hw.2.2.2

theorem step_of_not_writes {q : Regs} {x : Instant} (hr : x.pins.rst = true) (h : ∀ i, ¬ Writes i x) :
    q.step x = q := by
  apply get_ext
  intro i
  rw [step_get, if_neg (by simp [hr]), if_neg (h i)]

/-- **The registers read back the last write.**  After any trace with a reset in it, a read of
address `8 + i` shows what register `i` was last given since the last reset, or zero.  A write to
one register leaves the others alone, accesses to the addresses 3 to 15 leave all of them alone, and
so do reads, `READ_EN` having no say in a write. -/
theorem reads_back :
    (∀ (t : List Instant) (p : Pins) (result : Vec 32) (i : Fin 3), WasReset t → p.cs = true →
      p.rst = true → p.readEn = true → p.add = 8 + BitVec.ofNat 4 i →
      readdata p (Regs.powerUp.run t) result = some ((lastWrite i t).getD 0)) ∧
    (∀ (q : Regs) (x : Instant) (i j : Fin 3), x.pins.rst = true → x.pins.add = BitVec.ofNat 4 i →
      i ≠ j → (q.step x).get j = q.get j) ∧
    (∀ (q : Regs) (x : Instant), x.pins.rst = true → 3 ≤ x.pins.add.toNat → q.step x = q) ∧
    (∀ (q : Regs) (x : Instant), x.pins.rst = true → x.pins.writeEn = false → q.step x = q) ∧
    ∀ (q : Regs) (x : Instant) (readEn : Bool),
      q.step { x with pins := { x.pins with readEn } } = q.step x := by
  refine ⟨?_, ?_, ?_, ?_, fun _ _ _ => rfl⟩
  · intro t p result i hreset hcs hrst hread hadd
    rw [readdata_window p _ result i hcs hrst hread hadd, run_get, if_pos hreset]
    cases lastWrite i t <;> rfl
  · intro q x i j hr hadd hij
    have hne : x.pins.add ≠ BitVec.ofNat 4 j := by
      have h : ∀ i j : Fin 3, i ≠ j → BitVec.ofNat 4 i ≠ BitVec.ofNat 4 j := by decide
      rw [hadd]
      exact h i j hij
    rw [step_get, if_neg (by simp [hr]), if_neg (not_writes_of_add hne)]
  · intro q x hr hadd
    refine step_of_not_writes hr fun i => not_writes_of_add fun h => ?_
    rw [h, BitVec.toNat_ofNat] at hadd
    omega
  · intro q x hr hw
    refine step_of_not_writes hr fun i h => ?_
    rw [h.2.2.1] at hw
    cases hw

/-- A reset, then a write to each register, then a read of the second; what a write to the first, an
access to address 11 and a read leave alone. -/
theorem reads_back_operand :
    let reset : Instant := ⟨false, ⟨false, false, false, false, 0, 0⟩⟩
    let write (add : BitVec 4) (w : BitVec 32) : Instant := ⟨true, ⟨true, true, false, true, add, w⟩⟩
    let read (add : BitVec 4) : Instant := ⟨true, ⟨true, true, true, false, add, 0⟩⟩
    let q := Regs.powerUp.run [reset, write 0 5, write 1 6, write 2 7]
    readdata (read 9).pins q none = some 6 ∧ (q.step (write 0 8)).get 1 = q.get 1 ∧
      q.step (write 11 8) = q ∧ q.step (read 9) = q := by
  intro reset write read q
  obtain ⟨hread, hother, hadd, hwrite, -⟩ := reads_back
  exact ⟨hread [reset, write 0 5, write 1 6, write 2 7] (read 9).pins none 1 ⟨reset, by simp, rfl⟩
      rfl rfl rfl rfl,
    hother q (write 0 8) 0 1 rfl rfl (by decide), hadd q (write 11 8) rfl (by decide),
    hwrite q (read 9) rfl rfl⟩

end FpgaQuat.Web
