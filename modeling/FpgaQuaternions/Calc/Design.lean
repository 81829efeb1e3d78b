import FpgaQuaternions.Lib.FixedPoint

/-!
# The calc entity: its process and its registers

`calc.vhd` has three 32-bit registers (control, operand, accumulator) and one
process that decodes the bus, selects what the accumulator loads and drives the
read data.  Here are the process body (`process`, one activation: every right-hand
side reads the current signals) and the two register files `reg32_clr.vhd` and
`reg32_float.vhd`, as coded.  What drives them (a clock-level reading, an event
simulation) is in the modules above.

Bits are two-valued: nothing is read before the reset has given every register a
value.
-/

namespace FpgaQuat.Calc

open FixedPoint

/-- `sfixed(1 downto -30)`. -/
abbrev Word := Sfixed 1 (-30)

/-- `x"ffffffff"`. -/
def Word.ones : Word := ⟨0xffffffff#32⟩

/-- The input ports of `calc`, without the clock. -/
structure Pins where
  reset : Bool
  chipselect : Bool
  regselect : BitVec 2
  writeEn : Bool
  readEn : Bool
  writedataint : BitVec 32
deriving DecidableEq, Repr

/-- The outputs of the three registers: control, operand, accumulator. -/
@[ext] structure Regs where
  r32O0 : Word
  r32O1 : Word
  r32O2 : Word
deriving DecidableEq, Repr

/-- The signals the process of `calc` drives. -/
@[ext] structure Signals where
  writedata : Word
  writeEnableReg0 : Bool
  writeEnableReg1 : Bool
  writeEnableReg2 : Bool
  writedata2 : Word
  mult : Sfixed 1 (-62)
  readdata : Word
  readdataint : BitVec 32
deriving DecidableEq, Repr

/-! ## The process -/

/-- The first `while index > -1` loop, from `index = n - 1` down. -/
def writedataLoop (writedataint : BitVec 32) : Nat → Word → Word
  | 0, writedata => writedata
  | index + 1, writedata =>
    writedataLoop writedataint index
      (if writedataint.getLsbD index then writedata.set (index - 30) true
       else writedata.set (index - 30) false)

/-- The second `while index > -1` loop, from `index = n - 1` down. -/
def readdataintLoop (readdata : Word) : Nat → BitVec 32 → BitVec 32
  | 0, readdataint => readdataint
  | index + 1, readdataint =>
    readdataintLoop readdata index
      (if readdata.get (index - 30) then setBit readdataint index true
       else setBit readdataint index false)

def writeEnableReg0 (p : Pins) : Bool :=
  p.writeEn && p.chipselect && !p.regselect.getLsbD 1 && !p.regselect.getLsbD 0

def writeEnableReg1 (p : Pins) : Bool :=
  p.writeEn && p.chipselect && !p.regselect.getLsbD 1 && p.regselect.getLsbD 0

/-- What `writedata_2` is assigned; neither branch taken, it keeps its value. -/
def writedata2 (r32O0 r32O1 : Word) (mult : Sfixed 1 (-62)) (old : Word) : Word :=
  if r32O0.get (-29) = true ∧ r32O0.get (-30) = true then r32O1
  else if r32O0.get (-29) = false ∧ r32O0.get (-30) = true then mult.slice 1 (-30)
  else old

/-- `r32_o_1 * r32_o_2`, of range `3 downto -60`, assigned to `mult`, of range `1 downto -62`. -/
def mult (r32O1 r32O2 : Word) : Sfixed 1 (-62) := (r32O1.mul r32O2).copy 1 (-62)

def readdata (r32O0 r32O2 : Word) : Word :=
  if r32O0.get (-29) = true ∧ r32O0.get (-30) = false then r32O2 else Word.ones

/-- One activation of the process: the values it assigns, from the current ones. -/
def process (p : Pins) (q : Regs) (c : Signals) : Signals where
  writedata := writedataLoop p.writedataint 32 (c.writedata.set 1 false)
  writeEnableReg0 := writeEnableReg0 p
  writeEnableReg1 := writeEnableReg1 p
  writeEnableReg2 := q.r32O0.get (-30)
  writedata2 := writedata2 q.r32O0 q.r32O1 c.mult c.writedata2
  mult := mult q.r32O1 q.r32O2
  readdata := readdata q.r32O0 q.r32O2
  readdataint := readdataintLoop c.readdata 32 c.readdataint

/-! ## The registers -/

/-- `reg32_clr`: cleared by `reset` and whenever its write enable is low. -/
def reg32Clr (reset clockEdge we : Bool) (d q : Word) : Word :=
  if reset || !we then 0
  else if clockEdge then if we then d else q
  else q

/-- `reg32_float`. -/
def reg32Float (reset clockEdge we : Bool) (d q : Word) : Word :=
  if reset then 0
  else if clockEdge then if we then d else q
  else q

@[simp] theorem reg32Clr_hold (reset we : Bool) (d q : Word) :
    reg32Clr reset false we d q = if reset || !we then 0 else q := by
  cases reset <;> cases we <;> rfl

@[simp] theorem reg32Clr_edge (reset we : Bool) (d q : Word) :
    reg32Clr reset true we d q = if reset || !we then 0 else d := by
  cases reset <;> cases we <;> rfl

@[simp] theorem reg32Float_hold (reset we : Bool) (d q : Word) :
    reg32Float reset false we d q = if reset then 0 else q := by
  cases reset <;> cases we <;> rfl

@[simp] theorem reg32Float_edge (reset we : Bool) (d q : Word) :
    reg32Float reset true we d q = if reset then 0 else if we then d else q := by
  cases reset <;> cases we <;> rfl

/-- The three instances, `clockEdge` telling whether the clock has just risen. -/
def registers (p : Pins) (clockEdge : Bool) (c : Signals) (q : Regs) : Regs where
  r32O0 := reg32Clr p.reset clockEdge c.writeEnableReg0 c.writedata q.r32O0
  r32O1 := reg32Float p.reset clockEdge c.writeEnableReg1 c.writedata q.r32O1
  r32O2 := reg32Float p.reset clockEdge c.writeEnableReg2 c.writedata2 q.r32O2

/-! ## What the loops copy -/

/-- The bus word as an sfixed word, bit by bit. -/
def Word.ofBits (x : BitVec 32) : Word := ⟨x⟩

/-- An sfixed word as a bus word, bit by bit. -/
def Word.toBits (w : Word) : BitVec 32 := w.bits

theorem Word.getLsbD_toBits (w : Word) (n : Nat) : w.toBits.getLsbD n = w.get (n - 30) := by
  have : ((n : Int) - 30 - (-30)).toNat = n := by omega
  simp only [Sfixed.get, this]
  rfl

theorem Word.get_ofBits (x : BitVec 32) (n : Nat) : (Word.ofBits x).get (n - 30) = x.getLsbD n :=
  (Word.getLsbD_toBits (Word.ofBits x) n).symm

theorem writedataLoop_get (x : BitVec 32) (n : Nat) (hn : n ≤ 32) (w : Word) (i : Nat) (hi : i < 32) :
    (writedataLoop x n w).get (i - 30) = if i < n then x.getLsbD i else w.get (i - 30) := by
  induction n generalizing w with
  | zero => simp [writedataLoop]
  | succ n ih =>
    have hset : ∀ b, (w.set ((n : Int) - 30) b).get (i - 30) = if i = n then b else w.get (i - 30) := by
      intro b
      rw [Sfixed.get_set _ _ _ _ (by omega) (by omega) (by omega)]
      congr 1
      simp only [eq_iff_iff]; omega
    have hbit : (if x.getLsbD n then w.set ((n : Int) - 30) true else w.set ((n : Int) - 30) false) =
        w.set ((n : Int) - 30) (x.getLsbD n) := by
      cases x.getLsbD n <;> rfl
    rw [writedataLoop, hbit, ih (by omega), hset]
    by_cases h : i = n
    · subst h; simp
    · have : i < n ↔ i < n + 1 := by omega
      simp [h, this]

theorem readdataintLoop_get (w : Word) (n : Nat) (hn : n ≤ 32) (x : BitVec 32) (i : Nat) :
    (readdataintLoop w n x).getLsbD i = if i < n then w.get (i - 30) else x.getLsbD i := by
  induction n generalizing x with
  | zero => simp [readdataintLoop]
  | succ n ih =>
    have hbit : (if w.get ((n : Int) - 30) then setBit x n true else setBit x n false) =
        setBit x n (w.get ((n : Int) - 30)) := by
      cases w.get ((n : Int) - 30) <;> rfl
    rw [readdataintLoop, hbit, ih (by omega), getLsbD_setBit _ _ _ _ (by omega)]
    by_cases h : i = n
    · subst h; simp
    · have : i < n ↔ i < n + 1 := by omega
      simp [h, this]

/-- **The write loop is the identity on bits**, whatever `writedata` was before. -/
@[simp] theorem writedataLoop_eq (x : BitVec 32) (w : Word) : writedataLoop x 32 w = Word.ofBits x := by
  apply Sfixed.ext_get
  intro i h1 h2
  obtain ⟨n, rfl⟩ : ∃ n : Nat, i = n - 30 := ⟨(i + 30).toNat, by omega⟩
  have hn : n < 32 := by omega
  rw [writedataLoop_get x 32 (Nat.le_refl _) w n hn, if_pos hn, Word.get_ofBits]

/-- **The read loop is the identity on bits.** -/
@[simp] theorem readdataintLoop_eq (w : Word) (x : BitVec 32) : readdataintLoop w 32 x = w.toBits := by
  apply BitVec.eq_of_getLsbD_eq
  intro i hi
  rw [readdataintLoop_get w 32 (Nat.le_refl _) x i, if_pos hi, Word.getLsbD_toBits]

end FpgaQuat.Calc
