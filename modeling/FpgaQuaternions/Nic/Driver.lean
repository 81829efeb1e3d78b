import Mathlib

/-!
# The receive interrupt of the DM9000A driver

`dm9000a_isr` of `dm9000a.c` over the two ports of the chip.  A register is selected
through `IO_addr` and accessed through `IO_data`; with `MRCMD` selected every read takes
the next word out of the receive SRAM, with `MRCMDX` selected it only tells whether there
is one.  Delays have no effect here.

What the driver asks of the network stack is given by `Stack`: the outcome of every call of
`pk_alloc` and the tick counter at that time.
-/

namespace FpgaQuat.Nic

/-! ## Registers and constants -/

def ncr : BitVec 32 := 0x00
def rcr : BitVec 32 := 0x05
def etxcsr : BitVec 32 := 0x30
def mrcmdx : BitVec 32 := 0xF0
def mrcmd : BitVec 32 := 0xF2
def isr : BitVec 32 := 0xFE
def imr : BitVec 32 := 0xFF

def ncrSet : BitVec 32 := 0x00
def rcrSet : BitVec 32 := 0x30
def rxEnable : BitVec 32 := 0x01
def passMulticast : BitVec 32 := 0x08
def bptrSet : BitVec 32 := 0x3F
def fctrSet : BitVec 32 := 0x5A
def rtfcrSet : BitVec 32 := 0x29
def etxcsrSet : BitVec 32 := 0x83
def intrSet : BitVec 32 := 0x81
def parSet : BitVec 32 := 0x80

def dm9000PktReady : BitVec 8 := 0x01
def maxPacketSize : Nat := 1522
/-- `ETHHDR_SIZE` and `ETHHDR_BIAS` of `nios2/ipport.h`. -/
def ethhdrSize : Nat := 16
def ethhdrBias : Nat := 2

/-! ## The chip -/

inductive Port where
  | ioAddr
  | ioData
deriving DecidableEq, Repr

structure Chip where
  /-- The register last written to `IO_addr`. -/
  index : BitVec 32
  /-- The words of the receive SRAM, the next one first. -/
  rxSram : List (BitVec 16)
  regs : BitVec 32 → BitVec 16

def Chip.iowr (c : Chip) (port : Port) (data : BitVec 32) : Chip :=
  match port with
  | .ioAddr => { c with index := data }
  | .ioData => { c with regs := Function.update c.regs c.index (data.setWidth 16) }

def Chip.iord (c : Chip) (port : Port) : BitVec 16 × Chip :=
  match port with
  | .ioAddr => (c.index.setWidth 16, c)
  | .ioData =>
    if c.index = mrcmdx then (if c.rxSram = [] then 0 else 1, c)
    else if c.index = mrcmd then
      match c.rxSram with
      | [] => (0, c)
      | w :: ws => (w, { c with rxSram := ws })
    else (c.regs c.index, c)

/-! ## The driver -/

/-- `struct netbuf`; addresses count from `nb_buff`. -/
structure Packet where
  nbBuff : Nat → UInt8
  nbProt : Nat
  nbPlen : BitVec 32
  nbTstamp : BitVec 32
  net : Nat
  type : BitVec 16

/-- The network stack: `pk_alloc` by the number of calls before and the length asked for, the
contents of a fresh buffer being anything, and `cticks`. -/
structure Stack where
  pkAlloc : Nat → Nat → Option (Nat → UInt8)
  cticks : Nat → BitVec 32

/-- What `dm9000a_isr` changes. -/
structure Driver where
  chip : Chip
  autoReset : Nat
  ifInDiscards : BitVec 32
  rcvdq : List Packet
  /-- Calls of `SignalPktDemux`. -/
  signals : Nat
  /-- Calls of `pk_alloc`. -/
  allocs : Nat

namespace Driver

def iowr (d : Driver) (port : Port) (data : BitVec 32) : Driver := { d with chip := d.chip.iowr port data }

def iord (d : Driver) (port : Port) : BitVec 16 × Driver :=
  ((d.chip.iord port).1, { d with chip := (d.chip.iord port).2 })

def dm9000aIow (d : Driver) (reg data : BitVec 32) : Driver := (d.iowr .ioAddr reg).iowr .ioData data

def dm9000aIor (d : Driver) (reg : BitVec 32) : BitVec 16 × Driver := (d.iowr .ioAddr reg).iord .ioData

/-- The first byte read is the one before, the second tells. -/
def dm9000aRxReady (d : Driver) : BitVec 8 × Driver :=
  let (_, d) := d.dm9000aIor mrcmdx
  let (rv, d) := d.iord .ioData
  ((rv &&& 0x03).setWidth 8, d)

/-- `for (i = 0; i < rx_len; i += 2) tmp = IORD(..)`, from some `i` on. -/
def dump (rxLen i : Nat) (d : Driver) : Driver :=
  if i < rxLen then dump rxLen (i + 2) (d.iord .ioData).2 else d
termination_by rxLen - i

/-- The same with the two bytes of every word stored at `data_ptr`. -/
def copy (rxLen i dataPtr : Nat) (buff : Nat → UInt8) (d : Driver) : (Nat → UInt8) × Driver :=
  if i < rxLen then
    let (tmp, d) := d.iord .ioData
    let buff := Function.update buff dataPtr (UInt8.ofBitVec ((tmp &&& 0xFF).setWidth 8))
    let buff := Function.update buff (dataPtr + 1) (UInt8.ofBitVec (((tmp >>> 8) &&& 0xFF).setWidth 8))
    copy rxLen (i + 2) (dataPtr + 2) buff d
  else (buff, d)
termination_by rxLen - i

/-- `eth->e_type`, behind two addresses of 6 bytes. -/
def eType (buff : Nat → UInt8) : BitVec 16 :=
  (buff (ethhdrBias + 13)).toBitVec ++ (buff (ethhdrBias + 12)).toBitVec

section
variable (stack : Stack) (iface : Nat)

/-- The body of the loop: one frame. -/
def receive (d : Driver) : Driver :=
  let d := d.iowr .ioAddr mrcmd
  let (rxSts, d) := d.iord .ioData
  let (rxLen, d) := d.iord .ioData
  let rxLen := rxLen.toNat
  if rxSts &&& 0xBF00 = 0 ∧ rxLen < maxPacketSize then
    let allocated := stack.pkAlloc d.allocs (rxLen + ethhdrBias)
    let now := stack.cticks d.allocs
    let d := { d with allocs := d.allocs + 1 }
    match allocated with
    | none =>
      -- no buffer: the frame is dumped
      dump rxLen 0 { d with ifInDiscards := d.ifInDiscards + 1 }
    | some buff =>
      let (buff, d) := copy rxLen 0 ethhdrBias buff d
      { d with
        rcvdq := d.rcvdq ++ [{
          nbBuff := buff
          nbProt := ethhdrSize
          nbPlen := BitVec.ofNat 32 rxLen - 14
          nbTstamp := now
          net := iface
          type := eType buff }]
        signals := d.signals + 1 }
  else
    -- a bad frame
    dump rxLen 0 d

/-! ## Termination -/

theorem iord_length (d : Driver) (port : Port) :
    (d.iord port).2.chip.rxSram.length ≤ d.chip.rxSram.length := by
  cases port with
  | ioAddr => exact Nat.le_refl _
  | ioData =>
    unfold iord Chip.iord
    dsimp only
    split
    · exact Nat.le_refl _
    · split
      · cases h : d.chip.rxSram <;> simp [h]
      · exact Nat.le_refl _

theorem dump_length (rxLen i : Nat) (d : Driver) :
    (dump rxLen i d).chip.rxSram.length ≤ d.chip.rxSram.length := by
  fun_induction dump rxLen i d with
  | case1 i d _ ih => exact ih.trans (iord_length d _)
  | case2 i d _ => exact Nat.le_refl _

theorem copy_length (rxLen i dataPtr : Nat) (buff : Nat → UInt8) (d : Driver) :
    (copy rxLen i dataPtr buff d).2.chip.rxSram.length ≤ d.chip.rxSram.length := by
  fun_induction copy rxLen i dataPtr buff d with
  | case1 i dataPtr buff d _ tmp d' hd _ _ ih =>
    have := iord_length d .ioData
    rw [hd] at this
    exact ih.trans this
  | case2 i dataPtr buff d _ => exact Nat.le_refl _

/-- With `MRCMD` selected a word is taken. -/
theorem iord_mrcmd {d : Driver} (h : d.chip.index = mrcmd) {w : BitVec 16} {ws : List (BitVec 16)}
    (hs : d.chip.rxSram = w :: ws) :
    d.iord .ioData = (w, { d with chip := { d.chip with rxSram := ws } }) := by
  have hne : ¬ mrcmd = mrcmdx := by decide
  simp [iord, Chip.iord, h, hs, hne]

/-- A frame takes at least its status word. -/
theorem receive_length (d : Driver) (h : d.chip.rxSram ≠ []) :
    (receive stack iface d).chip.rxSram.length < d.chip.rxSram.length := by
  obtain ⟨w, ws, hw⟩ := List.exists_cons_of_ne_nil h
  have hsts := iord_mrcmd (d := d.iowr .ioAddr mrcmd) rfl hw
  obtain ⟨d1, hd1⟩ : ∃ d1, d1 = ((d.iowr .ioAddr mrcmd).iord .ioData).2 := ⟨_, rfl⟩
  have h1 : d1.chip.rxSram = ws := by rw [hd1, hsts]
  have hlen := iord_length d1 .ioData
  have hrest : ∀ e : Driver, e.chip.rxSram = (d1.iord .ioData).2.chip.rxSram →
      e.chip.rxSram.length < d.chip.rxSram.length := by
    intro e he
    rw [he, hw, List.length_cons]
    rw [h1] at hlen
    omega
  unfold receive
  simp only [← hd1]
  split
  · split
    · exact (dump_length _ _ _).trans_lt (hrest _ rfl)
    · exact (copy_length _ _ _ _ _).trans_lt (hrest _ rfl)
  · exact (dump_length _ _ _).trans_lt (hrest _ rfl)

end

/-- The chip reports what waits, and nothing is taken. -/
theorem dm9000aRxReady_eq (d : Driver) : d.dm9000aRxReady =
    (if d.chip.rxSram = [] then 0 else 1, { d with chip := { d.chip with index := mrcmdx } }) := by
  by_cases h : d.chip.rxSram = [] <;> simp [dm9000aRxReady, dm9000aIor, iowr, iord, Chip.iowr, Chip.iord, h]

section
variable (stack : Stack) (iface : Nat)

/-- `while (rx_rdy == DM9000_PKT_READY)`; `rx_rdy` is computed before the loop as at its end. -/
def receiveLoop (d : Driver) : BitVec 8 × Driver :=
  let r := d.dm9000aRxReady
  if r.1 = dm9000PktReady then receiveLoop (receive stack iface r.2) else r
termination_by d.chip.rxSram.length
decreasing_by
  next h =>
    have hrdy : d.dm9000aRxReady.1 = dm9000PktReady := h
    rw [dm9000aRxReady_eq] at hrdy ⊢
    refine receive_length stack iface _ fun he => ?_
    rw [if_pos he] at hrdy
    exact absurd hrdy (by decide : ¬ (0 : BitVec 8) = dm9000PktReady)

/-- The registers of a software reset, in the order they are written. -/
def resetSequence : List (BitVec 32 × BitVec 32) :=
  [(ncr, 0x03), (ncr, 0x00), (ncr, 0x03), (ncr, 0x00), (ncr, ncrSet), (0x08, bptrSet), (0x09, fctrSet),
    (0x0A, rtfcrSet), (0x0F, 0x00), (0x2D, 0x80), (etxcsr, etxcsrSet), (imr, intrSet),
    (rcr, rcrSet ||| rxEnable ||| passMulticast)]

def dm9000aIsr (d : Driver) : Driver :=
  let d := d.dm9000aIow imr parSet
  let (_istatus, d) := d.dm9000aIor isr
  let (rxRdy, d) := receiveLoop stack iface d
  let d :=
    if rxRdy &&& 0x02 ≠ 0 then
      resetSequence.foldl (fun d w => d.dm9000aIow w.1 w.2) { d with autoReset := d.autoReset + 1 }
    else d
  (d.dm9000aIow isr 0x3F).dm9000aIow imr intrSet

end

end Driver

end FpgaQuat.Nic
