import FpgaQuaternions.Lib.EventSim
import FpgaQuaternions.Calc.Clock

/-!
# calc in an event-driven simulator

The process of `calc.vhd` runs on an event of `clock`, `reset`, `r32_o_0`, `readdata`
or `writedataint`, each register on one of `reset`, `clock` or its `WE`; what they
assign is there in the next delta cycle (`delta`).  An instant is a new value of the
clock and the pins, followed by delta cycles until nothing changes (`Sim.instant`).

Not in the sensitivity list: `write_en`, `chipselect`, `regselect`, `r32_o_1`, `r32_o_2`
and `mult`.  So the write enables are those of the last instant at which something
else woke the process, and `writedata_2` may come from a product that is out of date.

    an instant that wakes nothing changes nothing              (instant_asleep)
    an instant that wakes the process                          (instant_awake)
-/

namespace FpgaQuat.Calc

open FixedPoint EventSim

/-- The values of all signals. -/
@[ext] structure Sim where
  clock : Bool
  pins : Pins
  comb : Signals
  regs : Regs
deriving DecidableEq, Repr

/-- An event on the sensitivity list of the process. -/
def processEvent (prev cur : Sim) : Prop :=
  prev.clock ≠ cur.clock ∨ prev.pins.reset ≠ cur.pins.reset ∨ prev.regs.r32O0 ≠ cur.regs.r32O0 ∨
    prev.comb.readdata ≠ cur.comb.readdata ∨ prev.pins.writedataint ≠ cur.pins.writedataint

instance (prev cur : Sim) : Decidable (processEvent prev cur) :=
  inferInstanceAs (Decidable (_ ∨ _ ∨ _ ∨ _ ∨ _))

/-- An event on the sensitivity list of a register with write enable `we`. -/
def registerEvent (we : Signals → Bool) (prev cur : Sim) : Prop :=
  prev.pins.reset ≠ cur.pins.reset ∨ prev.clock ≠ cur.clock ∨ we prev.comb ≠ we cur.comb

instance (we : Signals → Bool) (prev cur : Sim) : Decidable (registerEvent we prev cur) :=
  inferInstanceAs (Decidable (_ ∨ _ ∨ _))

/-- `clock'EVENT AND clock = '1'`. -/
def clockEdge (prev cur : Sim) : Bool := prev.clock != cur.clock && cur.clock

/-- One delta cycle: the processes with an event run on the current values. -/
def delta (prev cur : Sim) : Sim :=
  let q := registers cur.pins (clockEdge prev cur) cur.comb cur.regs
  { clock := cur.clock
    pins := cur.pins
    comb := if processEvent prev cur then process cur.pins cur.regs cur.comb else cur.comb
    regs :=
      { r32O0 := if registerEvent Signals.writeEnableReg0 prev cur then q.r32O0 else cur.regs.r32O0
        r32O1 := if registerEvent Signals.writeEnableReg1 prev cur then q.r32O1 else cur.regs.r32O1
        r32O2 := if registerEvent Signals.writeEnableReg2 prev cur then q.r32O2 else cur.regs.r32O2 } }

theorem delta_self (x : Sim) : delta x x = x := by
  simp [delta, processEvent, registerEvent]

def simulation : Kernel Sim := ⟨delta, delta_self⟩

/-- Delta cycles in which an instant is over. -/
def maxDeltas : Nat := 6

/-- The clock and the pins take new values, and the design settles. -/
def Sim.instant (x : Sim) (i : Bool × Pins) : Sim :=
  (simulation.deltas maxDeltas (x, { x with clock := i.1, pins := i.2 })).2

/-- What is true whenever the design has settled.  Nothing is said of `mult` and `writedata_2`. -/
structure Settled (x : Sim) : Prop where
  writedata : x.comb.writedata = Word.ofBits x.pins.writedataint
  writeEnableReg2 : x.comb.writeEnableReg2 = x.regs.r32O0.get (-30)
  readdata : x.comb.readdata = readdata x.regs.r32O0 x.regs.r32O2
  readdataint : x.comb.readdataint = x.comb.readdata.toBits
  cleared : x.comb.writeEnableReg0 = false → x.regs.r32O0 = 0
  reset : x.pins.reset = true → x.regs = ⟨0, 0, 0⟩

/-! ## Delta cycles after the first -/

section
variable {prev cur : Sim}

/-- Once the inputs have been read, delta cycles only clear the control register. -/
theorem delta_regs (hc : prev.clock = cur.clock) (hp : prev.pins = cur.pins)
    (hr : cur.pins.reset = true → cur.regs = ⟨0, 0, 0⟩)
    (h0 : prev.comb.writeEnableReg0 = cur.comb.writeEnableReg0 → cur.comb.writeEnableReg0 = false →
      cur.regs.r32O0 = 0) :
    (delta prev cur).regs = { cur.regs with
      r32O0 := if cur.comb.writeEnableReg0 then cur.regs.r32O0 else 0 } := by
  have he : clockEdge prev cur = false := by simp [clockEdge, hc]
  have hreset : cur.pins.reset = true →
      cur.regs.r32O0 = 0 ∧ cur.regs.r32O1 = 0 ∧ cur.regs.r32O2 = 0 := by
    intro h
    rw [hr h]
    exact ⟨rfl, rfl, rfl⟩
  ext1
  · simp only [delta, registers, he, reg32Clr_hold]
    cases hrs : cur.pins.reset <;> cases hwe : cur.comb.writeEnableReg0 <;>
      simp_all [registerEvent]
  · simp only [delta, registers, he, reg32Float_hold]
    cases hrs : cur.pins.reset <;> simp_all
  · simp only [delta, registers, he, reg32Float_hold]
    cases hrs : cur.pins.reset <;> simp_all

/-- No event, no change: the control register being clear where its write enable is low. -/
theorem delta_quiet (hc : prev.clock = cur.clock) (hp : prev.pins = cur.pins)
    (hr : cur.pins.reset = true → cur.regs = ⟨0, 0, 0⟩)
    (h0 : cur.comb.writeEnableReg0 = false → cur.regs.r32O0 = 0)
    (hr0 : prev.regs.r32O0 = cur.regs.r32O0) (hrd : prev.comb.readdata = cur.comb.readdata) :
    delta prev cur = cur := by
  have hregs := delta_regs hc hp hr fun _ => h0
  have hne : ¬ processEvent prev cur := by simp [processEvent, hc, hp, hr0, hrd]
  ext1
  · rfl
  · rfl
  · simp only [delta, if_neg hne]
  · rw [hregs]
    cases hwe : cur.comb.writeEnableReg0 with
    | true => rfl
    | false => ext1 <;> simp [h0 hwe]

/-- The process has just run on the final pins and registers: at most one more activation, for
`readdataint`, and the design has settled. -/
theorem settles_after_process {p : Pins} {q : Regs} (hc : prev.clock = cur.clock)
    (hpp : prev.pins = p) (hcp : cur.pins = p) (hpq : prev.regs.r32O0 = q.r32O0) (hcq : cur.regs = q)
    (hcomb : cur.comb = process p q prev.comb) (hr : p.reset = true → q = ⟨0, 0, 0⟩)
    (h0 : writeEnableReg0 p = false → q.r32O0 = 0) :
    ∃ fin, simulation.SettlesIn 2 prev cur fin ∧ Settled fin ∧ fin.clock = cur.clock ∧
      fin.pins = p ∧ fin.regs = q ∧ fin.comb.writeEnableReg0 = writeEnableReg0 p ∧
      fin.comb.writeEnableReg1 = writeEnableReg1 p ∧ fin.comb.mult = mult q.r32O1 q.r32O2 := by
  have hwe : cur.comb.writeEnableReg0 = writeEnableReg0 p := by rw [hcomb]; rfl
  have hrd : cur.comb.readdata = readdata q.r32O0 q.r32O2 := by rw [hcomb]; rfl
  have hsettled : ∀ x : Sim, x.pins = p → x.regs = q → (∃ c, x.comb = process p q c ∧
      c.readdata = x.comb.readdata) → Settled x := by
    rintro x hxp hxq ⟨c, hxc, hcr⟩
    refine ⟨?_, ?_, ?_, ?_, ?_, ?_⟩
    · rw [hxc, hxp]; exact writedataLoop_eq _ _
    · rw [hxc, hxq]; rfl
    · rw [hxc, hxq]; rfl
    · rw [← hcr, hxc]; exact readdataintLoop_eq _ _
    · rw [hxc, hxq]; exact h0
    · rw [hxp, hxq]; exact hr
  by_cases he : prev.comb.readdata = cur.comb.readdata
  · refine ⟨cur, ?_, hsettled cur hcp hcq ⟨_, hcomb, he⟩, rfl, hcp, hcq, hwe, ?_, ?_⟩
    · rw [Kernel.settlesIn_succ]
      show simulation.SettlesIn 1 cur (delta prev cur) cur
      rw [delta_quiet hc (hpp.trans hcp.symm) (by rw [hcp, hcq]; exact hr)
        (by rw [hwe, hcq]; exact h0) (by rw [hcq, hpq]) he]
      exact simulation.settlesIn_self 1 cur
    · rw [hcomb]; rfl
    · rw [hcomb]; rfl
  · let fin : Sim := ⟨cur.clock, p, process p q cur.comb, q⟩
    have hstep : delta prev cur = fin := by
      have hregs := delta_regs hc (hpp.trans hcp.symm) (by rw [hcp, hcq]; exact hr)
        fun _ => by rw [hwe, hcq]; exact h0
      ext1
      · rfl
      · exact hcp
      · simp only [delta, if_pos (show processEvent prev cur from Or.inr (Or.inr (Or.inr (Or.inl he))))]
        rw [hcp, hcq]
      · rw [hregs, hwe, hcq]
        cases hz : writeEnableReg0 p with
        | true => rfl
        | false => ext1 <;> simp [fin, h0 hz]
    have hlast : delta cur fin = fin :=
      delta_quiet rfl hcp hr h0 (by rw [hcq]) hrd
    refine ⟨fin, ?_, hsettled fin rfl rfl ⟨_, rfl, hrd⟩, rfl, rfl, rfl, rfl, rfl, rfl⟩
    rw [Kernel.settlesIn_succ, Kernel.settlesIn_succ]
    show simulation.SettlesIn 0 (delta prev cur) (delta cur (delta prev cur)) fin
    rw [hstep, hlast]
    exact simulation.settlesIn_zero fin

end

/-! ## Instants -/

theorem instant_eq {x fin : Sim} {i : Bool × Pins} {n : Nat} (hn : n ≤ maxDeltas)
    (h : simulation.SettlesIn n x { x with clock := i.1, pins := i.2 } fin) : x.instant i = fin := by
  have := h.mono hn
  unfold Kernel.SettlesIn at this
  rw [Sim.instant, this]

/-- Something wakes the process. -/
def Sim.Wakes (x : Sim) (i : Bool × Pins) : Prop :=
  x.clock ≠ i.1 ∨ x.pins.reset ≠ i.2.reset ∨ x.pins.writedataint ≠ i.2.writedataint

instance (x : Sim) (i : Bool × Pins) : Decidable (x.Wakes i) :=
  inferInstanceAs (Decidable (_ ∨ _ ∨ _))

theorem asleep_settles {x : Sim} {i : Bool × Pins} (h : ¬ x.Wakes i) :
    simulation.SettlesIn 1 x { x with clock := i.1, pins := i.2 } { x with pins := i.2 } := by
  simp only [Sim.Wakes, not_or, not_not] at h
  obtain ⟨hc, hr, hd⟩ := h
  have hstep : delta x { x with clock := i.1, pins := i.2 } = { x with clock := i.1, pins := i.2 } := by
    simp [delta, processEvent, registerEvent, hc, hr, hd]
  have hy : ({ x with pins := i.2 } : Sim) = { x with clock := i.1, pins := i.2 } := by rw [← hc]
  rw [Kernel.settlesIn_succ, hy]
  show simulation.SettlesIn 0 _ (delta x { x with clock := i.1, pins := i.2 }) _
  rw [hstep]
  exact simulation.settlesIn_zero _

/-- An instant that wakes nothing changes nothing but the pins. -/
theorem instant_asleep {x : Sim} {i : Bool × Pins} (h : ¬ x.Wakes i) :
    x.instant i = { x with pins := i.2 } := instant_eq (by decide) (asleep_settles h)

theorem settled_asleep {x : Sim} {i : Bool × Pins} (hx : Settled x) (h : ¬ x.Wakes i) :
    Settled { x with pins := i.2 } := by
  simp only [Sim.Wakes, not_or, not_not] at h
  obtain ⟨-, hr, hd⟩ := h
  obtain ⟨h1, h2, h3, h4, h5, h6⟩ := hx
  exact ⟨by rw [h1, hd], h2, h3, h4, h5, fun h => h6 (hr.trans h)⟩

/-- The registers in the delta cycle after the inputs: on an event of clock or reset they see the
write enables and the data of before. -/
def Sim.firstRegs (x : Sim) (i : Bool × Pins) : Regs :=
  if x.clock ≠ i.1 ∨ x.pins.reset ≠ i.2.reset then
    registers i.2 (x.clock != i.1 && i.1) x.comb x.regs
  else x.regs

/-- The registers once the write enables have been evaluated on the new pins. -/
def Sim.nextRegs (x : Sim) (i : Bool × Pins) : Regs :=
  { x.firstRegs i with r32O0 := if writeEnableReg0 i.2 then (x.firstRegs i).r32O0 else 0 }

section
variable {x : Sim} {i : Bool × Pins}

theorem firstRegs_reset (hx : Settled x) (h : i.2.reset = true) : x.firstRegs i = ⟨0, 0, 0⟩ := by
  unfold Sim.firstRegs
  split
  · simp [registers, reg32Clr, reg32Float, h]
  · next hne =>
    have hr : x.pins.reset = i.2.reset := by by_contra hr; exact hne (Or.inr hr)
    exact hx.reset (hr.trans h)

theorem firstRegs_cleared (hx : Settled x) (h : x.comb.writeEnableReg0 = false) :
    (x.firstRegs i).r32O0 = 0 := by
  unfold Sim.firstRegs
  split
  · simp [registers, reg32Clr, h]
  · exact hx.cleared h

/-- The accumulator only changes under a command that does not show it on the bus. -/
theorem readdata_firstRegs (hx : Settled x) (h : (x.firstRegs i).r32O0 = x.regs.r32O0) :
    readdata (x.firstRegs i).r32O0 (x.firstRegs i).r32O2 = readdata x.regs.r32O0 x.regs.r32O2 := by
  cases hr : i.2.reset with
  | true =>
    rw [firstRegs_reset hx hr] at h ⊢
    rw [← h]
    rfl
  | false =>
    rw [h]
    unfold Sim.firstRegs
    split
    · cases hb : x.regs.r32O0.get (-30) with
      | true => simp [readdata, hb]
      | false => simp [registers, reg32Float, hr, hx.writeEnableReg2, hb]
    · rfl

/-- The design after the first delta cycle of an instant that wakes the process. -/
def Sim.first (x : Sim) (i : Bool × Pins) : Sim := ⟨i.1, i.2, process i.2 x.regs x.comb, x.firstRegs i⟩

theorem delta_first (h : x.Wakes i) : delta x { x with clock := i.1, pins := i.2 } = x.first i := by
  have he : processEvent x { x with clock := i.1, pins := i.2 } := by
    rcases h with h | h | h
    · exact Or.inl h
    · exact Or.inr (Or.inl h)
    · exact Or.inr (Or.inr (Or.inr (Or.inr h)))
  have hreg : ∀ we, registerEvent we x { x with clock := i.1, pins := i.2 } ↔
      x.clock ≠ i.1 ∨ x.pins.reset ≠ i.2.reset := by
    intro we
    simp only [registerEvent, ne_eq, not_true_eq_false, or_false]
    exact or_comm
  ext1
  · rfl
  · rfl
  · simp only [delta, if_pos he, Sim.first]
  · simp only [delta, hreg, Sim.first, Sim.firstRegs]
    split <;> rfl

/-- What an instant that wakes the process ends in. -/
structure Awake (x : Sim) (i : Bool × Pins) (y : Sim) : Prop where
  settled : Settled y
  clock : y.clock = i.1
  pins : y.pins = i.2
  regs : y.regs = x.nextRegs i
  writeEnableReg0 : y.comb.writeEnableReg0 = writeEnableReg0 i.2
  writeEnableReg1 : y.comb.writeEnableReg1 = writeEnableReg1 i.2
  /-- The process ran once, before the registers changed. -/
  kept : (x.nextRegs i).r32O0 ≠ 0 → (x.nextRegs i).r32O0 = x.regs.r32O0 →
    y.comb = process i.2 x.regs x.comb
  /-- The event of the control register made it run again. -/
  loaded : (x.nextRegs i).r32O0 ≠ 0 → (x.nextRegs i).r32O0 ≠ x.regs.r32O0 →
    y.comb.mult = mult (x.nextRegs i).r32O1 (x.nextRegs i).r32O2

theorem nextRegs_reset (hx : Settled x) (h : i.2.reset = true) : x.nextRegs i = ⟨0, 0, 0⟩ := by
  rw [Sim.nextRegs, firstRegs_reset hx h]
  simp

theorem nextRegs_cleared (h : writeEnableReg0 i.2 = false) : (x.nextRegs i).r32O0 = 0 := by
  simp [Sim.nextRegs, h]

/-- The registers after the second delta cycle are the last. -/
theorem delta_second (hx : Settled x) :
    (delta { x with clock := i.1, pins := i.2 } (x.first i)).regs = x.nextRegs i :=
  delta_regs rfl rfl (firstRegs_reset hx) fun he hz => firstRegs_cleared hx (he.trans hz)

/-- The control register is what it was: no further event. -/
theorem awake_kept (hx : Settled x) (h : x.Wakes i) (hkept : x.nextRegs i = x.firstRegs i)
    (h0 : (x.firstRegs i).r32O0 = x.regs.r32O0) : ∃ y,
    simulation.SettlesIn 2 x { x with clock := i.1, pins := i.2 } y ∧ Awake x i y := by
  have hrd : x.comb.readdata = (x.first i).comb.readdata := hx.readdata
  have hz : (x.first i).comb.writeEnableReg0 = false → (x.first i).regs.r32O0 = 0 := by
    intro hz
    show (x.firstRegs i).r32O0 = 0
    rw [← hkept]
    exact nextRegs_cleared hz
  have hquiet : delta { x with clock := i.1, pins := i.2 } (x.first i) = x.first i :=
    delta_quiet rfl rfl (firstRegs_reset hx) hz h0.symm hrd
  have hset : simulation.SettlesIn 2 x { x with clock := i.1, pins := i.2 } (x.first i) := by
    rw [Kernel.settlesIn_succ, Kernel.settlesIn_succ]
    show simulation.SettlesIn 0 (delta x { x with clock := i.1, pins := i.2 })
      (delta { x with clock := i.1, pins := i.2 } (delta x { x with clock := i.1, pins := i.2 })) _
    rw [delta_first h, hquiet]
    exact simulation.settlesIn_zero (x.first i)
  refine ⟨x.first i, hset, ⟨writedataLoop_eq _ _, ?_, (readdata_firstRegs hx h0).symm, ?_, hz,
    firstRegs_reset hx⟩, rfl, rfl, hkept.symm, rfl, rfl, fun _ _ => rfl,
    fun _ hne => absurd (hkept ▸ h0) hne⟩
  · show x.regs.r32O0.get (-30) = (x.firstRegs i).r32O0.get (-30)
    rw [h0]
  · show readdataintLoop x.comb.readdata 32 x.comb.readdataint = _
    rw [readdataintLoop_eq, hrd]

/-- The event of the control register runs the process on the new registers. -/
theorem awake_loaded (hx : Settled x) (h : x.Wakes i) (hkept : x.nextRegs i = x.firstRegs i)
    (h0 : (x.firstRegs i).r32O0 ≠ x.regs.r32O0) : ∃ y,
    simulation.SettlesIn 4 x { x with clock := i.1, pins := i.2 } y ∧ Awake x i y := by
  have hev : processEvent { x with clock := i.1, pins := i.2 } (x.first i) :=
    Or.inr (Or.inr (Or.inl (Ne.symm h0)))
  obtain ⟨y, hy, hs, hc, hp, hq, hw0, hw1, hm⟩ := @settles_after_process (x.first i)
    (delta { x with clock := i.1, pins := i.2 } (x.first i)) i.2 (x.nextRegs i) rfl rfl rfl
    (by rw [hkept]; rfl) (delta_second hx) (by simp only [delta, if_pos hev, hkept]; rfl)
    (nextRegs_reset hx) nextRegs_cleared
  refine ⟨y, ?_, hs, hc, hp, hq, hw0, hw1, fun _ he => absurd (hkept ▸ he) h0, fun _ _ => hm⟩
  rw [Kernel.settlesIn_succ, Kernel.settlesIn_succ]
  show simulation.SettlesIn 2 (delta x { x with clock := i.1, pins := i.2 })
    (delta { x with clock := i.1, pins := i.2 } (delta x { x with clock := i.1, pins := i.2 })) y
  rw [delta_first h]
  exact hy

/-- The new pins clear the control register. -/
theorem awake_cleared (hx : Settled x) (h : x.Wakes i) (hkept : x.nextRegs i ≠ x.firstRegs i) : ∃ y,
    simulation.SettlesIn 5 x { x with clock := i.1, pins := i.2 } y ∧ Awake x i y := by
  have hwe : writeEnableReg0 i.2 = false := by
    cases hwe : writeEnableReg0 i.2 with
    | false => rfl
    | true => exact absurd (by simp [Sim.nextRegs, hwe]) hkept
  have hzero : (x.nextRegs i).r32O0 = 0 := nextRegs_cleared hwe
  have hne : (x.firstRegs i).r32O0 ≠ (x.nextRegs i).r32O0 := by
    rw [hzero]
    intro h0
    exact hkept (by simp [Sim.nextRegs, hwe, ← h0])
  obtain ⟨second, hsecond⟩ : ∃ y, delta { x with clock := i.1, pins := i.2 } (x.first i) = y := ⟨_, rfl⟩
  have hclock2 : second.clock = i.1 := by rw [← hsecond]; rfl
  have hpins2 : second.pins = i.2 := by rw [← hsecond]; rfl
  have hregs2 : second.regs = x.nextRegs i := by rw [← hsecond]; exact delta_second hx
  have hwe2 : second.comb.writeEnableReg0 = writeEnableReg0 i.2 := by
    rw [← hsecond]
    show (if processEvent _ (x.first i) then _ else _ : Signals).writeEnableReg0 = _
    split <;> rfl
  have hev : processEvent (x.first i) second := by
    refine Or.inr (Or.inr (Or.inl ?_))
    rw [hregs2]
    exact hne
  have hregs3 : (delta (x.first i) second).regs = x.nextRegs i := by
    have hr : second.pins.reset = true → second.regs = ⟨0, 0, 0⟩ := by
      rw [hpins2, hregs2]
      exact nextRegs_reset hx
    have hdelta := @delta_regs (x.first i) second hclock2.symm hpins2.symm hr
      fun _ _ => by rw [hregs2]; exact hzero
    rw [hdelta, hregs2, hwe2, hwe]
    simp [Sim.nextRegs, hwe]
  obtain ⟨y, hy, hs, hc, hp, hq, hw0, hw1, hm⟩ := @settles_after_process second
    (delta (x.first i) second) i.2 (x.nextRegs i) rfl hpins2 hpins2 (by rw [hregs2]) hregs3
    (by simp only [delta, if_pos hev]; rw [hpins2, hregs2]) (nextRegs_reset hx) nextRegs_cleared
  refine ⟨y, ?_, hs, hc.trans hclock2, hp, hq, hw0, hw1, fun h0 _ => absurd hzero h0,
    fun h0 _ => absurd hzero h0⟩
  rw [Kernel.settlesIn_succ, Kernel.settlesIn_succ, Kernel.settlesIn_succ]
  show simulation.SettlesIn 2
    (delta { x with clock := i.1, pins := i.2 } (delta x { x with clock := i.1, pins := i.2 }))
    (delta (delta x { x with clock := i.1, pins := i.2 })
      (delta { x with clock := i.1, pins := i.2 } (delta x { x with clock := i.1, pins := i.2 }))) y
  rw [delta_first h, hsecond]
  exact hy

theorem awake_settles (hx : Settled x) (h : x.Wakes i) : ∃ y,
    simulation.SettlesIn maxDeltas x { x with clock := i.1, pins := i.2 } y ∧ Awake x i y := by
  by_cases hkept : x.nextRegs i = x.firstRegs i
  · by_cases h0 : (x.firstRegs i).r32O0 = x.regs.r32O0
    · obtain ⟨y, hy, ha⟩ := awake_kept hx h hkept h0
      exact ⟨y, hy.mono (by decide), ha⟩
    · obtain ⟨y, hy, ha⟩ := awake_loaded hx h hkept h0
      exact ⟨y, hy.mono (by decide), ha⟩
  · obtain ⟨y, hy, ha⟩ := awake_cleared hx h hkept
    exact ⟨y, hy.mono (by decide), ha⟩

/-- **An instant that wakes the process.** -/
theorem instant_awake (hx : Settled x) (h : x.Wakes i) : Awake x i (x.instant i) := by
  obtain ⟨y, hy, ha⟩ := awake_settles hx h
  rwa [instant_eq (Nat.le_refl _) hy]

/-- Every instant comes to rest. -/
theorem instant_settles (hx : Settled x) (i : Bool × Pins) :
    simulation.SettlesIn maxDeltas x { x with clock := i.1, pins := i.2 } (x.instant i) := by
  by_cases h : x.Wakes i
  · obtain ⟨y, hy, -⟩ := awake_settles hx h
    rwa [instant_eq (Nat.le_refl _) hy]
  · rw [instant_asleep h]
    exact (asleep_settles h).mono (by decide)

/-- **An instant is the end of its delta cycles**, however many they are. -/
theorem instant_iff (hx : Settled x) (i : Bool × Pins) (y : Sim) :
    x.instant i = y ↔ ∃ n, simulation.SettlesIn n x { x with clock := i.1, pins := i.2 } y := by
  constructor
  · rintro rfl
    exact ⟨maxDeltas, instant_settles hx i⟩
  · rintro ⟨n, h⟩
    exact (instant_settles hx i).unique h

theorem settled_instant (hx : Settled x) (i : Bool × Pins) : Settled (x.instant i) := by
  by_cases h : x.Wakes i
  · exact (instant_awake hx h).settled
  · rw [instant_asleep h]
    exact settled_asleep hx h

/-- **The run lemma**: from a settled design, every instant of every waveform settles. -/
theorem settled_run (hx : Settled x) (is : List (Bool × Pins)) : Settled (is.foldl Sim.instant x) := by
  induction is generalizing x with
  | nil => exact hx
  | cons i is ih => exact ih (settled_instant hx i)

end

end FpgaQuat.Calc
