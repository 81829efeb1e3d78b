import FpgaQuaternions.Calc.Simulation

/-!
# Simulation against synthesis

Waveforms in which chip select, register select, write enable and write data change
only while the clock is low (reset and read enable at any time), run through the event
semantics and through the synthesised reading, and sampled just before every rising
edge.  In the instant of the falling edge the clock is low already, so all pins may change
in it; in that of the rising edge only reset and read enable may.  The reset that a waveform
begins with lies in either phase of the clock (`Phase`).

The simulator sees a strobe only at an instant that wakes the process.  `Watch` follows
what it has seen, and `Period.Ok` says when that does not matter from one rising edge to
the next: the samples of both readings are the same exactly if every period is ok
(`samples_agree_iff`).
-/

namespace FpgaQuat.Calc

open FixedPoint EventSim

/-! ## Waveforms -/

/-- The pins that may change at any time. -/
structure Async where
  reset : Bool
  readEn : Bool
deriving DecidableEq, Repr

def Pins.async (p : Pins) (a : Async) : Pins := { p with reset := a.reset, readEn := a.readEn }

@[simp] theorem async_reset (p : Pins) (a : Async) : (p.async a).reset = a.reset := rfl

@[simp] theorem async_writedataint (p : Pins) (a : Async) :
    (p.async a).writedataint = p.writedataint := rfl

@[simp] theorem writeEnableReg0_async (p : Pins) (a : Async) :
    writeEnableReg0 (p.async a) = writeEnableReg0 p := rfl

@[simp] theorem writeEnableReg1_async (p : Pins) (a : Async) :
    writeEnableReg1 (p.async a) = writeEnableReg1 p := rfl

/-- From just before a rising edge to just before the next; the falling edge is the first instant of
the low phase, and all pins may change in it. -/
structure Period where
  rise : Async
  high : List Async
  fall : Pins
  low : List Pins
deriving DecidableEq, Repr

namespace Period

/-- The instants after the rising one, `p` being the pins before it. -/
def rest (d : Period) (p : Pins) : List (Bool × Pins) :=
  d.high.map (fun a => (true, p.async a)) ++ (false, d.fall) :: d.low.map (false, ·)

def instants (d : Period) (p : Pins) : List (Bool × Pins) := (true, p.async d.rise) :: d.rest p

/-- The pins at its end. -/
def last (d : Period) : Pins := d.low.getLastD d.fall

/-- Reset is asserted at some instant of the period. -/
def resets (d : Period) : Bool :=
  d.rise.reset || d.high.any Async.reset || d.fall.reset || d.low.any Pins.reset

end Period

/-- What is left, after the reset, of the phase that it lies in, up to just before the first rising
edge. -/
inductive Phase where
  | low (ps : List Pins)
  | high (as : List Async) (fall : Pins) (ps : List Pins)
deriving DecidableEq, Repr

namespace Phase

/-- The clock at the reset. -/
def clock : Phase → Bool
  | low _ => false
  | high _ _ _ => true

/-- The instants, `p` being the pins at the reset. -/
def instants (p : Pins) : Phase → List (Bool × Pins)
  | low ps => ps.map (false, ·)
  | high as fall ps => as.map (fun a => (true, p.async a)) ++ (false, fall) :: ps.map (false, ·)

/-- The pins at its end. -/
def last (p : Pins) : Phase → Pins
  | low ps => ps.getLastD p
  | high _ fall ps => ps.getLastD fall

end Phase

/-- A reset, the rest of its phase, and then whole periods. -/
structure Waveform where
  start : Pins
  start_reset : start.reset = true
  phase : Phase
  periods : List Period

/-- What is compared. -/
structure Sample where
  r32O0 : Word
  r32O1 : Word
  r32O2 : Word
  readdataint : BitVec 32
deriving DecidableEq, Repr

section
variable {σ : Type} (instant : σ → Bool × Pins → σ) (sample : σ → Sample)

/-- The samples at the ends of periods, from a state with pins `p`. -/
def samplesFrom : σ → Pins → List Period → List Sample
  | _, _, [] => []
  | s, p, d :: ds =>
    let s' := (d.instants p).foldl instant s
    sample s' :: samplesFrom s' d.last ds

/-- The samples of a waveform: just before every rising edge. -/
def Waveform.samples (wf : Waveform) (s : σ) : List Sample :=
  let s' := (wf.phase.instants wf.start).foldl instant s
  sample s' :: samplesFrom instant sample s' (wf.phase.last wf.start) wf.periods

end

/-! ## The two readings -/

/-- The simulated design after a reset: `mult` and `writedata_2` may hold anything. -/
def Sim.afterReset (clock : Bool) (p : Pins) (writedata2 : Word) (mult : Sfixed 1 (-62)) : Sim where
  clock
  pins := p
  comb := { wires p ⟨0, 0, 0⟩ 0 with writedata2 := writedata2, mult := mult }
  regs := ⟨0, 0, 0⟩

def Sim.sample (x : Sim) : Sample :=
  ⟨x.regs.r32O0, x.regs.r32O1, x.regs.r32O2, x.comb.readdataint⟩

/-- The synthesised design with its inputs. -/
structure Synth where
  clock : Bool
  pins : Pins
  state : State
deriving DecidableEq, Repr

namespace Synth

/-- After a reset; the latch `writedata_2` may hold anything. -/
def afterReset (clock : Bool) (p : Pins) (writedata2 : Word) : Synth := ⟨clock, p, ⟨⟨0, 0, 0⟩, writedata2⟩⟩

def instant (y : Synth) (i : Bool × Pins) : Synth :=
  ⟨i.1, i.2, y.state.update (!y.clock && i.1) i.2⟩

def sample (y : Synth) : Sample :=
  ⟨y.state.regs.r32O0, y.state.regs.r32O1, y.state.regs.r32O2, (y.state.wires y.pins).readdataint⟩

end Synth

/-! ## What the simulator has seen -/

/-- Whether the change from `p` to `p'`, the clock staying low, wakes the process. -/
def Pins.wakes (p p' : Pins) : Bool := p.reset != p'.reset || p.writedataint != p'.writedataint

/-- The pins at the instants of a low phase that wake the process. -/
def awakened : Pins → List Pins → List Pins
  | _, [] => []
  | p, p' :: ps => if p.wakes p' then p' :: awakened p' ps else awakened p' ps

/-- The state just before a rising edge, as far as it decides whether simulation and synthesis
agree afterwards: `seen` are the pins when the process last ran, and `stale` says that the control
register holds what it held at the last such edge and the process has only run on the falling edge
since. -/
structure Watch where
  regs : Regs
  pins : Pins
  seen : Pins
  stale : Bool
deriving DecidableEq, Repr

/-- The registers after a period, synthesised. -/
def Period.regs (d : Period) (p : Pins) (q : Regs) : Regs :=
  ((d.high.map p.async) ++ d.fall :: d.low).foldl Regs.settle (q.clock (p.async d.rise))

def Watch.next (w : Watch) (d : Period) : Watch where
  regs := d.regs w.pins w.regs
  pins := d.last
  seen := (awakened d.fall d.low).getLastD d.fall
  stale := (d.regs w.pins w.regs).r32O0 = w.regs.r32O0 ∧ awakened d.fall d.low = []

/-- The pins that woke the process last; the falling edge always does. -/
def Phase.seen (p : Pins) : Phase → Pins
  | low ps => (awakened p ps).getLastD p
  | high _ fall ps => (awakened fall ps).getLastD fall

def Waveform.watch (wf : Waveform) : Watch where
  regs := ⟨0, 0, 0⟩
  pins := wf.phase.last wf.start
  seen := wf.phase.seen wf.start
  stale := false

/-- Simulation and synthesis agree at the end of a period that starts as `w` says: reset is
asserted in it; or

* the operand strobe has been seen as it is, or the operand holds the data already,
* a command executed with a stale product would leave the accumulator alone,
* if a control write is on the bus, its word is zero, or the strobe has been seen and is held from the
  falling edge on, or both readings have lost it before the end of the period. -/
def Period.Ok (w : Watch) (d : Period) : Prop :=
  d.resets = true ∨
    (writeEnableReg1 w.seen = writeEnableReg1 w.pins ∨
      Word.ofBits w.pins.writedataint = w.regs.r32O1) ∧
    (w.stale = true → w.regs.command.exec w.regs.r32O1 w.regs.r32O2 = w.regs.r32O2) ∧
    (writeEnableReg0 w.pins = true → Word.ofBits w.pins.writedataint = 0 ∨
      (d.fall :: d.low).all writeEnableReg0 = (writeEnableReg0 w.seen &&
        (d.fall :: awakened d.fall d.low).all writeEnableReg0))

instance (w : Watch) (d : Period) : Decidable (d.Ok w) :=
  inferInstanceAs (Decidable (_ ∨ (_ ∨ _) ∧ (_ → _) ∧ (_ → _ ∨ _)))

/-- Every period is ok. -/
def AllOk : Watch → List Period → Prop
  | _, [] => True
  | w, d :: ds => d.Ok w ∧ AllOk (w.next d) ds

instance decidableAllOk : (w : Watch) → (ds : List Period) → Decidable (AllOk w ds)
  | _, [] => isTrue trivial
  | w, d :: ds =>
    have := decidableAllOk (w.next d) ds
    inferInstanceAs (Decidable (d.Ok w ∧ AllOk (w.next d) ds))

end FpgaQuat.Calc
