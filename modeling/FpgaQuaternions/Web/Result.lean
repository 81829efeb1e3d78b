import FpgaQuaternions.Fpu.Run
import FpgaQuaternions.Web.Interface

/-!
# The result register of web_interface

The FPU behind the three registers: its operands are `value_1` and `value_2`, its operation
the low bits of the third register, `rmode_i` is tied to `"00"` and `start_i` to `'0'`.  The core is
therefore never started, and address 11 shows the result of an operation exactly where the core
needs no start for it (`delivers_iff`).
-/

namespace FpgaQuat.Web

open StdLogic Fpu

structure Interface where
  regs : Regs
  core : Core

namespace Interface

def powerUp : Interface := ⟨.powerUp, .powerUp⟩

/-- The port map of `FPU_EXT`. -/
def fpuPorts (q : Regs) : Ports where
  opaI := q.value1
  opbI := q.value2
  fpuOpI := slice q.operation 2 0
  rmodeI := 0b00
  startI := some false

def step (s : Interface) (x : Instant) : Interface where
  regs := s.regs.step x
  core := if x.clockEdge then Core.step (fpuPorts s.regs) s.core else s.core

def run (s : Interface) (t : List Instant) : Interface := t.foldl step s

/-- `READDATA`, the result coming from the FPU. -/
def read (s : Interface) (p : Pins) : Vec 32 := readdata p s.regs s.core.outputO

theorem run_regs (s : Interface) (t : List Instant) : (s.run t).regs = s.regs.run t := by
  induction t generalizing s with
  | nil => rfl
  | cons x t ih => exact ih (s.step x)

/-- No instant starts the core. -/
theorem run_idle (t : List Instant) : (powerUp.run t).core.Idle := by
  induction t using List.reverseRecOn with
  | nil => exact Core.idle_powerUp
  | append_singleton t x ih =>
    have hrun : powerUp.run (t ++ [x]) = (powerUp.run t).step x := List.foldl_concat ..
    rw [hrun, step]
    dsimp only
    split
    · exact ih.step nofun
    · exact ih

/-- While the registers keep their contents the core sees nothing but edges. -/
theorem run_held (s : Interface) (t : List Instant) (h : ∀ n, s.regs.run (t.take n) = s.regs) :
    (s.run t).core = (Core.step (fpuPorts s.regs))^[t.countP (·.clockEdge)] s.core := by
  induction t generalizing s with
  | nil => rfl
  | cons x t ih =>
    have hx : (s.step x).regs = s.regs := h 1
    have hrest : ∀ n, (s.step x).regs.run (t.take n) = (s.step x).regs := fun n => by
      rw [hx]
      calc
        s.regs.run (t.take n) = (s.step x).regs.run (t.take n) := by rw [hx]
        _ = s.regs := h (n + 1)
    have hcore : (s.run (x :: t)).core = ((s.step x).run t).core := rfl
    rw [hcore, ih (s.step x) hrest, hx, List.countP_cons]
    cases hc : x.clockEdge with
    | true => simp [step, hc]
    | false => simp [step, hc]

/-- The registers after the writes. -/
theorem regs_of_writes {t : List Instant} {a b oper : BitVec 32} (h0 : lastWrite 0 t = some a)
    (h1 : lastWrite 1 t = some b) (h2 : lastWrite 2 t = some oper) :
    Regs.powerUp.run t = ⟨some a, some b, some oper⟩ := by
  refine get_ext fun i => ?_
  match i with
  | 0 => rw [run_get, h0]; rfl
  | 1 => rw [run_get, h1]; rfl
  | 2 => rw [run_get, h2]; rfl

/-- A read of address 11, the operands having been held for 40 edges. -/
theorem read_result {t t' : List Instant} {a b oper : BitVec 32} {p : Pins}
    (hregs : Regs.powerUp.run t = ⟨some a, some b, some oper⟩)
    (hkept : ∀ n, Regs.powerUp.run (t ++ t'.take n) = Regs.powerUp.run t)
    (hedges : 40 ≤ t'.countP (·.clockEdge)) (hcs : p.cs = true) (hrst : p.rst = true) (hread : p.readEn = true)
    (hadd : p.add = 0b1011) :
    (powerUp.run (t ++ t')).read p = Core.unstarted a b (oper.extractLsb 2 0) := by
  have hafter : powerUp.run (t ++ t') = (powerUp.run t).run t' := List.foldl_append ..
  have hstart : (powerUp.run t).regs = ⟨some a, some b, some oper⟩ := (run_regs powerUp t).trans hregs
  have hheld : ∀ n, (powerUp.run t).regs.run (t'.take n) = (powerUp.run t).regs := fun n => by
    rw [run_regs]
    exact (List.foldl_append ..).symm.trans (hkept n)
  have hports : fpuPorts (powerUp.run t).regs = Core.ports a b (oper.extractLsb 2 0) false := by
    rw [hstart]
    rfl
  have hresult : (powerUp.run (t ++ t')).read p = (powerUp.run (t ++ t')).core.outputO := by
    simp [read, readdata, hcs, hrst, hread, hadd]
  rw [hresult, hafter, run_held _ _ hheld, hports]
  exact Core.idle_shows (run_idle t) a b _ hedges

/-- **Address 11 shows the word that a started core delivers exactly where no start is needed.**
The operands and the code are written in any order after anything else, and kept for 40 edges of
the clock; `c` is what the core that is started was before. -/
theorem delivers_iff {t t' : List Instant} {a b oper : BitVec 32} {p : Pins} (c : Core)
    (h0 : lastWrite 0 t = some a) (h1 : lastWrite 1 t = some b) (h2 : lastWrite 2 t = some oper)
    (hop : (oper.extractLsb 2 0).toNat ≤ 4)
    (hkept : ∀ n, Regs.powerUp.run (t ++ t'.take n) = Regs.powerUp.run t)
    (hedges : 40 ≤ t'.countP (·.clockEdge)) (hcs : p.cs = true) (hrst : p.rst = true) (hread : p.readEn = true)
    (hadd : p.add = 0b1011) :
    (∃ w, Core.delivered c a b (oper.extractLsb 2 0) = some w ∧ (powerUp.run (t ++ t')).read p = some w) ↔
      Core.NeedsNoStart a b (oper.extractLsb 2 0) := by
  rw [read_result (regs_of_writes h0 h1 h2) hkept hedges hcs hrst hread hadd]
  exact Core.agrees_iff c a b hop

/-- A reset and the three writes. -/
def load (a b oper : BitVec 32) : List Instant :=
  [⟨false, ⟨false, false, false, false, 0, 0⟩⟩, ⟨true, ⟨true, true, false, true, 0, a⟩⟩,
    ⟨true, ⟨true, true, false, true, 1, b⟩⟩, ⟨true, ⟨true, true, false, true, 2, oper⟩⟩]

/-- The pins of a read of address 11. -/
def readResult : Pins := ⟨true, true, true, false, 0b1011, 0⟩

/-- Forty edges of them. -/
def hold : List Instant := List.replicate 40 ⟨true, readResult⟩

theorem hold_kept (q : Regs) (n : Nat) : q.run (hold.take n) = q := by
  rw [hold, List.take_replicate]
  induction min n 40 with
  | zero => rfl
  | succ k ih =>
    have hx : q.step ⟨true, readResult⟩ = q := step_of_not_writes rfl fun i h => absurd h.2.2.1 (by decide)
    rw [List.replicate_succ, Regs.run, List.foldl_cons, hx]
    exact ih

theorem load_hold_kept (a b oper : BitVec 32) (n : Nat) :
    Regs.powerUp.run (load a b oper ++ hold.take n) = Regs.powerUp.run (load a b oper) :=
  (List.foldl_append ..).trans (hold_kept _ n)

/-- One and two, to be added. -/
theorem delivers_sum :
    ∃ w, Core.delivered .powerUp 0x3F800000 0x40000000 0b000 = some w ∧
      (powerUp.run (load 0x3F800000 0x40000000 0 ++ hold)).read readResult = some w := by
  have hcode : (0#32).extractLsb 2 0 = 0b000 := rfl
  rw [← hcode]
  exact (delivers_iff .powerUp rfl rfl rfl (by decide) (load_hold_kept _ _ _) (by decide) rfl rfl rfl rfl).mpr (.inl rfl)

/-- Two by three: a started core delivers a word, and address 11 shows none. -/
theorem product_not_shown :
    lastWrite 0 (load 0x40000000 0x40400000 2) = some 0x40000000 ∧
      lastWrite 1 (load 0x40000000 0x40400000 2) = some 0x40400000 ∧
      lastWrite 2 (load 0x40000000 0x40400000 2) = some 0b010 ∧
      (∀ n, Regs.powerUp.run (load 0x40000000 0x40400000 2 ++ hold.take n) =
        Regs.powerUp.run (load 0x40000000 0x40400000 2)) ∧
      40 ≤ hold.countP (·.clockEdge) ∧
      (Core.delivered .powerUp 0x40000000 0x40400000 0b010).isSome ∧
      (powerUp.run (load 0x40000000 0x40400000 2 ++ hold)).read readResult = none := by
  refine ⟨rfl, rfl, rfl, load_hold_kept _ _ _, by decide, (Core.delivered_shows _ _ _ _).1, ?_⟩
  rw [read_result (regs_of_writes rfl rfl rfl) (load_hold_kept _ _ _) (by decide) rfl rfl rfl rfl]
  rfl

end Interface

end FpgaQuat.Web
