import FpgaQuaternions.Calc.Product

/-!
# Write transfers and how often a command is executed

A transfer holds chip select, write, an address and a data word for `edges`
rising edges and is followed by cycles without a write.  The control word is
taken at the first edge and executed at every later edge of the same strobe, so
a command strobed for `edges` edges is executed `edges - 1` times
(`run_transfer`): never on the single edge of a bus write without wait states,
exactly once on two.

The meaning the registers are given, each command once, is `Pair.apply`.  What
the circuit does agrees with it after every transfer exactly when each command
takes effect once (`run_transfers_eq_fold_iff`).
-/

namespace FpgaQuat.Calc

open FixedPoint

/-- One write transfer and the cycles without a write that separate it from the next. -/
structure Transfer where
  regselect : BitVec 2
  data : BitVec 32
  readEn : Bool
  edges : Nat
  edges_pos : 0 < edges
  gap : List Pins
  gap_ne : gap ≠ []
  gap_idle : ∀ p ∈ gap, p.writeEn = false ∧ p.reset = false

namespace Transfer

/-- The pins while the transfer is on the bus. -/
def strobe (t : Transfer) : Pins where
  reset := false
  chipselect := true
  regselect := t.regselect
  writeEn := true
  readEn := t.readEn
  writedataint := t.data

/-- The pins of all its cycles. -/
def cycles (t : Transfer) : List Pins := List.replicate t.edges t.strobe ++ t.gap

/-- The pins of a cycle in which the bus is idle. -/
def idlePins : Pins := ⟨false, false, 0, false, false, 0⟩

/-- A transfer of `edges` edges followed by one idle cycle. -/
def ofBus (regselect : BitVec 2) (data : BitVec 32) (edges : Nat) (h : 0 < edges) : Transfer where
  regselect := regselect
  data := data
  readEn := false
  edges := edges
  edges_pos := h
  gap := [idlePins]
  gap_ne := by simp
  gap_idle := by simp [idlePins]

end Transfer

/-- Operand and accumulator, the registers a program sees. -/
@[ext] structure Pair where
  operand : Word
  accumulator : Word
deriving DecidableEq, Repr

def Regs.pair (q : Regs) : Pair := ⟨q.r32O1, q.r32O2⟩

/-- The meaning of a transfer, with `n` executions of a command. -/
def Pair.applyTimes (n : Nat) (r : Pair) (t : Transfer) : Pair :=
  if t.regselect = 0#2 then
    { r with accumulator := ((Command.ofBits t.data).exec r.operand)^[n] r.accumulator }
  else if t.regselect = 1#2 then { r with operand := Word.ofBits t.data }
  else r

/-- **The register protocol**: a command is executed once. -/
def Pair.apply (r : Pair) (t : Transfer) : Pair := r.applyTimes 1 t

/-! ## One transfer -/

theorem writeEnableReg0_strobe (t : Transfer) :
    writeEnableReg0 t.strobe = decide (t.regselect = 0#2) := by
  simp [writeEnableReg0_eq, Transfer.strobe]

theorem writeEnableReg1_strobe (t : Transfer) :
    writeEnableReg1 t.strobe = decide (t.regselect = 1#2) := by
  simp [writeEnableReg1_eq, Transfer.strobe]

theorem command_ofBits (x : BitVec 32) (r1 r2 : Word) :
    Regs.command ⟨Word.ofBits x, r1, r2⟩ = Command.ofBits x := rfl

/-- A strobe of `n + 1` edges on a clear control register executes its command `n` times. -/
theorem strobe_cycles (t : Transfer) (q : Regs) (h0 : q.r32O0 = 0) (n : Nat) :
    (List.replicate (n + 1) t.strobe).foldl Regs.cycle q =
      ⟨if t.regselect = 0#2 then Word.ofBits t.data else 0,
        (q.pair.applyTimes n t).operand, (q.pair.applyTimes n t).accumulator⟩ := by
  induction n with
  | zero =>
    rw [List.replicate_one, List.foldl_cons, List.foldl_nil]
    cases hw : writeEnableReg0 t.strobe with
    | true =>
      have hs : t.regselect = 0#2 := by simpa [writeEnableReg0_strobe] using hw
      rw [cycle_of_write0 q _ rfl hw, command_zero q h0]
      simp [Pair.applyTimes, Regs.pair, hs, Command.exec, Transfer.strobe]
    | false =>
      have hs : t.regselect ≠ 0#2 := by simpa [writeEnableReg0_strobe] using hw
      rw [cycle_of_not_write0 q _ rfl hw, writeEnableReg1_strobe]
      by_cases h1 : t.regselect = 1#2 <;> simp [Pair.applyTimes, Regs.pair, hs, h1, Transfer.strobe]
  | succ n ih =>
    rw [List.replicate_succ', List.foldl_append, ih, List.foldl_cons, List.foldl_nil]
    cases hw : writeEnableReg0 t.strobe with
    | true =>
      have hs : t.regselect = 0#2 := by simpa [writeEnableReg0_strobe] using hw
      rw [cycle_of_write0 _ _ rfl hw, if_pos hs, command_ofBits]
      simp [Pair.applyTimes, Regs.pair, hs, Transfer.strobe, Function.iterate_succ_apply']
    | false =>
      have hs : t.regselect ≠ 0#2 := by simpa [writeEnableReg0_strobe] using hw
      rw [cycle_of_not_write0 _ _ rfl hw, writeEnableReg1_strobe]
      by_cases h1 : t.regselect = 1#2 <;> simp [Pair.applyTimes, Regs.pair, hs, h1, Transfer.strobe]

/-- A cycle without a write clears the control register and touches nothing else. -/
theorem cycle_of_idle (q : Regs) (p : Pins) (hw : p.writeEn = false) (hr : p.reset = false) :
    q.cycle p = ⟨0, q.r32O1, q.r32O2⟩ := by
  obtain ⟨h0, h1⟩ := writeEnable_of_not_writeEn p hw
  rw [cycle_of_not_write0 q p hr h0, h1]
  simp

theorem idle_cycles (q : Regs) (ps : List Pins) (hne : ps ≠ [])
    (h : ∀ p ∈ ps, p.writeEn = false ∧ p.reset = false) :
    ps.foldl Regs.cycle q = ⟨0, q.r32O1, q.r32O2⟩ := by
  induction ps generalizing q with
  | nil => exact absurd rfl hne
  | cons p ps ih =>
    obtain ⟨hw, hr⟩ := h p List.mem_cons_self
    rw [List.foldl_cons, cycle_of_idle q p hw hr]
    cases ps with
    | nil => rfl
    | cons p' ps => exact ih _ (by simp) (fun x hx => h x (List.mem_cons_of_mem p hx))

/-- **A command strobed for `edges` edges is executed `edges - 1` times.** -/
theorem run_transfer (s : State) (t : Transfer) (h0 : s.regs.r32O0 = 0) :
    (s.run t.cycles).regs.r32O0 = 0 ∧
      (s.run t.cycles).regs.pair = s.regs.pair.applyTimes (t.edges - 1) t := by
  have he : t.edges = t.edges - 1 + 1 := by have := t.edges_pos; omega
  rw [run_regs, Transfer.cycles, List.foldl_append, he, strobe_cycles t s.regs h0,
    idle_cycles _ _ t.gap_ne t.gap_idle]
  exact ⟨rfl, rfl⟩

/-! ## Sequences of transfers -/

/-- The circuit over a sequence of transfers. -/
def State.runTransfers (s : State) (ts : List Transfer) : State := s.run (ts.flatMap Transfer.cycles)

theorem runTransfers_regs (s : State) (ts : List Transfer) (h0 : s.regs.r32O0 = 0) :
    (s.runTransfers ts).regs.r32O0 = 0 ∧
      (s.runTransfers ts).regs.pair =
        ts.foldl (fun r t => r.applyTimes (t.edges - 1) t) s.regs.pair := by
  induction ts generalizing s with
  | nil => exact ⟨h0, rfl⟩
  | cons t ts ih =>
    obtain ⟨h1, h2⟩ := run_transfer s t h0
    have := ih (s.run t.cycles) h1
    rw [h2] at this
    rw [State.runTransfers, List.flatMap_cons, run_append]
    exact this

/-- Pair after the transfers, from a reset. -/
def pairAfter (ts : List Transfer) : Pair := (State.afterReset.runTransfers ts).regs.pair

theorem pairAfter_concat (ts : List Transfer) (t : Transfer) :
    pairAfter (ts ++ [t]) = (pairAfter ts).applyTimes (t.edges - 1) t := by
  simp only [pairAfter, (runTransfers_regs State.afterReset _ rfl).2, List.foldl_append,
    List.foldl_cons, List.foldl_nil]

/-! ## When a command takes effect once -/

/-- The command of a transfer takes effect once on `r`: it is strobed long enough to be
executed and not executed again, or what is missing or repeated changes nothing. -/
def Transfer.Effective (r : Pair) (t : Transfer) : Prop :=
  t.regselect = 0#2 →
    match Command.ofBits t.data with
    | .load => 2 ≤ t.edges ∨ r.accumulator = r.operand
    | .mult => t.edges = 2 ∨
        (t.edges = 1 ∧ Absorbs r.operand r.accumulator) ∨
        (3 ≤ t.edges ∧ Absorbs r.operand (productSlice r.operand r.accumulator))
    | .nop | .read => True

theorem exec_load_iterate (a b : Word) (n : Nat) : (Command.load.exec a)^[n + 1] b = a := by
  rw [Function.iterate_succ_apply']; rfl

theorem exec_mult (a : Word) : Command.mult.exec a = productSlice a := rfl

/-- The step lemma: a transfer means what it should on `r` exactly if it is effective there. -/
theorem applyTimes_eq_apply_iff (r : Pair) (t : Transfer) :
    r.applyTimes (t.edges - 1) t = r.apply t ↔ t.Effective r := by
  have hpos := t.edges_pos
  unfold Pair.apply Pair.applyTimes Transfer.Effective
  by_cases hs : t.regselect = 0#2
  · simp only [hs, if_true, Pair.mk.injEq, true_and, Function.iterate_one, forall_const]
    cases Command.ofBits t.data with
    | nop => exact iff_of_true (Function.iterate_fixed rfl _) trivial
    | read => exact iff_of_true (Function.iterate_fixed rfl _) trivial
    | load =>
      show (Command.load.exec r.operand)^[t.edges - 1] r.accumulator = r.operand ↔ _
      by_cases h1 : t.edges = 1
      · simp [h1]
      · obtain ⟨n, hn⟩ : ∃ n, t.edges - 1 = n + 1 := ⟨t.edges - 2, by omega⟩
        rw [hn, exec_load_iterate]
        simp only [true_iff]
        exact Or.inl (by omega)
    | mult =>
      rw [exec_mult]
      rcases Nat.lt_trichotomy t.edges 2 with h | h | h
      · have h1 : t.edges = 1 := by omega
        rw [h1, Nat.sub_self, Function.iterate_zero, id, eq_comm, productSlice_eq_self_iff]
        simp
      · simp [h]
      · obtain ⟨n, hn⟩ : ∃ n, t.edges = n + 3 := ⟨t.edges - 3, by omega⟩
        rw [hn, show n + 3 - 1 = n + 2 from rfl, productSlice_iterate_iff]
        simp
  · simp [hs]

/-- **Commands and their executions.**  From a reset, the registers hold what the protocol
says after every transfer of a sequence exactly if each transfer is effective on the pair
it finds. -/
theorem run_transfers_eq_fold_iff (ts : List Transfer) :
    (∀ us, us <+: ts → pairAfter us = us.foldl Pair.apply ⟨0, 0⟩) ↔
      ∀ us t, us ++ [t] <+: ts → t.Effective (us.foldl Pair.apply ⟨0, 0⟩) := by
  constructor
  · intro h us t hu
    have h1 := h us ((List.prefix_append us [t]).trans hu)
    have h2 := h (us ++ [t]) hu
    rw [pairAfter_concat, h1, List.foldl_append] at h2
    exact (applyTimes_eq_apply_iff _ t).mp h2
  · intro h us
    induction us using List.reverseRecOn with
    | nil => intro _; rfl
    | append_singleton us t ih =>
      intro hu
      rw [pairAfter_concat, ih ((List.prefix_append us [t]).trans hu), List.foldl_append]
      exact (applyTimes_eq_apply_iff _ t).mpr (h us t hu)

/-- An operand and a LOAD, each written in a single cycle: the accumulator stays zero. -/
theorem single_edge_load_lost :
    pairAfter [Transfer.ofBus 1 0x20000000 1 (by decide), Transfer.ofBus 0 3 1 (by decide)] ≠
      [Transfer.ofBus 1 0x20000000 1 (by decide), Transfer.ofBus 0 3 1 (by decide)].foldl Pair.apply
        ⟨0, 0⟩ := by
  decide

end FpgaQuat.Calc
