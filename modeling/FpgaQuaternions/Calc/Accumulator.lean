import FpgaQuaternions.Calc.Product

/-!
# What can disturb the accumulator, and its sign

Over every input trace from a reset (`State.afterReset.run ps`), resets in between
included:

* the accumulator changes only one edge after a LOAD or MULT word was written to
  the control register, its strobe still asserted; the operand changes only when it
  is written; the two never change together (`accumulator_frame`);
* the sign of the accumulator is that of the exact product since the last LOAD, and
  a MULT is the exact product divided by `2 ^ 32`, never out of range
  (`accumulator_sign`).
-/

namespace FpgaQuat.Calc

open FixedPoint

/-- The registers after a trace, from a reset. -/
def after (ps : List Pins) : Regs := (State.afterReset.run ps).regs

@[simp] theorem after_nil : after [] = ⟨0, 0, 0⟩ := rfl

@[simp] theorem after_concat (ps : List Pins) (p : Pins) : after (ps ++ [p]) = (after ps).cycle p := by
  simp only [after, run_regs, List.foldl_append, List.foldl_cons, List.foldl_nil]

/-! ## Frame -/

/-- What the control register holds was written by the cycle before. -/
theorem control_written (ps : List Pins) (h : (after ps).r32O0 ≠ 0) :
    ∃ ps' p', ps = ps' ++ [p'] ∧ p'.reset = false ∧ writeEnableReg0 p' = true ∧
      (after ps).r32O0 = Word.ofBits p'.writedataint := by
  induction ps using List.reverseRecOn with
  | nil => exact absurd rfl h
  | append_singleton ps p =>
    refine ⟨ps, p, rfl, ?_⟩
    rw [after_concat] at h ⊢
    cases hr : p.reset with
    | true => rw [cycle_of_reset _ p hr] at h; exact absurd rfl h
    | false =>
      cases hw : writeEnableReg0 p with
      | true => rw [cycle_of_write0 _ p hr hw]; exact ⟨rfl, rfl, rfl⟩
      | false => rw [cycle_of_not_write0 _ p hr hw] at h; exact absurd rfl h

theorem exec_ofBits (x : BitVec 32) (a b : Word) : (Command.ofBits x).exec a b =
    if x.getLsbD 0 then if x.getLsbD 1 then a else productSlice a b else b := by
  unfold Command.ofBits
  cases x.getLsbD 1 <;> cases x.getLsbD 0 <;> rfl

/-- The step lemma: what a cycle without reset does to the accumulator. -/
theorem cycle_r32O2 (ps : List Pins) (p : Pins) (hr : p.reset = false)
    (h : (after (ps ++ [p])).r32O2 ≠ (after ps).r32O2) :
    writeEnableReg0 p = true ∧ ∃ ps' p', ps = ps' ++ [p'] ∧ p'.reset = false ∧
      writeEnableReg0 p' = true ∧ p'.writedataint.getLsbD 0 = true ∧
      (after (ps ++ [p])).r32O2 =
        if p'.writedataint.getLsbD 1 then (after ps).r32O1
        else productSlice (after ps).r32O1 (after ps).r32O2 := by
  rw [after_concat] at h ⊢
  cases hw : writeEnableReg0 p with
  | false => rw [cycle_of_not_write0 _ p hr hw] at h; exact absurd rfl h
  | true =>
    refine ⟨rfl, ?_⟩
    rw [cycle_of_write0 _ p hr hw] at h ⊢
    have hne : (after ps).r32O0 ≠ 0 := by
      intro h0; rw [command_zero _ h0] at h; exact h rfl
    obtain ⟨ps', p', rfl, hr', hw', hq⟩ := control_written ps hne
    refine ⟨ps', p', rfl, hr', hw', ?_⟩
    rw [Regs.command, hq, Word.toBits_ofBits, exec_ofBits] at h ⊢
    cases hb : p'.writedataint.getLsbD 0 with
    | false => rw [hb] at h; exact absurd rfl h
    | true => exact ⟨rfl, rfl⟩

theorem cycle_r32O1 (q : Regs) (p : Pins) (hr : p.reset = false)
    (h : (q.cycle p).r32O1 ≠ q.r32O1) : writeEnableReg0 p = false ∧ writeEnableReg1 p = true := by
  cases hw : writeEnableReg0 p with
  | true => rw [cycle_of_write0 q p hr hw] at h; exact absurd rfl h
  | false =>
    refine ⟨rfl, ?_⟩
    rw [cycle_of_not_write0 q p hr hw] at h
    cases h1 : writeEnableReg1 p with
    | true => rfl
    | false => rw [h1] at h; exact absurd rfl h

theorem writeEnableReg1_iff (p : Pins) :
    writeEnableReg1 p = true ↔ p.chipselect = true ∧ p.writeEn = true ∧ p.regselect = 1#2 := by
  rw [writeEnableReg1_eq]
  simp only [Bool.and_eq_true, decide_eq_true_eq]
  tauto

/-- A cycle that neither writes the operand nor a LOAD or MULT command: a read, a cycle
without chip select or write, an access to registers 2 and 3, a READ or no-op command. -/
def Pins.Harmless (p : Pins) : Prop :=
  p.reset = false ∧
    (p.chipselect = false ∨ p.writeEn = false ∨ p.regselect = 2#2 ∨ p.regselect = 3#2 ∨
      p.regselect = 0#2 ∧ (Command.ofBits p.writedataint = .read ∨ Command.ofBits p.writedataint = .nop))

/-- The words with bit 0 clear are those that execute nothing. -/
theorem ofBits_passive_iff (x : BitVec 32) :
    (Command.ofBits x = .read ∨ Command.ofBits x = .nop) ↔ x.getLsbD 0 = false := by
  unfold Command.ofBits
  cases x.getLsbD 1 <;> cases x.getLsbD 0 <;> simp

theorem Pins.Harmless.spec {p : Pins} (h : p.Harmless) : p.reset = false ∧ writeEnableReg1 p = false ∧
    (writeEnableReg0 p = true → p.writedataint.getLsbD 0 = false) := by
  rw [writeEnableReg0_eq, writeEnableReg1_eq]
  obtain ⟨hr, h | h | h | h | ⟨h, hc⟩⟩ := h
  · simp [hr, h]
  · simp [hr, h]
  · simp [hr, h]
  · simp [hr, h]
  · exact ⟨hr, by simp [h], fun _ => (ofBits_passive_iff _).mp hc⟩

/-- The step lemma: a harmless cycle without a LOAD or MULT to execute. -/
theorem harmless_cycle (q : Regs) (p : Pins) (h : p.Harmless)
    (hq : writeEnableReg0 p = true → q.command = .read ∨ q.command = .nop) :
    (q.cycle p).r32O1 = q.r32O1 ∧ (q.cycle p).r32O2 = q.r32O2 ∧
      ((q.cycle p).command = .read ∨ (q.cycle p).command = .nop) := by
  obtain ⟨hr, h1, h0⟩ := h.spec
  cases hw : writeEnableReg0 p with
  | false =>
    rw [cycle_of_not_write0 q p hr hw, h1]
    exact ⟨rfl, rfl, Or.inr (command_zero _ rfl)⟩
  | true =>
    have hexec : q.command.exec q.r32O1 q.r32O2 = q.r32O2 := by
      rcases hq hw with e | e <;> rw [e] <;> rfl
    rw [cycle_of_write0 q p hr hw, hexec]
    exact ⟨rfl, rfl, (ofBits_passive_iff _).mpr (h0 hw)⟩

/-- A harmless run from a control register without a pending LOAD or MULT. -/
theorem harmless_run (q : Regs) (qs : List Pins) (h : ∀ p ∈ qs, p.Harmless)
    (hq : q.command = .read ∨ q.command = .nop) :
    (qs.foldl Regs.cycle q).r32O1 = q.r32O1 ∧ (qs.foldl Regs.cycle q).r32O2 = q.r32O2 := by
  induction qs generalizing q with
  | nil => exact ⟨rfl, rfl⟩
  | cons p qs ih =>
    obtain ⟨h1, h2, hq'⟩ := harmless_cycle q p (h p List.mem_cons_self) fun _ => hq
    obtain ⟨h1', h2'⟩ := ih (q.cycle p) (fun x hx => h x (List.mem_cons_of_mem p hx)) hq'
    exact ⟨h1'.trans h1, h2'.trans h2⟩

/-- A LOAD or MULT command written by the last cycle of `ps` is still strobed by the first
cycle of `qs`. -/
def Pending (ps qs : List Pins) : Prop :=
  ∃ ps' p q qs', ps = ps' ++ [p] ∧ qs = q :: qs' ∧ writeEnableReg0 p = true ∧
    p.writedataint.getLsbD 0 = true ∧ writeEnableReg0 q = true

theorem harmless_after (ps qs : List Pins) (h : ∀ p ∈ qs, p.Harmless) (hp : ¬ Pending ps qs) :
    (after (ps ++ qs)).r32O1 = (after ps).r32O1 ∧ (after (ps ++ qs)).r32O2 = (after ps).r32O2 := by
  have hrun : after (ps ++ qs) = qs.foldl Regs.cycle (after ps) := by
    simp only [after, run_regs, List.foldl_append]
  rw [hrun]
  cases qs with
  | nil => exact ⟨rfl, rfl⟩
  | cons q qs =>
    -- a word with bit 0 set would still be strobed, that is pending
    have hpassive : writeEnableReg0 q = true → (after ps).command = .read ∨ (after ps).command = .nop := by
      intro hw
      by_cases hz : (after ps).r32O0 = 0
      · exact Or.inr (command_zero _ hz)
      · obtain ⟨ps', p, rfl, -, hw', hq⟩ := control_written ps hz
        rw [Regs.command, hq, Word.toBits_ofBits, ofBits_passive_iff]
        by_contra hb
        exact hp ⟨ps', p, q, qs, rfl, rfl, hw', by simpa using hb, hw⟩
    obtain ⟨h1, h2, hq'⟩ := harmless_cycle _ q (h q List.mem_cons_self) hpassive
    obtain ⟨h1', h2'⟩ := harmless_run _ qs (fun x hx => h x (List.mem_cons_of_mem q hx)) hq'
    exact ⟨h1'.trans h1, h2'.trans h2⟩

/-- **Nothing but a LOAD or MULT command disturbs the accumulator**, on every trace from a
reset: the accumulator changes one edge after such a word is written, while it is strobed;
the operand changes when it is written; never both; and runs of harmless cycles keep the
pair, unless a LOAD or MULT written before the run is still strobed by its first cycle
(`Pending`). -/
theorem accumulator_frame :
    (∀ ps p, p.reset = false → (after (ps ++ [p])).r32O2 ≠ (after ps).r32O2 →
      writeEnableReg0 p = true ∧ ∃ ps' p', ps = ps' ++ [p'] ∧ p'.reset = false ∧
        writeEnableReg0 p' = true ∧ p'.writedataint.getLsbD 0 = true ∧
        (after (ps ++ [p])).r32O2 =
          if p'.writedataint.getLsbD 1 then (after ps).r32O1
          else productSlice (after ps).r32O1 (after ps).r32O2) ∧
    (∀ ps p, p.reset = false → (after (ps ++ [p])).r32O1 ≠ (after ps).r32O1 →
      p.chipselect = true ∧ p.writeEn = true ∧ p.regselect = 1#2) ∧
    (∀ ps p, p.reset = false → (after (ps ++ [p])).r32O1 = (after ps).r32O1 ∨
      (after (ps ++ [p])).r32O2 = (after ps).r32O2) ∧
    (∀ ps qs, (∀ p ∈ qs, p.Harmless) → ¬ Pending ps qs →
      (after (ps ++ qs)).r32O1 = (after ps).r32O1 ∧ (after (ps ++ qs)).r32O2 = (after ps).r32O2) := by
  refine ⟨cycle_r32O2, fun ps p hr h => ?_, fun ps p hr => ?_, harmless_after⟩
  · rw [after_concat] at h
    exact (writeEnableReg1_iff p).mp (cycle_r32O1 _ p hr h).2
  · by_cases h1 : (after (ps ++ [p])).r32O1 = (after ps).r32O1
    · exact Or.inl h1
    · by_cases h2 : (after (ps ++ [p])).r32O2 = (after ps).r32O2
      · exact Or.inr h2
      · have hw := (cycle_r32O2 ps p hr h2).1
        rw [after_concat] at h1
        rw [(cycle_r32O1 _ p hr h1).1] at hw
        cases hw

/-! ## Sign and range -/

/-- The command executed at the edge that ends a cycle. -/
def Regs.executed (q : Regs) (p : Pins) : Command := (q.settle p).command

theorem cycle_executed (q : Regs) (p : Pins) (hr : p.reset = false) :
    (q.cycle p).r32O2 = (q.executed p).exec q.r32O1 q.r32O2 := by
  cases hw : writeEnableReg0 p with
  | true => rw [cycle_of_write0 q p hr hw]; simp [Regs.executed, Regs.settle, hr, hw]
  | false => rw [cycle_of_not_write0 q p hr hw]; simp [Regs.executed, Regs.settle, hr, hw, Command.exec]

theorem executed_of_reset (q : Regs) (p : Pins) (hr : p.reset = true) : q.executed p = .nop := by
  simp [Regs.executed, Regs.settle, hr]

/-- The exact product of the operand taken by the last LOAD and of the operands multiplied
since, after one more cycle; a reset forgets it. -/
def productStep (x : Option Int) (q : Regs) (p : Pins) : Option Int :=
  if p.reset then none
  else
    match q.executed p with
    | .load => some q.r32O1.toInt
    | .mult => x.map fun x => x * q.r32O1.toInt
    | .nop | .read => x

/-- The exact product after a trace from a reset, if a LOAD has been executed. -/
def exactProduct (ps : List Pins) : Option Int :=
  (ps.foldl (fun g p => (g.1.cycle p, productStep g.2 g.1 p)) (after [], none)).2

theorem exactProduct_concat (ps : List Pins) (p : Pins) :
    exactProduct (ps ++ [p]) = productStep (exactProduct ps) (after ps) p := by
  have h : ∀ ps : List Pins,
      (ps.foldl (fun g p => (g.1.cycle p, productStep g.2 g.1 p)) (after [], none)).1 = after ps := by
    intro ps
    induction ps using List.reverseRecOn with
    | nil => rfl
    | append_singleton ps p ih => rw [List.foldl_append, List.foldl_cons, ih, after_concat]; rfl
  simp only [exactProduct, List.foldl_append, List.foldl_cons, List.foldl_nil, h]

/-- The accumulator agrees in sign with `x`, unless it is zero. -/
def SignOf (x : Int) (acc : Word) : Prop := (acc.toInt < 0 → x < 0) ∧ (0 < acc.toInt → 0 < x)

/-- A multiplication keeps the sign, whatever was lost in rounding before. -/
theorem SignOf.mult {x : Int} {acc : Word} (h : SignOf x acc) (v : Word) :
    SignOf (x * v.toInt) (productSlice v acc) := by
  constructor
  · intro hneg
    rw [productSlice_neg_iff, mul_neg_iff] at hneg
    rw [mul_neg_iff]
    rcases hneg with ⟨hv, ha⟩ | ⟨hv, ha⟩
    · exact Or.inr ⟨h.1 ha, hv⟩
    · exact Or.inl ⟨h.2 ha, hv⟩
  · intro hpos
    have := product_pos_of_productSlice_pos v acc hpos
    rw [mul_pos_iff] at this ⊢
    rcases this with ⟨hv, ha⟩ | ⟨hv, ha⟩
    · exact Or.inl ⟨h.2 ha, hv⟩
    · exact Or.inr ⟨h.1 ha, hv⟩

theorem signOf_after (ps : List Pins) (x : Int) (h : exactProduct ps = some x) :
    SignOf x (after ps).r32O2 := by
  induction ps using List.reverseRecOn generalizing x with
  | nil => cases h
  | append_singleton ps p ih =>
    rw [exactProduct_concat] at h
    cases hr : p.reset with
    | true => simp [productStep, hr] at h
    | false =>
      rw [after_concat, cycle_executed _ p hr]
      cases hc : (after ps).executed p with
      | load =>
        simp only [productStep, hr, hc, Bool.false_eq_true, if_false, Option.some.injEq] at h
        subst h
        exact ⟨id, id⟩
      | mult =>
        simp only [productStep, hr, hc, Bool.false_eq_true, if_false, Option.map_eq_some_iff] at h
        obtain ⟨y, hy, rfl⟩ := h
        exact (ih y hy).mult _
      | nop => simp only [productStep, hr, hc, Bool.false_eq_true, if_false] at h; exact ih x h
      | read => simp only [productStep, hr, hc, Bool.false_eq_true, if_false] at h; exact ih x h

/-- **The accumulator has the sign of the exact product, and a MULT never wraps.**  On every
trace from a reset: once a LOAD has been executed, the accumulator is negative only if the
exact product is, and positive only if it is; and an executed MULT, its 64-bit product
exact, leaves the product divided by `2 ^ 32` and rounded down, in `[-2 ^ 30, 2 ^ 30]`. -/
theorem accumulator_sign (ps : List Pins) :
    (∀ x, exactProduct ps = some x →
      ((after ps).r32O2.toInt < 0 → x < 0) ∧ (0 < (after ps).r32O2.toInt → 0 < x)) ∧
    (∀ p, (after ps).executed p = .mult →
      (mult (after ps).r32O1 (after ps).r32O2).toInt =
        (after ps).r32O1.toInt * (after ps).r32O2.toInt ∧
      (after (ps ++ [p])).r32O2.toInt =
        (after ps).r32O1.toInt * (after ps).r32O2.toInt / 2 ^ 32 ∧
      -2 ^ 30 ≤ (after (ps ++ [p])).r32O2.toInt ∧ (after (ps ++ [p])).r32O2.toInt ≤ 2 ^ 30) := by
  refine ⟨signOf_after ps, fun p hp => ?_⟩
  have hr : p.reset = false := by
    cases hr : p.reset with
    | false => rfl
    | true => rw [executed_of_reset _ p hr] at hp; cases hp
  rw [after_concat, cycle_executed _ p hr, hp]
  exact ⟨toInt_mult _ _, toInt_productSlice _ _, productSlice_bounds _ _⟩

end FpgaQuat.Calc
