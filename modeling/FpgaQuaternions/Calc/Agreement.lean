import FpgaQuaternions.Calc.Waveform

/-!
# When simulation and synthesis agree

`Tracks x w` relates a simulated design just before a rising edge to what `w` records:
the registers are those of the synthesised design, the write enables those of the pins
seen last, and `mult` and `writedata_2` are what the stale flag says.  A period that is
ok keeps it (`tracks_next`); one that is not ends in samples that differ
(`sample_iff`).  By induction the samples of a waveform agree exactly if every period is
ok (`samples_agree_iff`).
-/

namespace FpgaQuat.Calc

open FixedPoint EventSim

/-! ## Synthesis -/

theorem synth_hold (c : Bool) (ps : List Pins) (y : Synth) (hc : y.clock = c) :
    ((ps.map fun p => (c, p)).foldl Synth.instant y).clock = c ∧
    ((ps.map fun p => (c, p)).foldl Synth.instant y).pins = ps.getLastD y.pins ∧
    ((ps.map fun p => (c, p)).foldl Synth.instant y).state.regs = ps.foldl Regs.settle y.state.regs := by
  induction ps generalizing y with
  | nil => exact ⟨hc, rfl, rfl⟩
  | cons p ps ih =>
    obtain ⟨h1, h2, h3⟩ := ih (y.instant (c, p)) rfl
    refine ⟨h1, ?_, ?_⟩
    · rw [List.map_cons, List.foldl_cons, h2]
      cases ps <;> rfl
    · rw [List.map_cons, List.foldl_cons, h3, List.foldl_cons]
      congr 1
      show (y.state.update (!y.clock && c) p).regs = y.state.regs.settle p
      rw [hc, Bool.not_and_self, update_false_regs]

theorem foldl_instants {σ : Type} (f : σ → Bool × Pins → σ) (d : Period) (p : Pins) (s : σ) :
    (d.instants p).foldl f s = (d.low.map fun p => (false, p)).foldl f
      (f (((d.high.map p.async).map fun p => (true, p)).foldl f (f s (true, p.async d.rise))) (false, d.fall)) := by
  simp [Period.instants, Period.rest, List.foldl_append, List.map_map, Function.comp_def]

theorem synth_period (d : Period) (y : Synth) (hc : y.clock = false) :
    ((d.instants y.pins).foldl Synth.instant y).clock = false ∧
    ((d.instants y.pins).foldl Synth.instant y).pins = d.last ∧
    ((d.instants y.pins).foldl Synth.instant y).state.regs = d.regs y.pins y.state.regs := by
  rw [foldl_instants]
  let y1 := y.instant (true, y.pins.async d.rise)
  obtain ⟨c2, -, r2⟩ := synth_hold true (d.high.map y.pins.async) y1 rfl
  let y2 := ((d.high.map y.pins.async).map fun p => (true, p)).foldl Synth.instant y1
  let y3 := y2.instant (false, d.fall)
  obtain ⟨c4, p4, r4⟩ := synth_hold false d.low y3 rfl
  refine ⟨c4, p4, ?_⟩
  have r1 : y1.state.regs = y.state.regs.clock (y.pins.async d.rise) := by
    show (y.state.update (!y.clock && true) _).regs = _
    rw [hc]
    exact update_true_regs _ _
  have r3 : y3.state.regs = y2.state.regs.settle d.fall := by
    show (y2.state.update (!y2.clock && false) _).regs = _
    rw [Bool.and_false, update_false_regs]
  rw [Period.regs, List.foldl_append, List.foldl_cons, ← r1, ← r2, ← r3, ← r4]

/-! ## Resets -/

theorem settle_zero (p : Pins) : Regs.settle ⟨0, 0, 0⟩ p = ⟨0, 0, 0⟩ := by
  unfold Regs.settle
  cases p.reset <;> cases writeEnableReg0 p <;> rfl

theorem settle_reset (q : Regs) (p : Pins) (h : p.reset = true) : q.settle p = ⟨0, 0, 0⟩ := by
  rw [Regs.settle, if_pos h]

/-- A reset between rising edges is final until the next. -/
theorem foldl_settle_zero (ps : List Pins) (q : Regs)
    (h : q = ⟨0, 0, 0⟩ ∨ ps.any Pins.reset = true) : ps.foldl Regs.settle q = ⟨0, 0, 0⟩ := by
  induction ps generalizing q with
  | nil =>
    rcases h with rfl | h
    · rfl
    · cases h
  | cons p ps ih =>
    apply ih
    rcases h with rfl | h
    · exact Or.inl (settle_zero p)
    · rw [List.any_cons, Bool.or_eq_true] at h
      rcases h with h | h
      · exact Or.inl (settle_reset q p h)
      · exact Or.inr h

theorem regs_of_resets (d : Period) (p : Pins) (q : Regs) (h : d.resets = true) :
    d.regs p q = ⟨0, 0, 0⟩ := by
  apply foldl_settle_zero
  simp only [Period.resets, Bool.or_eq_true] at h
  rcases h with ((h | h) | h) | h
  · left
    rw [Regs.clock, if_pos (show (p.async d.rise).reset = true from h)]
  · right
    have : (d.high.map p.async).any Pins.reset = true := by
      rw [List.any_map]; exact h
    rw [List.any_append, this, Bool.true_or]
  · right
    rw [List.any_append, List.any_cons, h]
    simp
  · right
    rw [List.any_append, List.any_cons, h]
    simp

section
variable {x : Sim} {i : Bool × Pins}

/-- Only a rising edge loads registers. -/
theorem firstRegs_hold (hx : Settled x) (h : (x.clock != i.1 && i.1) = false)
    (hr : i.2.reset = false) : x.firstRegs i = x.regs := by
  unfold Sim.firstRegs
  split
  · rw [h]
    ext1
    · simp only [registers, reg32Clr_hold, hr, Bool.false_or]
      cases hwe : x.comb.writeEnableReg0 with
      | true => rfl
      | false => exact (hx.cleared hwe).symm
    · simp [registers, hr]
    · simp [registers, hr]
  · rfl

theorem instant_reset (hx : Settled x) (hr : i.2.reset = true) :
    (x.instant i).regs = ⟨0, 0, 0⟩ := by
  by_cases hw : x.Wakes i
  · rw [(instant_awake hx hw).regs]
    exact nextRegs_reset hx hr
  · rw [instant_asleep hw]
    refine hx.reset ?_
    by_contra hne
    exact hw (Or.inr (Or.inl fun he => hne (he.trans hr)))

theorem instant_zero (hx : Settled x) (h : (x.clock != i.1 && i.1) = false)
    (hz : x.regs = ⟨0, 0, 0⟩) : (x.instant i).regs = ⟨0, 0, 0⟩ := by
  cases hr : i.2.reset with
  | true => exact instant_reset hx hr
  | false =>
    by_cases hw : x.Wakes i
    · rw [(instant_awake hx hw).regs, Sim.nextRegs, firstRegs_hold hx h hr, hz]
      simp
    · rw [instant_asleep hw]
      exact hz

end

theorem clock_instant {x : Sim} (hx : Settled x) (i : Bool × Pins) :
    (x.instant i).clock = i.1 ∧ (x.instant i).pins = i.2 := by
  by_cases hw : x.Wakes i
  · exact ⟨(instant_awake hx hw).clock, (instant_awake hx hw).pins⟩
  · rw [instant_asleep hw]
    refine ⟨?_, rfl⟩
    by_contra hc
    exact hw (Or.inl hc)

/-- While the clock stays as it is, a reset is final. -/
theorem hold_zero (c : Bool) (ps : List Pins) (x : Sim) (hx : Settled x) (hc : x.clock = c)
    (h : x.regs = ⟨0, 0, 0⟩ ∨ ps.any Pins.reset = true) :
    ((ps.map fun p => (c, p)).foldl Sim.instant x).regs = ⟨0, 0, 0⟩ := by
  induction ps generalizing x with
  | nil => exact h.resolve_right (by simp)
  | cons p ps ih =>
    refine ih (x.instant (c, p)) (settled_instant hx _) (clock_instant hx _).1 ?_
    rw [List.any_cons, Bool.or_eq_true] at h
    rcases h with h | h | h
    · exact Or.inl (instant_zero hx (by simp [hc]) h)
    · exact Or.inl (instant_reset hx h)
    · exact Or.inr h

theorem hold_clock (c : Bool) (ps : List Pins) (x : Sim) (hx : Settled x) (hc : x.clock = c) :
    ((ps.map fun p => (c, p)).foldl Sim.instant x).clock = c ∧
    ((ps.map fun p => (c, p)).foldl Sim.instant x).pins = ps.getLastD x.pins := by
  induction ps generalizing x with
  | nil => exact ⟨hc, rfl⟩
  | cons p ps ih =>
    obtain ⟨h1, h2⟩ := ih (x.instant (c, p)) (settled_instant hx _) (clock_instant hx _).1
    refine ⟨h1, ?_⟩
    rw [List.map_cons, List.foldl_cons, h2, (clock_instant hx _).2]
    cases ps <;> rfl

/-! ## What has been seen -/

theorem wakes_low {x : Sim} (hc : x.clock = false) (p : Pins) :
    x.Wakes (false, p) ↔ x.pins.wakes p = true := by
  simp [Sim.Wakes, Pins.wakes, hc]

/-- The write enables are those of the pins that woke the process last. -/
structure Seen (x : Sim) (seen : Pins) : Prop where
  writeEnableReg0 : x.comb.writeEnableReg0 = writeEnableReg0 seen
  writeEnableReg1 : x.comb.writeEnableReg1 = writeEnableReg1 seen

theorem seen_awake {x : Sim} {i : Bool × Pins} (hx : Settled x) (h : x.Wakes i) :
    Seen (x.instant i) i.2 :=
  ⟨(instant_awake hx h).writeEnableReg0, (instant_awake hx h).writeEnableReg1⟩

theorem seen_low (ps : List Pins) {x : Sim} (hx : Settled x) (hc : x.clock = false) {seen : Pins}
    (h : Seen x seen) : Seen ((ps.map fun p => (false, p)).foldl Sim.instant x)
      ((awakened x.pins ps).getLastD seen) := by
  induction ps generalizing x seen with
  | nil => exact h
  | cons p ps ih =>
    have hset := settled_instant hx (false, p)
    obtain ⟨hc', hp'⟩ := clock_instant hx (false, p)
    rw [List.map_cons, List.foldl_cons, awakened]
    split
    · next hw =>
      rw [List.getLastD_cons]
      have := ih hset hc' (seen_awake hx ((wakes_low hc p).mpr hw))
      rwa [hp'] at this
    · next hw =>
      have ha : ¬ x.Wakes (false, p) := fun hw' => hw ((wakes_low hc p).mp hw')
      have hseen : Seen (x.instant (false, p)) seen := by
        rw [instant_asleep ha]
        exact ⟨h.1, h.2⟩
      have := ih hset hc' hseen
      rwa [hp'] at this

/-! ## Without a reset -/

/-- A design in a low phase: the registers, the product if a command is held, and what the
accumulator would load. -/
structure Low (x : Sim) (q : Regs) (writedata2 : Word) : Prop where
  settled : Settled x
  clock : x.clock = false
  reset : x.pins.reset = false
  regs : x.regs = q
  mult : q.r32O0 ≠ 0 → x.comb.mult = mult q.r32O1 q.r32O2
  writedata2 : q.r32O0.get (-30) = true → x.comb.writedata2 = writedata2

theorem ne_zero_of_get {w : Word} (h : w.get (-30) = true) : w ≠ 0 := by
  rintro rfl
  exact absurd h (by decide)

theorem writedata2_command {q : Regs} (h : q.r32O0.get (-30) = true) (old : Word) :
    writedata2 q.r32O0 q.r32O1 (mult q.r32O1 q.r32O2) old = q.command.exec q.r32O1 q.r32O2 := by
  rw [← writedata2_exec q old, if_pos h]

theorem low_instant {x : Sim} {q : Regs} {wd : Word} (h : Low x q wd) (p : Pins)
    (hp : p.reset = false) : Low (x.instant (false, p))
      (if x.pins.wakes p then { q with r32O0 := if writeEnableReg0 p then q.r32O0 else 0 } else q)
      (if x.pins.wakes p then q.command.exec q.r32O1 q.r32O2 else wd) := by
  have hset := settled_instant h.settled (false, p)
  obtain ⟨hc', hp'⟩ := clock_instant h.settled (false, p)
  by_cases hw : x.pins.wakes p = true
  · have ha := instant_awake h.settled ((wakes_low h.clock p).mpr hw)
    have hfirst : x.firstRegs (false, p) = q := by
      rw [firstRegs_hold h.settled (by simp) hp, h.regs]
    have hnext : x.nextRegs (false, p) =
        { q with r32O0 := if writeEnableReg0 p then q.r32O0 else 0 } := by
      rw [Sim.nextRegs, hfirst]
    rw [if_pos hw, if_pos hw]
    have hkept : (if writeEnableReg0 p then q.r32O0 else 0) ≠ 0 →
        q.r32O0 ≠ 0 ∧ writeEnableReg0 p = true ∧ (x.instant (false, p)).comb = process p q x.comb := by
      intro hne
      have hwe : writeEnableReg0 p = true := by
        by_contra hwe; rw [if_neg hwe] at hne; exact hne rfl
      rw [if_pos hwe] at hne
      refine ⟨hne, hwe, ?_⟩
      have := ha.kept (by rw [hnext, if_pos hwe]; exact hne) (by rw [hnext, if_pos hwe, h.regs])
      rw [this, h.regs]
    refine ⟨hset, hc', by rw [hp']; exact hp, by rw [ha.regs, hnext], ?_, ?_⟩
    · intro hne
      rw [(hkept hne).2.2]
      rfl
    · intro hbit
      obtain ⟨hne, hwe, hcomb⟩ := hkept (ne_zero_of_get hbit)
      rw [hcomb]
      show writedata2 q.r32O0 q.r32O1 x.comb.mult x.comb.writedata2 = _
      rw [if_pos hwe] at hbit
      rw [h.mult hne, writedata2_command hbit]
  · have ha : ¬ x.Wakes (false, p) := fun hw' => hw ((wakes_low h.clock p).mp hw')
    rw [if_neg hw, if_neg hw]
    rw [instant_asleep ha] at hset hc' hp' ⊢
    exact ⟨hset, hc', hp, h.regs, h.mult, h.writedata2⟩

/-- A low phase without reset: the control register survives if every pins that wake the process
hold the strobe. -/
theorem low_run (ps : List Pins) {x : Sim} {q : Regs} {wd : Word} (h : Low x q wd)
    (hps : ∀ p ∈ ps, p.reset = false) : Low ((ps.map fun p => (false, p)).foldl Sim.instant x)
      { q with r32O0 := if (awakened x.pins ps).all writeEnableReg0 then q.r32O0 else 0 }
      (if awakened x.pins ps = [] then wd else q.command.exec q.r32O1 q.r32O2) := by
  induction ps generalizing x q wd with
  | nil => simpa [awakened] using h
  | cons p ps ih =>
    have hstep := low_instant h p (hps p (by simp))
    have hpins := (clock_instant h.settled (false, p)).2
    have := ih hstep fun p hp => hps p (by simp [hp])
    rw [hpins] at this
    rw [List.map_cons, List.foldl_cons, awakened]
    split
    · next hw =>
      rw [if_pos hw, if_pos hw] at this
      rw [if_neg (List.cons_ne_nil _ _), List.all_cons]
      cases hwe : writeEnableReg0 p with
      | true =>
        simp only [hwe, if_true, ite_self, Bool.true_and] at this ⊢
        exact this
      | false =>
        simp only [hwe, Bool.false_eq_true, if_false, ite_self, Bool.false_and] at this ⊢
        exact ⟨this.settled, this.clock, this.reset, this.regs, this.mult,
          fun hbit => absurd rfl (ne_zero_of_get hbit)⟩
    · next hw =>
      rw [if_neg hw, if_neg hw] at this
      exact this

/-! ## From one rising edge to the next -/

/-- The simulated design just before a rising edge. -/
structure Tracks (x : Sim) (w : Watch) : Prop where
  settled : Settled x
  clock : x.clock = false
  pins : x.pins = w.pins
  regs : x.regs = w.regs
  seen : Seen x w.seen
  mult : w.regs.r32O0 ≠ 0 → x.comb.mult = mult w.regs.r32O1 w.regs.r32O2
  writedata2 : w.regs.r32O0.get (-30) = true → x.comb.writedata2 =
    if w.stale then w.regs.r32O2 else w.regs.command.exec w.regs.r32O1 w.regs.r32O2

/-- The registers the simulator has after the rising edge. -/
def Watch.simulated (w : Watch) : Regs where
  r32O0 := if writeEnableReg0 w.seen && writeEnableReg0 w.pins then Word.ofBits w.pins.writedataint else 0
  r32O1 := if writeEnableReg1 w.seen then Word.ofBits w.pins.writedataint else w.regs.r32O1
  r32O2 := if w.stale then w.regs.r32O2 else w.regs.command.exec w.regs.r32O1 w.regs.r32O2

theorem exec_of_not_get {q : Regs} (h : q.r32O0.get (-30) = false) (a b : Word) :
    q.command.exec a b = b := by
  rw [(command_bits q).2] at h
  unfold Regs.command Command.ofBits
  rw [h]
  cases q.r32O0.toBits.getLsbD 1 <;> rfl

variable {x : Sim} {w : Watch}

theorem nextRegs_rise (h : Tracks x w) {a : Async} (ha : a.reset = false) :
    x.nextRegs (true, w.pins.async a) = w.simulated := by
  have hwake : x.clock ≠ true ∨ x.pins.reset ≠ (w.pins.async a).reset :=
    Or.inl (by rw [h.clock]; decide)
  have hdata : x.comb.writedata = Word.ofBits w.pins.writedataint := by
    rw [h.settled.writedata, h.pins]
  unfold Sim.nextRegs Sim.firstRegs
  rw [if_pos hwake, h.clock]
  ext1
  · show (if writeEnableReg0 w.pins then
        reg32Clr a.reset true x.comb.writeEnableReg0 x.comb.writedata x.regs.r32O0 else 0) = _
    rw [reg32Clr_edge, ha, h.seen.writeEnableReg0, hdata]
    cases h0 : writeEnableReg0 w.pins <;> cases h1 : writeEnableReg0 w.seen <;>
      simp [Watch.simulated, h0, h1]
  · show reg32Float a.reset true x.comb.writeEnableReg1 x.comb.writedata x.regs.r32O1 = _
    rw [reg32Float_edge, ha, h.seen.writeEnableReg1, hdata, h.regs]
    rfl
  · show reg32Float a.reset true x.comb.writeEnableReg2 x.comb.writedata2 x.regs.r32O2 = _
    rw [reg32Float_edge, ha, h.settled.writeEnableReg2, h.regs]
    cases hb : w.regs.r32O0.get (-30) with
    | true =>
      rw [h.writedata2 hb]
      rfl
    | false =>
      simp [Watch.simulated, exec_of_not_get hb]

/-- After the rising edge: the product is that of the new registers if the control register
changed, and that of the old ones if it did not. -/
theorem mult_rise (h : Tracks x w) {a : Async} (ha : a.reset = false) (h0 : w.simulated.r32O0 ≠ 0) :
    (x.instant (true, w.pins.async a)).comb.mult =
      if w.simulated.r32O0 = w.regs.r32O0 then mult w.regs.r32O1 w.regs.r32O2
      else mult w.simulated.r32O1 w.simulated.r32O2 := by
  have hwake : x.Wakes (true, w.pins.async a) := Or.inl (by simp [h.clock])
  have hawake := instant_awake h.settled hwake
  have hnext := nextRegs_rise h ha
  split
  · next he =>
    rw [hawake.kept (by rw [hnext]; exact h0) (by rw [hnext, h.regs]; exact he), ← h.regs]
    rfl
  · next hne =>
    rw [hawake.loaded (by rw [hnext]; exact h0) (by rw [hnext, h.regs]; exact hne), hnext]

/-- A held command has kept its operand: the two strobes exclude each other. -/
theorem operand_kept (h0 : w.simulated.r32O0 ≠ 0) : w.simulated.r32O1 = w.regs.r32O1 := by
  have hseen : writeEnableReg0 w.seen = true := by
    by_contra hne
    simp [Watch.simulated, hne] at h0
  simp [Watch.simulated, writeEnable_exclusive _ hseen]

/-- Instants that wake nothing leave the pins of the last of them. -/
theorem asleep_run (c : Bool) (ps : List Pins) {x : Sim} (hc : x.clock = c)
    (h : ∀ p ∈ ps, p.reset = x.pins.reset ∧ p.writedataint = x.pins.writedataint) :
    (ps.map fun p => (c, p)).foldl Sim.instant x = { x with pins := ps.getLastD x.pins } := by
  induction ps generalizing x with
  | nil => rfl
  | cons p ps ih =>
    obtain ⟨hr, hd⟩ := h p (by simp)
    have hw : ¬ x.Wakes (c, p) := by simp [Sim.Wakes, hc, hr, hd]
    rw [List.map_cons, List.foldl_cons, instant_asleep hw, ih (x := { x with pins := p }) hc
      fun p' hp' => by obtain ⟨h1, h2⟩ := h p' (by simp [hp']); exact ⟨h1.trans hr.symm, h2.trans hd.symm⟩]
    cases ps <;> rfl

/-- What the accumulator would load once the falling edge has run the process. -/
def Watch.loads (w : Watch) : Word :=
  if w.simulated.r32O0 = w.regs.r32O0 then w.regs.command.exec w.regs.r32O1 w.regs.r32O2
  else w.simulated.command.exec w.simulated.r32O1 w.simulated.r32O2

/-- The registers, the control register being cleared unless the strobe is `held`. -/
def Regs.keep (q : Regs) (held : Bool) : Regs := { q with r32O0 := if held then q.r32O0 else 0 }

theorem keep_keep (q : Regs) (b c : Bool) : (q.keep b).keep c = q.keep (b && c) := by
  cases b <;> cases c <;> rfl

theorem held_of_ne_zero {q : Regs} {held : Bool} (h : (q.keep held).r32O0 ≠ 0) : held = true := by
  cases held with
  | true => rfl
  | false => exact absurd rfl h

/-- Rising edge, high phase and falling edge without a reset. -/
theorem high_run (h : Tracks x w) {d : Period} (h1 : d.rise.reset = false)
    (h2 : d.high.any Async.reset = false) (h3 : d.fall.reset = false) :
    Low ((((d.high.map w.pins.async).map fun p => (true, p)).foldl Sim.instant
      (x.instant (true, w.pins.async d.rise))).instant (false, d.fall))
      (w.simulated.keep (writeEnableReg0 d.fall)) w.loads := by
  have hwake : x.Wakes (true, w.pins.async d.rise) := Or.inl (by simp [h.clock])
  have hrise := instant_awake h.settled hwake
  let x1 := x.instant (true, w.pins.async d.rise)
  have hregs1 : x1.regs = w.simulated := hrise.regs.trans (nextRegs_rise h h1)
  let x2 := ((d.high.map w.pins.async).map fun p => (true, p)).foldl Sim.instant x1
  have hx2 : x2 = { x1 with pins := (d.high.map w.pins.async).getLastD x1.pins } := by
    refine asleep_run true _ hrise.clock fun p hp => ?_
    obtain ⟨a, ha, rfl⟩ := List.mem_map.mp hp
    rw [hrise.pins]
    have : a.reset = false := by simpa using List.any_eq_false.mp h2 a ha
    exact ⟨this.trans h1.symm, rfl⟩
  have hset2 : Settled x2 := settled_run hrise.settled _
  have hclock2 : x2.clock = true := by rw [hx2]; exact hrise.clock
  have hregs2 : x2.regs = w.simulated := by rw [hx2]; exact hregs1
  have hmult2 : x2.comb.mult = x1.comb.mult := by rw [hx2]
  -- the falling edge, on whatever pins it brings
  have hfall := instant_awake hset2
    (show x2.Wakes (false, d.fall) from Or.inl (by simp [hclock2]))
  have hnext : x2.nextRegs (false, d.fall) = w.simulated.keep (writeEnableReg0 d.fall) := by
    rw [Sim.nextRegs, firstRegs_hold hset2 (by simp) h3, hregs2]
    rfl
  have hcomb : (w.simulated.keep (writeEnableReg0 d.fall)).r32O0 ≠ 0 →
      (x2.instant (false, d.fall)).comb = process d.fall w.simulated x2.comb := by
    intro h0
    have hkept : (x2.nextRegs (false, d.fall)).r32O0 = x2.regs.r32O0 := by
      rw [hnext, hregs2, held_of_ne_zero h0]
      rfl
    rw [hfall.kept (by rw [hnext]; exact h0) hkept, hregs2]
  refine ⟨hfall.settled, hfall.clock, by rw [hfall.pins]; exact h3, hfall.regs.trans hnext, ?_, ?_⟩
  · intro h0
    rw [hcomb h0]
    rfl
  · intro hbit
    have h0 := ne_zero_of_get hbit
    rw [hcomb h0]
    rw [held_of_ne_zero h0] at hbit h0
    show writedata2 w.simulated.r32O0 w.simulated.r32O1 x2.comb.mult x2.comb.writedata2 = _
    have hbit' : w.simulated.r32O0.get (-30) = true := hbit
    have h0' : w.simulated.r32O0 ≠ 0 := h0
    rw [hmult2, mult_rise h h1 h0', Watch.loads]
    split
    · next he =>
      rw [he, operand_kept h0', writedata2_command (he ▸ hbit')]
    · exact writedata2_command hbit' _

/-- The end of a period without a reset, simulated. -/
theorem period_run (h : Tracks x w) {d : Period} (hr : d.resets = false) :
    Low ((d.instants w.pins).foldl Sim.instant x)
      (w.simulated.keep ((d.fall :: awakened d.fall d.low).all writeEnableReg0))
      (if awakened d.fall d.low = [] then w.loads
       else w.simulated.command.exec w.simulated.r32O1 w.simulated.r32O2) := by
  simp only [Period.resets, Bool.or_eq_false_iff] at hr
  obtain ⟨⟨⟨h1, h2⟩, h3⟩, h4⟩ := hr
  have hlow := low_run d.low (high_run h h1 h2 h3) fun p hp => by
    simpa using List.any_eq_false.mp h4 p hp
  have hset := settled_run (settled_instant h.settled (true, w.pins.async d.rise))
    ((d.high.map w.pins.async).map fun p => (true, p))
  rw [(clock_instant hset (false, d.fall)).2] at hlow
  rw [foldl_instants]
  have hregs : ({ w.simulated.keep (writeEnableReg0 d.fall) with
      r32O0 :=
        if (awakened d.fall d.low).all writeEnableReg0 then (w.simulated.keep (writeEnableReg0 d.fall)).r32O0 else 0 } :
        Regs) =
      w.simulated.keep ((d.fall :: awakened d.fall d.low).all writeEnableReg0) :=
    keep_keep w.simulated (writeEnableReg0 d.fall) _
  rw [hregs] at hlow
  refine ⟨hlow.settled, hlow.clock, hlow.reset, hlow.regs, hlow.mult, fun hbit => ?_⟩
  have hall := held_of_ne_zero (ne_zero_of_get hbit)
  rw [List.all_cons, Bool.and_eq_true] at hall
  rw [hlow.writedata2 hbit, hall.1]
  rfl

theorem foldl_settle (ps : List Pins) (q : Regs) (h : ∀ p ∈ ps, p.reset = false) :
    ps.foldl Regs.settle q = { q with r32O0 := if ps.all writeEnableReg0 then q.r32O0 else 0 } := by
  induction ps generalizing q with
  | nil => rfl
  | cons p ps ih =>
    rw [List.foldl_cons, ih _ fun p' hp' => h p' (by simp [hp']), Regs.settle, h p (by simp),
      List.all_cons]
    cases writeEnableReg0 p <;> simp

/-- The end of a period without a reset, synthesised. -/
theorem regs_of_no_reset (d : Period) (p : Pins) (q : Regs) (hr : d.resets = false) :
    d.regs p q =
      { r32O0 := if writeEnableReg0 p && (d.fall :: d.low).all writeEnableReg0 then Word.ofBits p.writedataint else 0
        r32O1 := if writeEnableReg1 p then Word.ofBits p.writedataint else q.r32O1
        r32O2 := q.command.exec q.r32O1 q.r32O2 } := by
  simp only [Period.resets, Bool.or_eq_false_iff] at hr
  obtain ⟨⟨⟨h1, h2⟩, h3⟩, h4⟩ := hr
  have hreset : ∀ p' ∈ (d.high.map p.async) ++ d.fall :: d.low, p'.reset = false := by
    intro p' hp'
    rcases List.mem_append.mp hp' with hp' | hp'
    · obtain ⟨a, ha, rfl⟩ := List.mem_map.mp hp'
      simpa using List.any_eq_false.mp h2 a ha
    · rcases List.mem_cons.mp hp' with rfl | hp'
      · exact h3
      · simpa using List.any_eq_false.mp h4 p' hp'
  -- the strobe is what it was before the edge until the clock is low; if it was low, nothing was taken
  have hall : (if ((d.high.map p.async) ++ d.fall :: d.low).all writeEnableReg0 then
      (if writeEnableReg0 p then Word.ofBits p.writedataint else 0) else 0) =
      if writeEnableReg0 p && (d.fall :: d.low).all writeEnableReg0 then Word.ofBits p.writedataint else 0 := by
    have hhigh : (d.high.map p.async).all writeEnableReg0 = (d.high.all fun _ => writeEnableReg0 p) :=
      List.all_map
    rw [List.all_append, hhigh]
    cases writeEnableReg0 p <;> simp
  rw [← hall, Period.regs, foldl_settle _ _ hreset, Regs.clock, async_reset, h1]
  rfl

/-! ## Samples -/

/-- The end of a period with a reset, simulated: all registers are clear. -/
theorem period_resets (hx : Settled x) (d : Period) (p : Pins) (hr : d.resets = true) :
    ((d.instants p).foldl Sim.instant x).regs = ⟨0, 0, 0⟩ := by
  simp only [Period.resets, Bool.or_eq_true] at hr
  rw [foldl_instants]
  have s1 := settled_instant hx (true, p.async d.rise)
  have c1 := (clock_instant hx (true, p.async d.rise)).1
  have s2 := settled_run s1 ((d.high.map p.async).map fun p => (true, p))
  have s3 := settled_instant s2 (false, d.fall)
  have c3 := (clock_instant s2 (false, d.fall)).1
  refine hold_zero false d.low _ s3 c3 ?_
  rcases hr with ((hr | hr) | hr) | hr
  · exact Or.inl (instant_zero s2 (by simp) (hold_zero true _ _ s1 c1
      (Or.inl (instant_reset hx hr))))
  · exact Or.inl (instant_zero s2 (by simp) (hold_zero true _ _ s1 c1
      (Or.inr (by rw [List.any_map]; exact hr))))
  · exact Or.inl (instant_reset s2 hr)
  · exact Or.inr hr

/-- The samples at the end of a period agree exactly if the period is ok. -/
theorem regs_iff (h : Tracks x w) (d : Period) :
    ((d.instants w.pins).foldl Sim.instant x).regs = d.regs w.pins w.regs ↔ d.Ok w := by
  cases hr : d.resets with
  | true =>
    rw [period_resets h.settled d w.pins hr, regs_of_resets d w.pins w.regs hr]
    exact iff_of_true rfl (Or.inl hr)
  | false =>
    rw [(period_run h hr).regs, regs_of_no_reset d w.pins w.regs hr]
    have hcontrol : ∀ (held low seen now : Bool) (d : Word),
        ((if held then if seen && now then d else 0 else 0) = if now && low then d else 0) ↔
          (now = true → d = 0 ∨ low = (seen && held)) := by
      intro held low seen now d
      cases held <;> cases low <;> cases seen <;> cases now <;> simp [eq_comm]
    have hoperand : ∀ (seen now : Bool) (d r : Word),
        ((if seen then d else r) = if now then d else r) ↔ seen = now ∨ d = r := by
      intro seen now d r
      cases seen <;> cases now <;> simp [eq_comm]
    have haccumulator : ∀ (stale : Bool) (a e : Word),
        ((if stale then a else e) = e) ↔ (stale = true → e = a) := by
      intro stale a e
      cases stale <;> simp [eq_comm]
    simp only [Watch.simulated, Regs.keep, Regs.mk.injEq, Period.Ok, hr, Bool.false_eq_true, false_or, hcontrol,
      hoperand, haccumulator]
    tauto

theorem period_end (hx : Settled x) (d : Period) (p : Pins) :
    ((d.instants p).foldl Sim.instant x).clock = false ∧
    ((d.instants p).foldl Sim.instant x).pins = d.last ∧
    Seen ((d.instants p).foldl Sim.instant x) ((awakened d.fall d.low).getLastD d.fall) := by
  rw [foldl_instants]
  have s1 := settled_instant hx (true, p.async d.rise)
  have s2 := settled_run s1 ((d.high.map p.async).map fun p => (true, p))
  have c2 := (hold_clock true (d.high.map p.async) _ s1 (clock_instant hx (true, p.async d.rise)).1).1
  have s3 := settled_instant s2 (false, d.fall)
  obtain ⟨c3, p3⟩ := clock_instant s2 (false, d.fall)
  obtain ⟨c4, p4⟩ := hold_clock false d.low _ s3 c3
  have hseen := seen_low d.low s3 c3 (seen_awake s2 (i := (false, d.fall))
    (Or.inl (by rw [c2]; simp)))
  rw [p3] at p4 hseen
  exact ⟨c4, p4, hseen⟩

/-- **A period that is ok keeps the relation.** -/
theorem tracks_next (h : Tracks x w) (d : Period) (hok : d.Ok w) :
    Tracks ((d.instants w.pins).foldl Sim.instant x) (w.next d) := by
  have hregs : ((d.instants w.pins).foldl Sim.instant x).regs = (w.next d).regs := (regs_iff h d).mpr hok
  have hset := settled_run h.settled (d.instants w.pins)
  obtain ⟨hclock, hpins, hseen⟩ := period_end h.settled d w.pins
  cases hr : d.resets with
  | true =>
    have hz : (w.next d).regs = ⟨0, 0, 0⟩ := regs_of_resets d w.pins w.regs hr
    refine ⟨hset, hclock, hpins, hregs, hseen, ?_, ?_⟩
    · intro h0
      rw [hz] at h0
      exact absurd rfl h0
    · intro hbit
      rw [hz] at hbit
      exact absurd rfl (ne_zero_of_get hbit)
  | false =>
    have hlow := period_run h hr
    have hq := hlow.regs.symm.trans hregs
    rw [hq] at hlow
    refine ⟨hset, hclock, hpins, hregs, hseen, hlow.mult, ?_⟩
    intro hbit
    rw [hlow.writedata2 hbit]
    -- the control register holds something, so it is what the rising edge loaded
    have hsim : w.simulated = (w.next d).regs := by
      rw [← hq] at hbit ⊢
      rw [held_of_ne_zero (ne_zero_of_get hbit)]
      rfl
    have hexec : (w.next d).regs.r32O2 = w.regs.command.exec w.regs.r32O1 w.regs.r32O2 := by
      show (d.regs w.pins w.regs).r32O2 = _
      rw [regs_of_no_reset d w.pins w.regs hr]
    have hstale : (w.next d).stale = true ↔
        (w.next d).regs.r32O0 = w.regs.r32O0 ∧ awakened d.fall d.low = [] :=
      decide_eq_true_iff
    rw [hsim, hexec]
    by_cases hempty : awakened d.fall d.low = [] <;>
      by_cases hsame : (w.next d).regs.r32O0 = w.regs.r32O0 <;>
      simp [hstale, hempty, hsame, Watch.loads, hsim, hexec]

/-! ## Waveforms -/

/-- A synthesised design just before a rising edge. -/
structure SynthTracks (y : Synth) (w : Watch) : Prop where
  clock : y.clock = false
  pins : y.pins = w.pins
  regs : y.state.regs = w.regs

theorem sample_eq {y : Synth} (h : Settled x) (hr : x.regs = y.state.regs) : x.sample = y.sample := by
  unfold Sim.sample Synth.sample
  rw [h.readdataint, h.readdata, hr]
  rfl

theorem samplesFrom_iff {y : Synth} (hx : Tracks x w) (hy : SynthTracks y w) (ds : List Period) :
    samplesFrom Sim.instant Sim.sample x w.pins ds =
      samplesFrom Synth.instant Synth.sample y w.pins ds ↔ AllOk w ds := by
  induction ds generalizing x y w with
  | nil => exact iff_of_true rfl trivial
  | cons d ds ih =>
    obtain ⟨hc, hp, hr⟩ := synth_period d y hy.clock
    rw [hy.pins] at hc hp hr
    rw [hy.regs] at hr
    have hset := settled_run hx.settled (d.instants w.pins)
    rw [samplesFrom, samplesFrom, List.cons.injEq, AllOk]
    have hsample : ((d.instants w.pins).foldl Sim.instant x).sample =
        ((d.instants w.pins).foldl Synth.instant y).sample ↔ d.Ok w := by
      rw [← regs_iff hx d, ← hr]
      constructor
      · intro hs
        simp only [Sim.sample, Synth.sample, Sample.mk.injEq] at hs
        exact Regs.ext hs.1 hs.2.1 hs.2.2.1
      · exact sample_eq hset
    rw [hsample]
    refine and_congr_right fun hok => ?_
    exact ih (tracks_next hx d hok) ⟨hc, hp, hr⟩

theorem settled_afterReset {c : Bool} {p : Pins} (writedata2 : Word) (mult : Sfixed 1 (-62)) :
    Settled (Sim.afterReset c p writedata2 mult) := by
  constructor <;> simp [Sim.afterReset, wires]

/-- A reset asserted in either phase leads there from any settled design. -/
theorem instant_afterReset (hx : Settled x) {c : Bool} {p : Pins} (hw : x.Wakes (c, p))
    (hr : p.reset = true) : ∃ writedata2 mult, x.instant (c, p) = Sim.afterReset c p writedata2 mult := by
  have ha := instant_awake hx hw
  have hregs : (x.instant (c, p)).regs = ⟨0, 0, 0⟩ := instant_reset hx hr
  refine ⟨(x.instant (c, p)).comb.writedata2, (x.instant (c, p)).comb.mult, ?_⟩
  ext1
  · exact ha.clock
  · exact ha.pins
  · ext1
    · rw [ha.settled.writedata, ha.pins]; rfl
    · exact ha.writeEnableReg0
    · exact ha.writeEnableReg1
    · rw [ha.settled.writeEnableReg2, hregs]; rfl
    · rfl
    · rfl
    · rw [ha.settled.readdata, hregs]; rfl
    · rw [ha.settled.readdataint, ha.settled.readdata, hregs]; rfl
  · exact hregs

/-- The rest of the phase of the reset, in order. -/
theorem foldl_phase_high {σ : Type} (f : σ → Bool × Pins → σ) (p : Pins) (as : List Async) (fall : Pins)
    (ps : List Pins) (s : σ) : ((Phase.high as fall ps).instants p).foldl f s =
      (ps.map fun p => (false, p)).foldl f (f (((as.map p.async).map fun p => (true, p)).foldl f s) (false, fall)) := by
  simp [Phase.instants, List.foldl_append, List.map_map, Function.comp_def]

/-- Up to the first rising edge all registers stay clear. -/
theorem phase_end (ph : Phase) {p : Pins} (hx : Settled x) (hc : x.clock = ph.clock) (hp : x.pins = p)
    (hz : x.regs = ⟨0, 0, 0⟩) (hs : Seen x p) :
    ((ph.instants p).foldl Sim.instant x).clock = false ∧ ((ph.instants p).foldl Sim.instant x).pins = ph.last p ∧
      ((ph.instants p).foldl Sim.instant x).regs = ⟨0, 0, 0⟩ ∧ Seen ((ph.instants p).foldl Sim.instant x) (ph.seen p) := by
  cases ph with
  | low ps =>
    obtain ⟨hclock, hpins⟩ := hold_clock false ps x hx hc
    have hseen := seen_low ps hx hc hs
    rw [hp] at hpins hseen
    exact ⟨hclock, hpins, hold_zero false ps x hx hc (Or.inl hz), hseen⟩
  | high as fall ps =>
    rw [foldl_phase_high]
    have s1 := settled_run hx ((as.map p.async).map fun p => (true, p))
    have c1 := (hold_clock true (as.map p.async) x hx hc).1
    have z1 := hold_zero true (as.map p.async) x hx hc (Or.inl hz)
    have s2 := settled_instant s1 (false, fall)
    obtain ⟨c2, p2⟩ := clock_instant s1 (false, fall)
    have z2 := instant_zero s1 (i := (false, fall)) (by simp) z1
    obtain ⟨c3, p3⟩ := hold_clock false ps _ s2 c2
    have hseen := seen_low ps s2 c2 (seen_awake s1 (i := (false, fall)) (Or.inl (by rw [c1]; simp)))
    rw [p2] at p3 hseen
    exact ⟨c3, p3, hold_zero false ps _ s2 c2 (Or.inl z2), hseen⟩

theorem tracks_start (wf : Waveform) (writedata2 : Word) (mult : Sfixed 1 (-62)) :
    Tracks ((wf.phase.instants wf.start).foldl Sim.instant
      (Sim.afterReset wf.phase.clock wf.start writedata2 mult)) wf.watch := by
  have hset := settled_afterReset (c := wf.phase.clock) (p := wf.start) writedata2 mult
  obtain ⟨hclock, hpins, hregs, hseen⟩ := phase_end wf.phase hset rfl rfl rfl ⟨rfl, rfl⟩
  refine ⟨settled_run hset _, hclock, hpins, hregs, hseen, ?_, ?_⟩
  · intro h0
    exact absurd rfl h0
  · intro hbit
    exact absurd rfl (ne_zero_of_get hbit)

theorem synthTracks_start (wf : Waveform) (writedata2 : Word) :
    SynthTracks ((wf.phase.instants wf.start).foldl Synth.instant
      (Synth.afterReset wf.phase.clock wf.start writedata2)) wf.watch := by
  unfold Waveform.watch
  cases wf.phase with
  | low ps =>
    obtain ⟨hclock, hpins, hregs⟩ := synth_hold false ps (Synth.afterReset false wf.start writedata2) rfl
    exact ⟨hclock, hpins, hregs.trans (foldl_settle_zero _ _ (Or.inl rfl))⟩
  | high as fall ps =>
    rw [foldl_phase_high]
    let y1 := ((as.map wf.start.async).map fun p => (true, p)).foldl Synth.instant
      (Synth.afterReset true wf.start writedata2)
    obtain ⟨-, -, r1⟩ := synth_hold true (as.map wf.start.async) (Synth.afterReset true wf.start writedata2) rfl
    let y2 := y1.instant (false, fall)
    obtain ⟨c3, p3, r3⟩ := synth_hold false ps y2 rfl
    have r2 : y2.state.regs = y1.state.regs.settle fall := by
      show (y1.state.update (!y1.clock && false) _).regs = _
      rw [Bool.and_false, update_false_regs]
    have z1 : y1.state.regs = ⟨0, 0, 0⟩ := r1.trans (foldl_settle_zero _ _ (Or.inl rfl))
    have z2 : y2.state.regs = ⟨0, 0, 0⟩ := by rw [r2, z1, settle_zero]
    exact ⟨c3, p3, r3.trans (foldl_settle_zero _ _ (Or.inl z2))⟩

/-- **When simulation and synthesis agree.**  The samples just before the rising edges are the same
exactly if every period between them is ok. -/
theorem samples_agree_iff (wf : Waveform) (writedata2 latch : Word) (mult : Sfixed 1 (-62)) :
    wf.samples Sim.instant Sim.sample (Sim.afterReset wf.phase.clock wf.start writedata2 mult) =
      wf.samples Synth.instant Synth.sample (Synth.afterReset wf.phase.clock wf.start latch) ↔
    AllOk wf.watch wf.periods := by
  have hx := tracks_start wf writedata2 mult
  have hy := synthTracks_start wf latch
  rw [Waveform.samples, Waveform.samples, List.cons.injEq,
    sample_eq hx.settled (hx.regs.trans hy.regs.symm), eq_self_iff_true, true_and]
  exact samplesFrom_iff hx hy wf.periods

/-- Reset released, then a strobe of the operand raised with its data already on the bus. -/
def lateStrobe : Waveform where
  start := ⟨true, true, 1, false, false, 0x20000000⟩
  start_reset := rfl
  phase := .low [⟨false, true, 1, false, false, 0x20000000⟩, ⟨false, true, 1, true, false, 0x20000000⟩]
  periods := [⟨⟨false, false⟩, [], ⟨false, true, 1, true, false, 0x20000000⟩, []⟩]

/-- The simulator misses the write that the circuit takes. -/
theorem lateStrobe_differs :
    lateStrobe.samples Sim.instant Sim.sample (Sim.afterReset lateStrobe.phase.clock lateStrobe.start 0 0) ≠
      lateStrobe.samples Synth.instant Synth.sample (Synth.afterReset lateStrobe.phase.clock lateStrobe.start 0) := by
  decide +kernel

/-- The same strobe raised in the instant of a falling edge is seen: that edge wakes the process. -/
def strobeOnFall : Waveform where
  start := ⟨true, true, 1, false, false, 0x20000000⟩
  start_reset := rfl
  phase := .high [⟨false, false⟩] ⟨false, true, 1, true, false, 0x20000000⟩ []
  periods := [⟨⟨false, false⟩, [], ⟨false, true, 1, true, false, 0x20000000⟩, []⟩]

example : AllOk strobeOnFall.watch strobeOnFall.periods := by decide +kernel

end FpgaQuat.Calc
