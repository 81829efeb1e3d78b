import FpgaQuaternions.Fpu.Core

/-!
# Runs of the FPU with the operands held

`unstarted` is what the core shows for two operands when no start was ever given.  After a
start it shows a word, the same one wherever `unstarted` is a word (`pulsed_output`).

    add, subtract    the datapath has no start input: both show its settled value
    multiply         without a start only what the operands decide alone
    divide           likewise; that includes zero by a finite number
    square root      likewise
-/

namespace FpgaQuat.Fpu

open StdLogic Pipeline

/-- The operands are at the ports, rounded to the nearest even. -/
structure Ports.Hold (a b : BitVec 32) (op : BitVec 3) (i : Ports) : Prop where
  opa : i.opaI = some a
  opb : i.opbI = some b
  fpuOp : i.fpuOpI = some op
  rmode : i.rmodeI = 0b00

namespace Core

def IsRun (i : Nat → Ports) (s : Nat → Core) : Prop := ∀ n, s (n + 1) = step (i n) (s n)

/-- The input registers hold the operands. -/
structure Inputs (a b : BitVec 32) (op : BitVec 3) (s : Core) : Prop where
  opa : s.sOpaI = some a
  opb : s.sOpbI = some b
  fpuOp : s.sFpuOpI = some op
  rmode : s.sRmodeI = 0b00

section
variable {i : Nat → Ports} {s : Nat → Core} {a b : BitVec 32} {op : BitVec 3} {t : Nat}

theorem inputs (hs : IsRun i s) (hi : After t fun n => (i n).Hold a b op) :
    After (t + 1) fun n => (s n).Inputs a b op :=
  hi.edge fun n h => by
    rw [hs n]
    exact ⟨h.opa, h.opb, h.fpuOp, h.rmode⟩

/-- The last two stages of registers. -/
theorem output_of_unit (hs : IsRun i s) (hi : After 0 fun n => (i n).Hold a b op) {P : Vec 32 → Prop} (ht : 1 ≤ t)
    (hunit : After t fun n => P (output1 (i n) (s n))) : After (t + 2) fun n => P (s n).outputO := by
  have h1 : After (t + 1) fun n => P (s n).sOutput1 := hunit.edge fun n h => by
    rw [hs n]
    exact h
  have hin : After (t + 1) fun n => (s n).Inputs a b op := (inputs hs hi).mono (by omega)
  refine (h1.and hin).edge fun n h => ?_
  rw [hs n]
  have hout : (step (i n) (s n)).outputO = (s n).sOutput1 := if_pos (.inl h.2.rmode)
  rw [hout]
  exact h.1

end

/-! ## Addition and subtraction -/

section
variable (a b : BitVec 32) (op : BitVec 3)

/-- `pre_norm_addsub` with the operands settled. -/
def settledPre : PreNormAddsub := (PreNormAddsub.step (some a, some b))^[2] .powerUp

def addsubIn : Addsub28In where
  fpuOpI := bit (some op) 0
  fractaI := (settledPre a b).fracta28O
  fractbI := (settledPre a b).fractb28O
  signaI := bit (some a) 31
  signbI := bit (some b) 31

def settledSum : Addsub28 := (Addsub28.step (addsubIn a b op))^[1] .powerUp

def postIn : PostNormAddsubIn where
  opaI := some a
  opbI := some b
  fract28I := (settledSum a b op).fractO
  expI := (settledPre a b).expO
  signI := (settledSum a b op).signO
  fpuOpI := bit (some op) 0
  rmodeI := 0b00

/-- What the adder settles at. -/
def addSub : Vec 32 := ((PostNormAddsub.step (postIn a b op))^[3] .powerUp).outputO

theorem isSome_settledPre : (settledPre a b).fracta28O.isSome ∧ (settledPre a b).fractb28O.isSome ∧
    (settledPre a b).expO.isSome := by
  obtain ⟨hexp, hdiff⟩ := PreNormAddsub.isSome_expDiff (i := (some a, some b)) rfl rfl .powerUp
  obtain ⟨ha, hb⟩ := PreNormAddsub.isSome_fract (i := (some a, some b)) rfl rfl hdiff
  exact ⟨ha, hb, hexp⟩

theorem isSome_addSub : (addSub a b op).isSome := by
  obtain ⟨ha, hb, hexp⟩ := isSome_settledPre a b
  obtain ⟨hfract, hsign⟩ := Addsub28.isSome_step (i := addsubIn a b op) ha hb rfl rfl rfl .powerUp
  obtain ⟨hshr, hshl, hexpo⟩ := PostNormAddsub.allSome_stage1 (i := postIn a b op) hfract hexp
  have hfracto := PostNormAddsub.isSome_fracto281 (i := postIn a b op)
    (s := PostNormAddsub.step (postIn a b op) .powerUp) hfract hshr hshl
  exact PostNormAddsub.isSome_sOutputO (i := postIn a b op) rfl rfl hsign hexpo hfracto

end

section
variable {i : Nat → Ports} {s : Nat → Core} {a b : BitVec 32} {op : BitVec 3} {t : Nat}

theorem addSub_settles (hs : IsRun i s) (hi : After t fun n => (i n).Hold a b op) :
    After (t + 7) fun n => (s n).postNormAddsub.outputO = addSub a b op := by
  have hin := inputs hs hi
  have hpre : After (t + 3) fun n => (s n).preNormAddsub = settledPre a b :=
    (PreNormAddsub.forgets (some a, some b)).settles (i := fun n => ((s n).sOpaI, (s n).sOpbI))
      (fun n => by rw [hs n]; rfl) (hin.imp fun n h => by rw [h.opa, h.opb]) .powerUp
  have hsum : After (t + 4) fun n => (s n).addsub = settledSum a b op :=
    (Addsub28.forgets (addsubIn a b op)).settles (i := fun n => {
        fpuOpI := bit (s n).sFpuOpI 0
        fractaI := (s n).preNormAddsub.fracta28O
        fractbI := (s n).preNormAddsub.fractb28O
        signaI := bit (s n).sOpaI 31
        signbI := bit (s n).sOpbI 31 })
      (fun n => by rw [hs n]; rfl)
      (((hin.mono (by omega)).and hpre).imp fun n h => by rw [h.1.opa, h.1.opb, h.1.fpuOp, h.2]; rfl) .powerUp
  have hpost : After (t + 7) fun n => (s n).postNormAddsub = (PostNormAddsub.step (postIn a b op))^[3] .powerUp :=
    (PostNormAddsub.forgets (postIn a b op)).settles (i := fun n => {
        opaI := (s n).sOpaI
        opbI := (s n).sOpbI
        fract28I := (s n).addsub.fractO
        expI := (s n).preNormAddsub.expO
        signI := (s n).addsub.signO
        fpuOpI := bit (s n).sFpuOpI 0
        rmodeI := (s n).sRmodeI })
      (fun n => by rw [hs n]; rfl)
      (((hin.mono (by omega)).and ((hpre.mono (by omega)).and hsum)).imp fun n h => by
        rw [h.1.opa, h.1.opb, h.1.fpuOp, h.1.rmode, h.2.1, h.2.2]
        rfl)
      .powerUp
  exact hpost.imp fun n h => congrArg PostNormAddsub.outputO h

end

/-! ## Without a start -/

/-- The core before its first start. -/
structure Idle (s : Core) : Prop where
  start : s.sStartI ≠ some true
  mul24 : s.mul24.Idle
  postNormMul : s.postNormMul.Blank
  serialDiv : s.serialDiv.Idle
  postNormDiv : s.postNormDiv.Blank
  sqrt : s.sqrt.Idle
  postNormSqrt : s.postNormSqrt.Blank

theorem idle_powerUp : powerUp.Idle :=
  ⟨nofun, Mul24.idle_powerUp, PostNormMul.blank_powerUp, SerialDiv.idle_powerUp, PostNormDiv.blank_powerUp,
    Sqrt.idle_powerUp, PostNormSqrt.blank_powerUp⟩

theorem Idle.step {s : Core} (h : s.Idle) {i : Ports} (hi : i.startI ≠ some true) : (step i s).Idle where
  start := hi
  mul24 := h.mul24.step hi
  postNormMul := h.postNormMul.step h.mul24.fractO
  serialDiv := h.serialDiv.step h.start
  postNormDiv := h.postNormDiv.step h.serialDiv.qutnt h.serialDiv.rmndr
  sqrt := h.sqrt.step _ h.start
  postNormSqrt := h.postNormSqrt.step h.sqrt.sqrO

/-- The sign of a product or a quotient. -/
def signOf (a b : BitVec 32) : Bit := lxor (bit (some a) 31) (bit (some b) 31)

/-- What the core shows for the operands without a start. -/
def unstarted (a b : BitVec 32) (op : BitVec 3) : Vec 32 :=
  if op = 0b000 ∨ op = 0b001 then addSub a b op
  else if op = 0b010 then PostNormMul.special (some a) (some b) (signOf a b)
  else if op = 0b011 then PostNormDiv.special (some a) (some b) (signOf a b)
  else if op = 0b100 then PostNormSqrt.special (some a)
  else 0

section
variable {i : Nat → Ports} {s : Nat → Core} {a b : BitVec 32} {op : BitVec 3}

theorem mul_operands (hs : IsRun i s) (hi : After 0 fun n => (i n).Hold a b op) :
    After 3 fun n => (s n).postNormMul.Operands (some a) (some b) ∧ (s n).postNormMul.sSignI = signOf a b := by
  have hin := inputs hs hi
  have hops : After 2 fun n => (s n).postNormMul.Operands (some a) (some b) := hin.edge fun n h => by
    rw [hs n]
    exact ⟨h.opa, h.opb, by rw [← h.opa]; rfl, by rw [← h.opb]; rfl⟩
  have hsign : After 2 fun n => (s n).mul24.signO = signOf a b := hin.edge fun n h => by
    rw [hs n, signOf, ← h.opa, ← h.opb]
    rfl
  exact (hops.mono (by omega)).and (hsign.edge fun n h => by rw [hs n]; exact h)

theorem div_operands (hs : IsRun i s) (hi : After 0 fun n => (i n).Hold a b op) :
    After 2 fun n => (s n).postNormDiv.Operands (some a) (some b) ∧ (s n).postNormDiv.sSignI = signOf a b :=
  (inputs hs hi).edge fun n h => by
    rw [hs n]
    exact ⟨⟨h.opa, h.opb, by rw [← h.opa]; rfl, by rw [← h.opb]; rfl⟩, by rw [signOf, ← h.opa, ← h.opb]; rfl⟩

theorem sqrt_operands (hs : IsRun i s) (hi : After 0 fun n => (i n).Hold a b op) :
    After 2 fun n => (s n).postNormSqrt.Operands (some a) :=
  (inputs hs hi).edge fun n h => by
    rw [hs n]
    exact ⟨h.opa, by rw [← h.opa]; rfl, by rw [← h.opa]; rfl⟩

/-- **Without a start** the core shows `unstarted` once the operands have come through. -/
theorem idle_output (hs : IsRun i s) (hi : After 0 fun n => (i n).Hold a b op) (hidle : ∀ n, (s n).Idle) :
    After 9 fun n => (s n).outputO = unstarted a b op := by
  refine output_of_unit hs hi (t := 7) (P := fun v => v = unstarted a b op) (by omega) ?_
  have hadd := addSub_settles hs hi
  have hmul : After 7 fun n => (s n).postNormMul.outputO = PostNormMul.special (some a) (some b) (signOf a b) :=
    ((mul_operands hs hi).edge fun n h => by
      rw [hs n, ← h.2]
      exact PostNormMul.sOutputO_of_blank h.1 (hidle n).postNormMul).mono (by omega)
  have hdiv : After 7 fun n => (s n).postNormDiv.outputO = PostNormDiv.special (some a) (some b) (signOf a b) :=
    ((div_operands hs hi).edge fun n h => by
      rw [hs n, ← h.2]
      exact PostNormDiv.sOutputO_of_blank h.1 (hidle n).postNormDiv).mono (by omega)
  have hsqrt : After 7 fun n => (s n).postNormSqrt.outputO = PostNormSqrt.special (some a) :=
    ((sqrt_operands hs hi).edge fun n h => by
      rw [hs n]
      exact PostNormSqrt.sOutputO_of_blank h (hidle n).postNormSqrt).mono (by omega)
  intro n hn
  have hop : (i n).fpuOpI = some op := (hi n (by omega)).fpuOp
  simp only [output1, unstarted, hop, hadd n (by omega), hmul n hn, hdiv n hn, hsqrt n hn, some_eq_ofNat]

end

/-! ## After a start -/

/-- A word, and the one that shows without a start where that is a word too. -/
def Shows (special out : Vec 32) : Prop := out.isSome ∧ (special.isSome → out = special)

section
variable {i : Nat → Ports} {s : Nat → Core} {a b : BitVec 32} {op : BitVec 3}

theorem exp10_settles (hs : IsRun i s) (hi : After 0 fun n => (i n).Hold a b op) :
    After 4 fun n => (s n).preNormDiv.exp10O =
      expIn (some a) - expIn (some b) + 0b0001111111 - ((0 : Vec 4) ++ countLZeros (fract24 (some a))) +
        ((0 : Vec 4) ++ countLZeros (fract24 (some b))) :=
  ((PreNormDiv.forgets (some a, some b)).settles (s := fun n => (s n).preNormDiv)
    (i := fun n => ((s n).sOpaI, (s n).sOpbI)) (fun n => by rw [hs n]; rfl)
    ((inputs hs hi).imp fun n h => by rw [h.opa, h.opb]) .powerUp).imp fun n h => congrArg PreNormDiv.exp10O h

theorem isSome_exp10 (a b : BitVec 32) :
    (expIn (some a) - expIn (some b) + 0b0001111111 - ((0 : Vec 4) ++ countLZeros (fract24 (some a))) +
      ((0 : Vec 4) ++ countLZeros (fract24 (some b)))).isSome := by
  simp [expIn]

theorem mul24_quiet {s : Core} (h : s.Inputs a b op) {i : Ports} (hi : i.startI ≠ some true) :
    Mul24In.Quiet {
      fractaI := fract24 s.sOpaI
      fractbI := fract24 s.sOpbI
      signaI := bit s.sOpaI 31
      signbI := bit s.sOpbI 31
      startI := i.startI } :=
  ⟨hi, by rw [h.opa]; rfl, by rw [h.opb]; rfl⟩

/-- A start at the ports reaches the serial units two edges later. -/
theorem serial_start (hs : IsRun i s) (hstart : (i 0).startI = some true) :
    (s 2).serialDiv.sStartI = some true ∧ (s 2).sqrt.sStartI = some true := by
  have h1 : (s 1).sStartI = some true := by
    rw [hs 0]
    exact hstart
  rw [hs 1]
  exact ⟨h1, h1⟩

variable (hs : IsRun i s) (hi : After 0 fun n => (i n).Hold a b op) (hstart : (i 0).startI = some true)
  (hquiet : After 1 fun n => (i n).startI ≠ some true)

include hs hi hstart hquiet

/-- Seven edges after a start the product is there. -/
theorem mul24_done : After 7 fun n => (s n).mul24.Done := by
  have hin := inputs hs hi
  have hphase : ∀ k ≤ 4, (s (k + 2)).mul24.Phase k := by
    intro k hk
    induction k with
    | zero =>
      have hs1 : (s 1).mul24.sStartI = some true := by
        rw [hs 0]
        exact hstart
      rw [hs 1]
      exact Mul24.phase_start hs1 (mul24_quiet (hin 1 (by omega)) (hquiet 1 (by omega)))
    | succ k ih =>
      have hk2 : k + 1 + 2 = k + 2 + 1 := by omega
      rw [hk2, hs (k + 2)]
      exact (ih (by omega)).step (by omega) (mul24_quiet (hin _ (by omega)) (hquiet _ (by omega)))
  refine After.induct ?_ fun n hn h => ?_
  · rw [hs 6]
    exact (hphase 4 (by omega)).done (hquiet 6 (by omega))
  · rw [hs n]
    exact h.step (hquiet n (by omega))

theorem mul_output :
    After 13 fun n => Shows (PostNormMul.special (some a) (some b) (signOf a b)) (s n).postNormMul.outputO := by
  have hin := inputs hs hi
  have hexp : After 2 fun n => (s n).preNormMul.exp10O.isSome := hin.edge fun n h => by
    rw [hs n]
    simp [step, PreNormMul.step, expIn, h.opa, h.opb]
  have hsign : After 2 fun n => (s n).mul24.signO.isSome := hin.edge fun n h => by
    rw [hs n]
    simp [step, Mul24.step, Mul24.signO, h.opa, h.opb]
  have hfed : After 7 fun n =>
      (s n).preNormMul.exp10O.isSome ∧ (s n).mul24.fractO.isSome ∧ (s n).mul24.signO.isSome :=
    ((hexp.mono (by omega)).and ((mul24_done hs hi hstart hquiet).and (hsign.mono (by omega)))).imp
      fun n h => ⟨h.1, h.2.1.fractO, h.2.2⟩
  have hlevel : After 12 fun n => (s n).postNormMul.Level 5 :=
    hfed.levels (L := fun k n => (s n).postNormMul.Level k) (fun _ => PostNormMul.level_zero _)
      (fun k n h hk => by rw [hs n]; exact hk.step ⟨h.1, h.2.1, h.2.2⟩) 5
  refine (hlevel.and ((mul_operands hs hi).mono (by omega))).edge fun n h => ?_
  obtain ⟨hk, hops, hsgn⟩ := h
  have hout : (s (n + 1)).postNormMul.outputO = PostNormMul.sOutputO (s n).postNormMul := by
    rw [hs n]
    rfl
  rw [hout, ← hsgn]
  exact ⟨PostNormMul.isSome_sOutputO hk, PostNormMul.sOutputO_of_special hops⟩

omit hquiet

theorem sqrt_output : After 7 fun n => Shows (PostNormSqrt.special (some a)) (s n).postNormSqrt.outputO := by
  have hin := inputs hs hi
  obtain ⟨-, hstart2⟩ := serial_start hs hstart
  have hrun : After 3 fun n => (s n).sqrt.Running := by
    refine After.induct ?_ fun n hn h => ?_
    · rw [hs 2]
      exact Sqrt.running_start hstart2 _ _
    · rw [hs n]
      exact h.step _ _
  have hroot : After 4 fun n => (s n).sqrt.sqrO.isSome := hrun.edge fun n h => by
    rw [hs n]
    simp [step, Sqrt.step, h.root]
  have hfract : After 5 fun n => (s n).postNormSqrt.sFract26I.isSome := hroot.edge fun n h => by
    rw [hs n]
    exact h
  have hrnd : After 6 fun n => (s n).postNormSqrt.sFracRnd.isSome := hfract.edge fun n h => by
    rw [hs n]
    simp [step, PostNormSqrt.step, h]
  have hexp : After 2 fun n => (s n).preNormSqrt.expO.isSome := hin.edge fun n h => by
    rw [hs n]
    simp [step, PreNormSqrt.step, PreNormSqrt.expO, h.opa]
  have hexpI : After 3 fun n => (s n).postNormSqrt.sExpI.isSome := hexp.edge fun n h => by
    rw [hs n]
    exact h
  refine (hrnd.and ((hexpI.mono (by omega)).and ((sqrt_operands hs hi).mono (by omega)))).edge fun n h => ?_
  obtain ⟨hr, he, hops⟩ := h
  have hout : (s (n + 1)).postNormSqrt.outputO = PostNormSqrt.sOutputO (s n).postNormSqrt := by
    rw [hs n]
    rfl
  rw [hout]
  exact ⟨PostNormSqrt.isSome_sOutputO hops rfl he hr, PostNormSqrt.sOutputO_of_special hops⟩

theorem serialDiv_running : After 3 fun n => (s n).serialDiv.Running := by
  have hin := inputs hs hi
  obtain ⟨hdvd, hdvs⟩ := isSome_operands a b
  have hfed : ∀ n, 1 ≤ n → (dvdnd50O (s n).sOpaI).isSome ∧ (dvsor27O (s n).sOpbI).isSome := fun n hn => by
    rw [(hin n hn).opa, (hin n hn).opb]
    exact ⟨hdvd, hdvs⟩
  refine After.induct ?_ fun n hn h => ?_
  · rw [hs 2]
    obtain ⟨h1, h2⟩ := hfed 2 (by omega)
    exact SerialDiv.running_start (serial_start hs hstart).1 ⟨h1, h2⟩
  · rw [hs n]
    obtain ⟨h1, h2⟩ := hfed n (by omega)
    exact h.step ⟨h1, h2⟩

/-- The quotient of zero, and the exponent that goes with it. -/
theorem postNormDiv_zero (ha : a.extractLsb 30 0 = 0) (hb : b.extractLsb 30 0 ≠ 0)
    (hf : b.extractLsb 30 23 ≠ 0b11111111) : After 8 fun n => (s n).postNormDiv.ZeroLevel 4 := by
  have hin := inputs hs hi
  have hfed : ∀ n, 1 ≤ n → dvdnd50O (s n).sOpaI = 0 ∧ gt (dvsor27O (s n).sOpbI) (0 : Vec 27) = true := fun n hn => by
    rw [(hin n hn).opa, (hin n hn).opb]
    exact ⟨dvdnd_of_zero ha, dvsor_pos hb⟩
  have hzero : After 3 fun n => (s n).serialDiv.Zero := by
    refine After.induct ?_ fun n hn h => ?_
    · rw [hs 2]
      obtain ⟨h1, h2⟩ := hfed 2 (by omega)
      exact SerialDiv.zero_start (serial_start hs hstart).1 h1 h2
    · rw [hs n]
      obtain ⟨h1, h2⟩ := hfed n (by omega)
      exact h.step h1 h2
  have hrange : After 4 fun n => PostNormDiv.InRange (s n).preNormDiv.exp10O :=
    (exp10_settles hs hi).imp fun n h => h ▸ inRange_of_zero ha hb hf
  exact ((hzero.mono (by omega)).and hrange).levels (L := fun k n => (s n).postNormDiv.ZeroLevel k)
    (fun _ => PostNormDiv.zeroLevel_zero _)
    (fun k n h hk => by rw [hs n]; exact hk.step h.1.qutnt h.1.rmndr h.2) 4

theorem div_output :
    After 9 fun n => Shows (PostNormDiv.special (some a) (some b) (signOf a b)) (s n).postNormDiv.outputO := by
  have hsign : After 1 fun n => (lxor (bit (s n).sOpaI 31) (bit (s n).sOpbI 31)).isSome :=
    (inputs hs hi).imp fun n h => by simp [h.opa, h.opb]
  have hfed : After 4 fun n => (s n).serialDiv.sQutntO.isSome ∧ (s n).preNormDiv.exp10O.isSome ∧
      (lxor (bit (s n).sOpaI 31) (bit (s n).sOpbI 31)).isSome :=
    (((serialDiv_running hs hi hstart).mono (by omega)).and
      ((exp10_settles hs hi).and (hsign.mono (by omega)))).imp fun n h =>
        ⟨h.1.qutnt, by rw [h.2.1]; exact isSome_exp10 a b, h.2.2⟩
  have hlevel : After 8 fun n => (s n).postNormDiv.Level 4 :=
    hfed.levels (L := fun k n => (s n).postNormDiv.Level k) (fun _ => PostNormDiv.level_zero _)
      (fun k n h hk => by rw [hs n]; exact hk.step ⟨h.1, h.2.1, h.2.2⟩) 4
  have hexp : After 8 fun n => (isInf (some a) || isInf (some b) || PostNormDiv.opb0 (some b)) = false →
      PostNormDiv.op0 (some a) (some b) = true → PostNormDiv.expInf (s n).postNormDiv = false := fun n hn h h0 => by
    obtain ⟨ha, hb, hf⟩ := zero_by_finite h h0
    exact PostNormDiv.expInf_of_zero (postNormDiv_zero hs hi hstart ha hb hf n hn)
  refine (hlevel.and (hexp.and ((div_operands hs hi).mono (by omega)))).edge fun n h => ?_
  obtain ⟨hk, hexp, hops, hsgn⟩ := h
  have hout : (s (n + 1)).postNormDiv.outputO = PostNormDiv.sOutputO (s n).postNormDiv := by
    rw [hs n]
    rfl
  rw [hout, ← hsgn]
  exact ⟨PostNormDiv.isSome_sOutputO hk, fun h => PostNormDiv.sOutputO_of_special hops h hexp⟩

include hquiet

/-- **After a start** the core shows a word for the operands; it is the one shown without a start
where there is one. -/
theorem pulsed_output : After 15 fun n => Shows (unstarted a b op) (s n).outputO := by
  refine output_of_unit hs hi (t := 13) (P := Shows (unstarted a b op)) (by omega) ?_
  have hadd := addSub_settles hs hi
  have hmul := mul_output hs hi hstart hquiet
  have hdiv := div_output hs hi hstart
  have hsqrt := sqrt_output hs hi hstart
  intro n hn
  have hop : (i n).fpuOpI = some op := (hi n (by omega)).fpuOp
  simp only [output1, unstarted, hop, some_eq_ofNat]
  split
  · rw [hadd n (by omega)]
    exact ⟨isSome_addSub a b op, fun _ => rfl⟩
  split
  · exact hmul n hn
  split
  · exact hdiv n (by omega)
  split
  · exact hsqrt n (by omega)
  · exact ⟨rfl, fun _ => rfl⟩

end

/-! ## The word delivered -/

/-- The ports with the operands, rounding to the nearest even. -/
def ports (a b : BitVec 32) (op : BitVec 3) (start : Bool) : Ports where
  opaI := some a
  opbI := some b
  fpuOpI := some op
  rmodeI := 0b00
  startI := some start

theorem ports_hold (a b : BitVec 32) (op : BitVec 3) (start : Bool) : (ports a b op start).Hold a b op :=
  ⟨rfl, rfl, rfl, rfl⟩

/-- The output of the core when `start_i` is pulsed with the operands held, 40 cycles after the
pulse; `s` is what the core was before. -/
def delivered (s : Core) (a b : BitVec 32) (op : BitVec 3) : Vec 32 :=
  ((step (ports a b op false))^[40] (step (ports a b op true) s)).outputO

theorem delivered_shows (s : Core) (a b : BitVec 32) (op : BitVec 3) :
    Shows (unstarted a b op) (delivered s a b op) := by
  let run : Nat → Core
    | 0 => s
    | n + 1 => (step (ports a b op false))^[n] (step (ports a b op true) s)
  have hrun : IsRun (fun n => ports a b op (n == 0)) run := by
    intro n
    cases n with
    | zero => rfl
    | succ n => exact Function.iterate_succ_apply' _ _ _
  refine pulsed_output (b := b) hrun (fun n _ => ports_hold a b op _) rfl (fun n hn => ?_) 41 (by omega)
  cases n with
  | zero => omega
  | succ n => exact nofun

/-- The output of a core that was never started, forty cycles or more after the operands came. -/
theorem idle_shows {s : Core} (h : s.Idle) (a b : BitVec 32) (op : BitVec 3) {n : Nat} (hn : 40 ≤ n) :
    ((step (ports a b op false))^[n] s).outputO = unstarted a b op := by
  have hrun : IsRun (fun _ => ports a b op false) fun n => (step (ports a b op false))^[n] s :=
    fun n => Function.iterate_succ_apply' _ _ _
  have hidle : ∀ n, ((step (ports a b op false))^[n] s).Idle := by
    intro n
    induction n with
    | zero => exact h
    | succ n ih =>
      rw [Function.iterate_succ_apply']
      exact ih.step nofun
  exact idle_output hrun (fun n _ => ports_hold a b op _) hidle n (by omega)

/-! ## Which operations need a start -/

/-- The operands for which the result comes out without a start: every addition and
subtraction, and otherwise those whose result the operands alone decide. -/
def NeedsNoStart (a b : BitVec 32) (op : BitVec 3) : Prop :=
  op = 0b000 ∨ op = 0b001 ∨
    (op = 0b010 ∧ (a.extractLsb 30 23 = 0xFF ∨ b.extractLsb 30 23 = 0xFF)) ∨
    (op = 0b011 ∧ (a.extractLsb 30 23 = 0xFF ∨ b.extractLsb 30 23 = 0xFF ∨
      a.extractLsb 30 0 = 0 ∨ b.extractLsb 30 0 = 0)) ∨
    (op = 0b100 ∧ (a.extractLsb 30 23 = 0xFF ∨ a.getLsbD 31 = true ∧ a.extractLsb 30 0 ≠ 0))

theorem isInf_some (a : BitVec 32) : isInf (some a) = true ↔ a.extractLsb 30 23 = 0xFF :=
  decide_eq_true_iff.trans Option.some_inj

/-- The low 31 bits of an operand, not all zero. -/
theorem orReduce_some (a : BitVec 32) : orReduce (slice (some a) 30 0) = some (a.extractLsb 30 0 != 0) := rfl

theorem isSome_mulSpecial (a b : BitVec 32) :
    (PostNormMul.special (some a) (some b) (signOf a b)).isSome = true ↔
      a.extractLsb 30 23 = 0xFF ∨ b.extractLsb 30 23 = 0xFF := by
  have hsign : (signOf a b).isSome := rfl
  rw [← isInf_some, ← isInf_some]
  unfold PostNormMul.special PostNormMul.nanResult isNan
  cases isInf (some a) <;> cases isInf (some b) <;> simp [hsign, inf, qnan]

theorem isSome_divSpecial (a b : BitVec 32) :
    (PostNormDiv.special (some a) (some b) (signOf a b)).isSome = true ↔
      a.extractLsb 30 23 = 0xFF ∨ b.extractLsb 30 23 = 0xFF ∨ a.extractLsb 30 0 = 0 ∨ b.extractLsb 30 0 = 0 := by
  have hsign : (signOf a b).isSome := rfl
  rw [← isInf_some, ← isInf_some, ← bne_eq_false_iff_eq (a := a.extractLsb 30 0),
    ← bne_eq_false_iff_eq (a := b.extractLsb 30 0)]
  unfold PostNormDiv.special PostNormDiv.nanResult isNan PostNormDiv.opb0 PostNormDiv.op0
  rw [orReduce_some, orReduce_some]
  cases isInf (some a) <;> cases isInf (some b) <;> cases a.extractLsb 30 0 != 0 <;>
    cases b.extractLsb 30 0 != 0 <;> simp [hsign, inf, qnan, zeroVector, land, lor, lnot]

theorem isSome_sqrtSpecial (a : BitVec 32) :
    (PostNormSqrt.special (some a)).isSome = true ↔
      a.extractLsb 30 23 = 0xFF ∨ a.getLsbD 31 = true ∧ a.extractLsb 30 0 ≠ 0 := by
  have hsign : bit (some a) 31 = some (a.getLsbD 31) := rfl
  rw [← isInf_some, ← bne_iff_ne]
  unfold PostNormSqrt.special PostNormSqrt.nanResult isNan
  rw [orReduce_some, hsign]
  cases isInf (some a) <;> cases a.extractLsb 30 0 != 0 <;> cases a.getLsbD 31 <;> simp [inf, qnan]

theorem isSome_unstarted (a b : BitVec 32) {op : BitVec 3} (hop : op.toNat ≤ 4) :
    (unstarted a b op).isSome = true ↔ NeedsNoStart a b op := by
  have hcases : op = 0 ∨ op = 1 ∨ op = 2 ∨ op = 3 ∨ op = 4 := by
    have h : ∀ op : BitVec 3, op.toNat ≤ 4 → op = 0 ∨ op = 1 ∨ op = 2 ∨ op = 3 ∨ op = 4 := by decide
    exact h op hop
  rcases hcases with rfl | rfl | rfl | rfl | rfl
  · simp [unstarted, NeedsNoStart, isSome_addSub]
  · simp [unstarted, NeedsNoStart, isSome_addSub]
  · simpa [unstarted, NeedsNoStart] using isSome_mulSpecial a b
  · simpa [unstarted, NeedsNoStart] using isSome_divSpecial a b
  · simpa [unstarted, NeedsNoStart] using isSome_sqrtSpecial a

/-- The core that was never started agrees with the pulsed one exactly where it shows a word. -/
theorem agrees_iff (s : Core) (a b : BitVec 32) {op : BitVec 3} (hop : op.toNat ≤ 4) :
    (∃ w, delivered s a b op = some w ∧ unstarted a b op = some w) ↔ NeedsNoStart a b op := by
  obtain ⟨hsome, hsame⟩ := delivered_shows s a b op
  rw [← isSome_unstarted a b hop]
  constructor
  · rintro ⟨w, -, hw⟩
    rw [hw]
    rfl
  · intro h
    obtain ⟨w, hw⟩ := Option.isSome_iff_exists.mp hsome
    exact ⟨w, hw, (hsame h).symm.trans hw⟩

end Core

end FpgaQuat.Fpu
