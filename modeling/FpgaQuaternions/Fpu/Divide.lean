import FpgaQuaternions.Fpu.Multiply

/-!
# The divider of the FPU

`pre_norm_div`, `serial_div` and `post_norm_div`.  The quotient is cleared by a start and
gets one bit at every edge of the 27 that follow.
-/

namespace FpgaQuat.Fpu

open StdLogic Pipeline

/-! ## pre_norm_div -/

structure PreNormDiv where
  sExpaIn : Vec 10
  sExpbIn : Vec 10
  sExp10O : Vec 10
  exp10O : Vec 10

def PreNormDiv.powerUp : PreNormDiv := ⟨none, none, none, none⟩

/-- `s_fracta_24` and `s_fractb_24` with their leading zeros shifted out. -/
def normalized (op : Vec 32) : Vec 24 := shl (fract24 op) (countLZeros (fract24 op))

def dvdnd50O (opaI : Vec 32) : Vec 50 := normalized opaI ++ (0 : Vec 26)

def dvsor27O (opbI : Vec 32) : Vec 27 := (0 : Vec 3) ++ normalized opbI

def PreNormDiv.step (i : Vec 32 × Vec 32) (s : PreNormDiv) : PreNormDiv where
  sExpaIn := expIn i.1
  sExpbIn := expIn i.2
  sExp10O := s.sExpaIn - s.sExpbIn + 0b0001111111 - ((0 : Vec 4) ++ countLZeros (fract24 i.1)) +
    ((0 : Vec 4) ++ countLZeros (fract24 i.2))
  exp10O := s.sExp10O

theorem PreNormDiv.forgets (i : Vec 32 × Vec 32) : Forgets PreNormDiv.step i 3 := fun _ _ => rfl

/-! ## serial_div -/

/-- The range of the counters, `0 to 26`, is not empty. -/
instance neZero27 : NeZero 27 := ⟨by decide⟩

structure SerialDiv where
  sDvdndI : Vec 50
  sDvsorI : Vec 27
  sStartI : Bit
  sState : TState
  sCount : Fin 27
  sQutntO : Vec 27
  sRmndrO : Vec 27
  sDvd : Vec 27

def SerialDiv.powerUp : SerialDiv := ⟨none, none, none, .waiting, 0, none, none, none⟩

/-- The inputs of `serial_div` that are registered. -/
structure SerialDivIn where
  dvdndI : Vec 50
  dvsorI : Vec 27
  startI : Bit

namespace SerialDiv

/-- `v_div` before the comparison. -/
def vDiv (s : SerialDiv) : Vec 27 := if s.sCount = 26 then (0 : Vec 3) ++ slice s.sDvdndI 49 26 else s.sDvd

def less (s : SerialDiv) : Bool := gt s.sDvsorI (vDiv s)

/-- `v_div` after it. -/
def vRem (s : SerialDiv) : Vec 27 := if less s then vDiv s else vDiv s - s.sDvsorI

def setBit (v : Vec 27) (k : Fin 27) (b : Bool) : Vec 27 :=
  v.map fun v => if b then v ||| BitVec.twoPow 27 k else v &&& ~~~ BitVec.twoPow 27 k

def step (i : SerialDivIn) (s : SerialDiv) : SerialDiv where
  sDvdndI := i.dvdndI
  sDvsorI := i.dvsorI
  sStartI := i.startI
  sState :=
    if s.sStartI = some true then .busy
    else if s.sCount = 0 ∧ s.sState = .busy then .waiting
    else if s.sState = .busy then .busy
    else .waiting
  sCount :=
    if s.sStartI = some true then 26
    else if s.sCount = 0 ∧ s.sState = .busy then 26
    else if s.sState = .busy then s.sCount - 1
    else s.sCount
  sQutntO :=
    if s.sStartI = some true then 0
    else if s.sState = .busy then setBit s.sQutntO s.sCount (!less s)
    else s.sQutntO
  sRmndrO :=
    if s.sStartI = some true then 0
    else if s.sState = .busy then vRem s
    else s.sRmndrO
  sDvd :=
    if s.sStartI = some true then s.sDvd
    else if s.sState = .busy then slice (vRem s) 25 0 ++ (0 : Vec 1)
    else s.sDvd

def divZeroO (s : SerialDiv) : Bool := orReduce s.sDvsorI = some false && orReduce s.sDvdndI = some true

end SerialDiv

/-! ## post_norm_div -/

structure PostNormDiv where
  sOpaI : Vec 32
  sOpbI : Vec 32
  sExpa : Vec 8
  sExpb : Vec 8
  sQutntI : Vec 27
  sRmndrI : Vec 27
  sExp10I : Vec 10
  sSignI : Bit
  sRmodeI : Vec 2
  sExpo1 : Vec 9
  sShr1 : Vec 6
  sShl1 : Vec 6
  sFraco1 : Vec 27
  sExpo3 : Vec 9
  sFraco2 : Vec 25
  outputO : Vec 32

def PostNormDiv.powerUp : PostNormDiv :=
  ⟨none, none, none, none, none, none, none, none, none, none, none, none, none, none, none, none⟩

/-- The inputs of `post_norm_div`. -/
structure PostNormDivIn where
  opaI : Vec 32
  opbI : Vec 32
  qutntI : Vec 27
  rmndrI : Vec 27
  exp10I : Vec 10
  signI : Bit
  rmodeI : Vec 2

namespace PostNormDiv

/-- `v_shr`, `v_shl` and `s_expo1`. -/
def stage1 (s : PostNormDiv) : Vec 10 × Vec 10 × Vec 9 :=
  let qutdn := lnot (bit s.sQutntI 26)
  let exp10b := s.sExp10I - ((0 : Vec 9) ++ ofBit qutdn)
  if bit exp10b 9 = some true ∨ exp10b = 0 then (1 - exp10b - ext qutdn, 0, 1)
  else if bit exp10b 8 = some true then (0, 0, slice exp10b 8 0)
  else (0, (0 : Vec 9) ++ ofBit qutdn, slice exp10b 8 0)

def expo2 (s : PostNormDiv) : Vec 9 := if bit s.sFraco1 26 = some false then s.sExpo1 - 1 else s.sExpo1

def fracRnd (s : PostNormDiv) : Vec 25 :=
  let up := roundup s.sRmodeI s.sSignI (bit s.sFraco1 2) (bit s.sFraco1 1)
    (lor (bit s.sFraco1 0) (orReduce s.sRmndrI)) (bit s.sFraco1 3)
  if up = some true then ((0 : Vec 1) ++ slice s.sFraco1 26 3) + 1 else (0 : Vec 1) ++ slice s.sFraco1 26 3

def shr2 (s : PostNormDiv) : Bit := bit (fracRnd s) 24

def infResult (s : PostNormDiv) : Bool :=
  lor (andReduce (slice s.sExpo3 7 0)) (bit s.sExpo3 8) = some true ∨ lnot (orReduce (slice s.sOpbI 30 0)) = some true

def sOutputO (s : PostNormDiv) : Vec 32 :=
  let opa1 := orReduce (slice s.sOpaI 30 0)
  let opb1 := orReduce (slice s.sOpbI 30 0)
  let infa : Bool := s.sExpa = 0b11111111
  let infb : Bool := s.sExpb = 0b11111111
  let nanA := infa && orReduce (slice s.sOpaI 22 0) = some true
  let nanB := infb && orReduce (slice s.sOpbI 22 0) = some true
  let nanOp := (infa && infb) || lnot (lor opa1 opb1) = some true
  let overflow := infResult s && !(infa || infb) && lnot opb1 = some false
  if nanA || nanB || nanOp then (1 : Vec 1) ++ qnan
  else if infa || infb || overflow || infResult s then ofBit s.sSignI ++ inf
  else if lnot (land opa1 opb1) = some true then ofBit s.sSignI ++ zeroVector
  else ofBit s.sSignI ++ slice s.sExpo3 7 0 ++ slice s.sFraco2 22 0

def step (i : PostNormDivIn) (s : PostNormDiv) : PostNormDiv where
  sOpaI := i.opaI
  sOpbI := i.opbI
  sExpa := slice i.opaI 30 23
  sExpb := slice i.opbI 30 23
  sQutntI := i.qutntI
  sRmndrI := i.rmndrI
  sExp10I := i.exp10I
  sSignI := i.signI
  sRmodeI := i.rmodeI
  sExpo1 := (stage1 s).2.2
  sShr1 := if bit (stage1 s).1 6 = some true then 0b111111 else slice (stage1 s).1 5 0
  sShl1 := slice (stage1 s).2.1 5 0
  sFraco1 := if s.sShr1 ≠ 0 then shr s.sQutntI s.sShr1 else shl s.sQutntI s.sShl1
  sExpo3 := if shr2 s = some true then expo2 s + 1 else expo2 s
  sFraco2 := if shr2 s = some true then (0 : Vec 1) ++ slice (fracRnd s) 24 1 else fracRnd s
  outputO := sOutputO s

end PostNormDiv

/-! ## Without a start -/

/-- `serial_div` before its first start. -/
structure SerialDiv.Idle (s : SerialDiv) : Prop where
  start : s.sStartI ≠ some true
  state : s.sState = .waiting
  qutnt : s.sQutntO = none
  rmndr : s.sRmndrO = none

theorem SerialDiv.idle_powerUp : SerialDiv.powerUp.Idle := ⟨nofun, rfl, rfl, rfl⟩

theorem SerialDiv.Idle.step {s : SerialDiv} (h : s.Idle) {i : SerialDivIn} (hi : i.startI ≠ some true) :
    (s.step i).Idle := by
  refine ⟨hi, ?_, ?_, ?_⟩ <;> simp [SerialDiv.step, h.start, h.state, h.qutnt, h.rmndr]

namespace PostNormDiv

/-- Before anything came out of `serial_div`. -/
structure Blank (s : PostNormDiv) : Prop where
  qutnt : s.sQutntI = none
  rmndr : s.sRmndrI = none
  expo1 : s.sExpo1 = none
  fraco1 : s.sFraco1 = none
  expo3 : s.sExpo3 = none
  fraco2 : s.sFraco2 = none

theorem blank_powerUp : PostNormDiv.powerUp.Blank := ⟨rfl, rfl, rfl, rfl, rfl, rfl⟩

theorem Blank.step {s : PostNormDiv} (h : s.Blank) {i : PostNormDivIn} (hq : i.qutntI = none)
    (hr : i.rmndrI = none) : (s.step i).Blank := by
  have hrnd : fracRnd s = none := by simp [fracRnd, h.fraco1]
  refine ⟨hq, hr, ?_, ?_, ?_, ?_⟩
  · simp [PostNormDiv.step, stage1, lnot, h.qutnt]
  · simp [PostNormDiv.step, h.qutnt]
  · simp [PostNormDiv.step, shr2, hrnd, expo2, h.fraco1, h.expo1]
  · simp [PostNormDiv.step, hrnd]

/-- The operands have come through. -/
structure Operands (a b : Vec 32) (s : PostNormDiv) : Prop where
  opa : s.sOpaI = a
  opb : s.sOpbI = b
  expa : s.sExpa = slice a 30 23
  expb : s.sExpb = slice b 30 23

/-- An operand that is not a number, zero by zero or infinity by infinity. -/
def nanResult (a b : Vec 32) : Bool :=
  isNan a || isNan b ||
    ((isInf a && isInf b) || lnot (lor (orReduce (slice a 30 0)) (orReduce (slice b 30 0))) = some true)

/-- `s_opb_0` and `s_op_0`. -/
def opb0 (b : Vec 32) : Bool := lnot (orReduce (slice b 30 0)) = some true

def op0 (a b : Vec 32) : Bool := lnot (land (orReduce (slice a 30 0)) (orReduce (slice b 30 0))) = some true

/-- The result where the operands alone decide it. -/
def special (a b : Vec 32) (sign : Bit) : Vec 32 :=
  if nanResult a b then (1 : Vec 1) ++ qnan
  else if isInf a || isInf b || opb0 b then ofBit sign ++ inf
  else if op0 a b then ofBit sign ++ zeroVector
  else none

/-- The exponent of the quotient is out of range. -/
def expInf (s : PostNormDiv) : Bool := lor (andReduce (slice s.sExpo3 7 0)) (bit s.sExpo3 8) = some true

theorem sOutputO_eq {a b : Vec 32} {s : PostNormDiv} (h : s.Operands a b) :
    sOutputO s =
      if nanResult a b then (1 : Vec 1) ++ qnan
      else if isInf a || isInf b || opb0 b || expInf s then ofBit s.sSignI ++ inf
      else if op0 a b then ofBit s.sSignI ++ zeroVector
      else ofBit s.sSignI ++ slice s.sExpo3 7 0 ++ slice s.sFraco2 22 0 := by
  have hinfa : decide (slice a 30 23 = (0b11111111 : Vec 8)) = isInf a := rfl
  have hinfb : decide (slice b 30 23 = (0b11111111 : Vec 8)) = isInf b := rfl
  have hinf : infResult s = (opb0 b || expInf s) := by
    simp [infResult, opb0, expInf, h.opb, Bool.or_comm]
  unfold sOutputO nanResult isNan op0
  simp only [h.opa, h.opb, h.expa, h.expb, hinfa, hinfb, hinf]
  cases isInf a <;> cases isInf b <;> cases opb0 b <;> cases expInf s <;> simp

theorem sOutputO_of_blank {a b : Vec 32} {s : PostNormDiv} (h : s.Operands a b) (hb : s.Blank) :
    sOutputO s = special a b s.sSignI := by
  have hexp : expInf s = false := by simp [expInf, hb.expo3, lor, andReduce]
  rw [sOutputO_eq h, special, hexp, hb.expo3, hb.fraco2]
  simp

/-- A dividend that is zero has to be seen in the exponent too. -/
theorem sOutputO_of_special {a b : Vec 32} {s : PostNormDiv} (h : s.Operands a b)
    (hs : (special a b s.sSignI).isSome)
    (hexp : (isInf a || isInf b || opb0 b) = false → op0 a b = true → expInf s = false) :
    sOutputO s = special a b s.sSignI := by
  rw [sOutputO_eq h]
  unfold special at hs ⊢
  cases hn : nanResult a b with
  | true => rfl
  | false =>
    cases hi : isInf a || isInf b || opb0 b with
    | true => rfl
    | false =>
      cases ho : op0 a b with
      | true =>
        rw [hexp hi ho]
        rfl
      | false => simp [hn, hi, ho] at hs

end PostNormDiv

/-! ## After a start -/

/-- Defined operands. -/
structure SerialDivIn.Fed (i : SerialDivIn) : Prop where
  dvdnd : i.dvdndI.isSome
  dvsor : i.dvsorI.isSome

namespace SerialDiv

/-- The three kinds of edge: a start, a wait and a division step. -/
theorem step_cases (i : SerialDivIn) (s : SerialDiv) :
    (s.sStartI = some true ∧ (s.step i).sQutntO = 0 ∧ (s.step i).sRmndrO = 0 ∧ (s.step i).sCount = 26) ∨
    ((s.step i).sState = .waiting ∧ (s.step i).sQutntO = s.sQutntO ∧ (s.step i).sRmndrO = s.sRmndrO) ∨
    (s.sState = .busy ∧ (s.step i).sQutntO = setBit s.sQutntO s.sCount (!less s) ∧
      (s.step i).sRmndrO = vRem s ∧ (s.step i).sDvd = slice (vRem s) 25 0 ++ (0 : Vec 1)) := by
  by_cases hs : s.sStartI = some true
  · left
    simp [step, hs]
  right
  cases hb : s.sState with
  | waiting =>
    left
    simp [step, hs, hb]
  | busy =>
    right
    simp [step, hs, hb]

/-- What is divided next. -/
theorem vDiv_cases (s : SerialDiv) :
    s.sCount = 26 ∧ vDiv s = (0 : Vec 3) ++ slice s.sDvdndI 49 26 ∨ s.sCount ≠ 26 ∧ vDiv s = s.sDvd := by
  unfold vDiv
  split
  next hc => exact .inl ⟨hc, rfl⟩
  next hc => exact .inr ⟨hc, rfl⟩

/-- From the first edge after a start. -/
structure Running (s : SerialDiv) : Prop where
  dvdnd : s.sDvdndI.isSome
  dvsor : s.sDvsorI.isSome
  qutnt : s.sQutntO.isSome
  rmndr : s.sRmndrO.isSome
  dvd : s.sState = .busy → s.sCount = 26 ∨ s.sDvd.isSome

theorem running_start {s : SerialDiv} (hs : s.sStartI = some true) {i : SerialDivIn} (hi : i.Fed) :
    (s.step i).Running := by
  refine ⟨hi.dvdnd, hi.dvsor, ?_, ?_, fun _ => .inl ?_⟩ <;> simp [step, hs]

theorem Running.isSome_vRem {s : SerialDiv} (h : s.Running) (hb : s.sState = .busy) : (vRem s).isSome := by
  have hdiv : (vDiv s).isSome := by
    obtain ⟨-, hv⟩ | ⟨hc, hv⟩ := vDiv_cases s
    · simp [hv, h.dvdnd]
    · rw [hv]
      exact (h.dvd hb).resolve_left hc
  simp [vRem, hdiv, h.dvsor]

theorem Running.step {s : SerialDiv} (h : s.Running) {i : SerialDivIn} (hi : i.Fed) : (s.step i).Running := by
  obtain ⟨hs, -⟩ | ⟨hw, hq, hr⟩ | ⟨hb, hq, hr, hd⟩ := step_cases i s
  · exact running_start hs hi
  · refine ⟨hi.dvdnd, hi.dvsor, ?_, ?_, ?_⟩
    · exact hq ▸ h.qutnt
    · exact hr ▸ h.rmndr
    · simp [hw]
  · have hrem := h.isSome_vRem hb
    refine ⟨hi.dvdnd, hi.dvsor, ?_, ?_, fun _ => .inr ?_⟩
    · simpa [hq, setBit] using h.qutnt
    · exact hr ▸ hrem
    · simpa [hd] using hrem

/-- The same for a dividend that is zero. -/
structure Zero (s : SerialDiv) : Prop where
  dvdnd : s.sDvdndI = 0
  dvsor : gt s.sDvsorI (0 : Vec 27) = true
  qutnt : s.sQutntO = 0
  rmndr : s.sRmndrO = 0
  dvd : s.sState = .busy → s.sCount = 26 ∨ s.sDvd = 0

theorem zero_start {s : SerialDiv} (hs : s.sStartI = some true) {i : SerialDivIn} (hd : i.dvdndI = 0)
    (hv : gt i.dvsorI (0 : Vec 27) = true) : (s.step i).Zero := by
  refine ⟨hd, hv, ?_, ?_, fun _ => .inl ?_⟩ <;> simp [step, hs]

/-- Zero is less than the divisor, so nothing is taken from it. -/
theorem Zero.vRem {s : SerialDiv} (h : s.Zero) (hb : s.sState = .busy) : less s = true ∧ vRem s = 0 := by
  have hdiv : vDiv s = 0 := by
    obtain ⟨-, hv⟩ | ⟨hc, hv⟩ := vDiv_cases s
    · rw [hv, h.dvdnd]
      rfl
    · rw [hv]
      exact (h.dvd hb).resolve_left hc
  have hless : less s = true := by rw [less, hdiv, h.dvsor]
  exact ⟨hless, by rw [SerialDiv.vRem, if_pos hless, hdiv]⟩

theorem Zero.step {s : SerialDiv} (h : s.Zero) {i : SerialDivIn} (hd : i.dvdndI = 0)
    (hv : gt i.dvsorI (0 : Vec 27) = true) : (s.step i).Zero := by
  obtain ⟨hs, -⟩ | ⟨hw, hq, hr⟩ | ⟨hb, hq, hr, hdvd⟩ := step_cases i s
  · exact zero_start hs hd hv
  · refine ⟨hd, hv, ?_, ?_, ?_⟩
    · exact hq.trans h.qutnt
    · exact hr.trans h.rmndr
    · simp [hw]
  · obtain ⟨hless, hrem⟩ := h.vRem hb
    refine ⟨hd, hv, ?_, ?_, fun _ => .inr ?_⟩
    · rw [hq, h.qutnt, hless]
      exact congrArg some BitVec.zero_and
    · exact hr.trans hrem
    · rw [hdvd, hrem]
      rfl

end SerialDiv

namespace PostNormDiv

/-- The inputs of `post_norm_div` are defined. -/
structure Fed (i : PostNormDivIn) : Prop where
  qutnt : i.qutntI.isSome
  exp10 : i.exp10I.isSome
  sign : i.signI.isSome

/-- The registers defined up to stage `k`. -/
structure Level (k : Nat) (s : PostNormDiv) : Prop where
  inputs : 1 ≤ k → s.sQutntI.isSome ∧ s.sExp10I.isSome ∧ s.sSignI.isSome
  stage1 : 2 ≤ k → s.sExpo1.isSome ∧ s.sShr1.isSome ∧ s.sShl1.isSome
  fraco1 : 3 ≤ k → s.sFraco1.isSome
  rounded : 4 ≤ k → s.sExpo3.isSome ∧ s.sFraco2.isSome

/-- Nothing is asked of the registers before the first edge. -/
theorem level_zero (s : PostNormDiv) : Level 0 s := by
  constructor <;> intro hk <;> omega

theorem allSome_stage1 {s : PostNormDiv} (hq : s.sQutntI.isSome) (he : s.sExp10I.isSome) : AllSome (stage1 s) := by
  refine .ite ⟨?_, ?_, ?_⟩ (.ite ⟨?_, ?_, ?_⟩ ⟨?_, ?_, ?_⟩) <;> simp [hq, he]

theorem Level.step {k : Nat} {s : PostNormDiv} (h : Level k s) {i : PostNormDivIn} (hi : Fed i) :
    Level (k + 1) (s.step i) where
  inputs _ := ⟨hi.qutnt, hi.exp10, hi.sign⟩
  stage1 hk := by
    obtain ⟨hq, he, -⟩ := h.inputs (by omega)
    obtain ⟨hshr, hshl, hexpo⟩ := allSome_stage1 hq he
    simp [PostNormDiv.step, hshr, hshl, hexpo]
  fraco1 hk := by
    obtain ⟨hq, -, -⟩ := h.inputs (by omega)
    obtain ⟨-, hshr, hshl⟩ := h.stage1 (by omega)
    simp [PostNormDiv.step, hq, hshr, hshl]
  rounded hk := by
    have hf := h.fraco1 (by omega)
    have hrnd : (fracRnd s).isSome := by simp [fracRnd, hf]
    have hexpo2 : (expo2 s).isSome := by simp [expo2, (h.stage1 (by omega)).1]
    simp [PostNormDiv.step, hrnd, hexpo2]

theorem isSome_sOutputO {s : PostNormDiv} (h : Level 4 s) : (sOutputO s).isSome := by
  obtain ⟨-, -, hsign⟩ := h.inputs (by omega)
  obtain ⟨hexpo3, hfraco2⟩ := h.rounded (by omega)
  simp [sOutputO, hsign, hexpo3, hfraco2, inf, qnan, zeroVector]

/-- An exponent before normalization that stays in range. -/
def InRange (exp10 : Vec 10) : Prop :=
  ∃ e : BitVec 10, exp10 = some e ∧ ((e - 1).getLsbD 9 = true ∨ (e - 1).toNat ≤ 125)

/-- The registers up to stage `k` where the quotient is zero. -/
structure ZeroLevel (k : Nat) (s : PostNormDiv) : Prop where
  inputs : 1 ≤ k → s.sQutntI = 0 ∧ s.sRmndrI = 0 ∧ InRange s.sExp10I
  stage1 : 2 ≤ k →
    (∃ e : BitVec 9, s.sExpo1 = some e ∧ 0 < e.toNat ∧ e.toNat ≤ 125) ∧ s.sShr1.isSome ∧ s.sShl1.isSome
  fraco1 : 3 ≤ k → s.sFraco1 = 0
  expo3 : 4 ≤ k → ∃ e : BitVec 9, s.sExpo3 = some e ∧ e.toNat ≤ 124

theorem zeroLevel_zero (s : PostNormDiv) : ZeroLevel 0 s := by
  constructor <;> intro hk <;> omega

theorem expo1_of_zero {s : PostNormDiv} (hq : s.sQutntI = 0) (he : InRange s.sExp10I) :
    ∃ e : BitVec 9, (stage1 s).2.2 = some e ∧ 0 < e.toNat ∧ e.toNat ≤ 125 := by
  obtain ⟨e, he, hrange⟩ := he
  have hexp10b : s.sExp10I - ((0 : Vec 9) ++ ofBit (lnot (bit s.sQutntI 26))) = some (e - 1) := by
    rw [hq, he]
    rfl
  unfold stage1
  simp only [hexp10b]
  split
  next => exact ⟨1, rfl, by decide, by decide⟩
  next hpos =>
    obtain ⟨h9, h0⟩ := not_or.mp hpos
    have hle : (e - 1).toNat ≤ 125 := hrange.resolve_left fun h => h9 (congrArg some h)
    have hlt : 0 < (e - 1).toNat :=
      Nat.pos_of_ne_zero fun h => h0 (congrArg some (BitVec.eq_of_toNat_eq (h.trans rfl)))
    have hnat : ((e - 1).extractLsb 8 0).toNat = (e - 1).toNat := by
      rw [BitVec.extractLsb_toNat, Nat.shiftRight_zero]
      exact Nat.mod_eq_of_lt (by omega)
    rw [apply_ite Prod.snd, apply_ite Prod.snd, ite_self]
    exact ⟨(e - 1).extractLsb 8 0, rfl, hnat ▸ hlt, hnat ▸ hle⟩

theorem roundup_zero (rmode : Vec 2) (sign : Bit) :
    roundup rmode sign (some false) (some false) (some false) (some false) = some false := by
  simp [roundup, land, lor]

theorem ZeroLevel.step {k : Nat} {s : PostNormDiv} (h : ZeroLevel k s) {i : PostNormDivIn} (hq : i.qutntI = 0)
    (hr : i.rmndrI = 0) (he : InRange i.exp10I) : ZeroLevel (k + 1) (s.step i) where
  inputs _ := ⟨hq, hr, he⟩
  stage1 hk := by
    obtain ⟨hq, -, he⟩ := h.inputs (by omega)
    have hexp : s.sExp10I.isSome := by
      obtain ⟨e, he, -⟩ := he
      rw [he]
      rfl
    obtain ⟨hshr, hshl, -⟩ := allSome_stage1 (s := s) (by rw [hq]; rfl) hexp
    exact ⟨expo1_of_zero hq he, by simp [PostNormDiv.step, hshr], by simp [PostNormDiv.step, hshl]⟩
  fraco1 hk := by
    obtain ⟨hq, -⟩ := h.inputs (by omega)
    obtain ⟨-, hshr, hshl⟩ := h.stage1 (by omega)
    obtain ⟨r, hr⟩ := Option.isSome_iff_exists.mp hshr
    obtain ⟨l, hl⟩ := Option.isSome_iff_exists.mp hshl
    simp only [PostNormDiv.step, hq, hr, hl]
    split
    · exact congrArg some BitVec.zero_ushiftRight
    · exact congrArg some (BitVec.zero_shiftLeft _)
  expo3 hk := by
    obtain ⟨-, hr, -⟩ := h.inputs (by omega)
    obtain ⟨⟨e, he, hpos, hle⟩, -⟩ := h.stage1 (by omega)
    have hf := h.fraco1 (by omega)
    have hup : roundup s.sRmodeI s.sSignI (bit s.sFraco1 2) (bit s.sFraco1 1)
        (lor (bit s.sFraco1 0) (orReduce s.sRmndrI)) (bit s.sFraco1 3) = some false := by
      rw [hf, hr]
      exact roundup_zero _ _
    have hrnd : fracRnd s = 0 := by
      unfold fracRnd
      simp only [hup]
      rw [hf]
      rfl
    have hexpo2 : expo2 s = some (e - 1) := by
      rw [expo2, hf, he]
      rfl
    refine ⟨e - 1, ?_, ?_⟩
    · simp only [PostNormDiv.step, shr2, hrnd, hexpo2]
      rfl
    · rw [BitVec.toNat_sub]
      have : (1 : BitVec 9).toNat = 1 := rfl
      omega

theorem expInf_of_zero {s : PostNormDiv} (h : ZeroLevel 4 s) : expInf s = false := by
  obtain ⟨e, he, hle⟩ := h.expo3 (by omega)
  have hbit : e.getLsbD 8 = false := Nat.testBit_lt_two_pow (by omega)
  have hones : ¬ e.extractLsb 7 0 = BitVec.allOnes 8 := fun h => by
    have := congrArg BitVec.toNat h
    rw [BitVec.extractLsb_toNat] at this
    simp at this
    omega
  have hand : andReduce (slice s.sExpo3 7 0) = some false := by
    rw [he]
    exact congrArg some (beq_eq_false_iff_ne.mpr hones)
  have hhigh : bit s.sExpo3 8 = some false := by
    rw [he]
    exact congrArg some hbit
  rw [expInf, hand, hhigh]
  rfl

end PostNormDiv

/-! ## Zero by a finite number -/

variable {w : Nat}

theorem fract24_some (b : BitVec 32) :
    fract24 (some b) = some (BitVec.ofBool (b.extractLsb 30 23 != 0) ++ b.extractLsb 22 0) := by
  refine congrArg some ?_
  simp

/-- The leading zeros of what is not zero leave the leading one. -/
theorem countLZeros_some {f : BitVec w} (hw : w ≤ 63) (hf : f ≠ 0) :
    ∃ z : BitVec 6, countLZeros (some f) = some z ∧ z.toNat < w ∧ f <<< z.toNat ≠ 0 := by
  obtain ⟨p, hp⟩ : ∃ p : Nat → Bool, p = fun i => !f.getLsbD (w - 1 - i) := ⟨_, rfl⟩
  obtain ⟨k, hk⟩ : ∃ k, k = (List.range w).findIdx fun i => !p i := ⟨_, rfl⟩
  have hone : ∃ i ∈ List.range w, (!p i) = true := by
    by_contra hnone
    refine hf (BitVec.eq_of_getLsbD_eq fun i hi => ?_)
    have := fun h => hnone ⟨w - 1 - i, List.mem_range.mpr (by omega), h⟩
    rw [hp] at this
    simp only [Bool.not_not, show w - 1 - (w - 1 - i) = i by omega] at this
    simpa using this
  have hlt : k < (List.range w).length := hk ▸ List.findIdx_lt_length_of_exists hone
  have hbit : f.getLsbD (w - 1 - k) = true := by
    have := List.findIdx_getElem (p := fun i => !p i) (w := hk ▸ hlt)
    rw [List.getElem_range, ← hk, hp] at this
    simpa using this
  rw [List.length_range] at hlt
  have hlen : ((List.range w).takeWhile p).length = k := by
    rw [List.takeWhile_eq_take_findIdx_not, ← hk, List.length_take, List.length_range]
    omega
  have hz : (BitVec.ofNat 6 k).toNat = k := by
    rw [BitVec.toNat_ofNat]
    exact Nat.mod_eq_of_lt (by omega)
  refine ⟨BitVec.ofNat 6 k, ?_, hz.symm ▸ hlt, fun h0 => ?_⟩
  · rw [countLZeros, ← hp, hlen]
  · have := congrArg (BitVec.getLsbD · (w - 1)) h0
    rw [hz] at this
    simp [hbit] at this
    omega

/-- The low 31 bits of a word, its exponent and its fraction. -/
theorem toNat_fields (b : BitVec 32) :
    (b.extractLsb 30 0).toNat = (b.extractLsb 30 23).toNat * 2 ^ 23 + (b.extractLsb 22 0).toNat := by
  simp only [BitVec.extractLsb_toNat, Nat.shiftRight_eq_div_pow]
  omega

theorem fract24_ne_zero {b : BitVec 32} (h : b.extractLsb 30 0 ≠ 0) :
    BitVec.ofBool (b.extractLsb 30 23 != 0) ++ b.extractLsb 22 0 ≠ 0 := by
  intro h0
  have hnat := congrArg BitVec.toNat h0
  rw [BitVec.toNat_append] at hnat
  obtain ⟨he, hf⟩ := Nat.or_eq_zero_iff.mp hnat
  have hexp : b.extractLsb 30 23 = 0 := by
    by_contra hne
    rw [bne_iff_ne.mpr hne] at he
    exact absurd he (by decide)
  refine h (BitVec.eq_of_toNat_eq ?_)
  rw [toNat_fields, hexp, hf]
  rfl

theorem fields_of_zero {a : BitVec 32} (h : a.extractLsb 30 0 = 0) :
    a.extractLsb 30 23 = 0 ∧ a.extractLsb 22 0 = 0 := by
  have hfields := toNat_fields a
  have hzero : (a.extractLsb 30 0).toNat = 0 := by
    rw [h]
    rfl
  have hexp : (a.extractLsb 30 23).toNat = 0 := by omega
  have hfrac : (a.extractLsb 22 0).toNat = 0 := by omega
  exact ⟨BitVec.eq_of_toNat_eq hexp, BitVec.eq_of_toNat_eq hfrac⟩

theorem dvdnd_of_zero {a : BitVec 32} (h : a.extractLsb 30 0 = 0) : dvdnd50O (some a) = 0 := by
  obtain ⟨hexp, hfrac⟩ := fields_of_zero h
  rw [dvdnd50O, normalized, fract24_some, hexp, hfrac]
  rfl

theorem toNat_pad (m : Nat) (x : BitVec w) : (0#m ++ x).toNat = x.toNat := by
  rw [BitVec.toNat_append, BitVec.toNat_zero, Nat.zero_shiftLeft, Nat.zero_or]

theorem dvsor_pos {b : BitVec 32} (h : b.extractLsb 30 0 ≠ 0) : gt (dvsor27O (some b)) (0 : Vec 27) = true := by
  obtain ⟨z, hz, -, hne⟩ := countLZeros_some (by omega) (fract24_ne_zero h)
  rw [dvsor27O, normalized, fract24_some, hz]
  refine decide_eq_true (Nat.pos_of_ne_zero fun h0 => hne (BitVec.eq_of_toNat_eq ?_))
  exact (toNat_pad 3 _).symm.trans h0

/-- `s_expb_in` of a finite operand. -/
theorem expIn_some {b : BitVec 32} (h : b.extractLsb 30 23 ≠ 0b11111111) :
    ∃ e : BitVec 10, expIn (some b) = some e ∧ 1 ≤ e.toNat ∧ e.toNat ≤ 254 := by
  obtain ⟨x, hx⟩ : ∃ x : BitVec 8, x = b.extractLsb 30 23 := ⟨_, rfl⟩
  have hlt := x.isLt
  have hne : x.toNat ≠ 255 := fun h' => h (hx ▸ BitVec.eq_of_toNat_eq h')
  have hexp : expIn (some b) = some ((0#2 ++ x) + (0#9 ++ BitVec.ofBool (!(x != 0#8)))) := by
    rw [hx]
    rfl
  have hdn : (BitVec.ofBool (!(x != 0#8))).toNat = if x.toNat = 0 then 1 else 0 := by
    by_cases h0 : x = 0#8
    · simp [h0]
    · have : x.toNat ≠ 0 := fun h' => h0 (BitVec.eq_of_toNat_eq h')
      simp [h0, this]
  have hnat : ((0#2 ++ x) + (0#9 ++ BitVec.ofBool (!(x != 0#8)))).toNat = x.toNat + if x.toNat = 0 then 1 else 0 := by
    rw [BitVec.toNat_add, toNat_pad 2, toNat_pad 9, hdn]
    split <;> omega
  refine ⟨_, hexp, ?_, ?_⟩ <;> rw [hnat] <;> split <;> omega

/-- The exponent of zero by `b`. -/
theorem inRange_of_zero {a b : BitVec 32} (ha : a.extractLsb 30 0 = 0) (hb : b.extractLsb 30 0 ≠ 0)
    (hf : b.extractLsb 30 23 ≠ 0b11111111) :
    PostNormDiv.InRange (expIn (some a) - expIn (some b) + 0b0001111111 -
      ((0 : Vec 4) ++ countLZeros (fract24 (some a))) + ((0 : Vec 4) ++ countLZeros (fract24 (some b)))) := by
  obtain ⟨hexp, hfrac⟩ := fields_of_zero ha
  obtain ⟨e, he, hlo, hhi⟩ := expIn_some hf
  obtain ⟨z, hz, hlt, -⟩ := countLZeros_some (by omega) (fract24_ne_zero hb)
  have hea : expIn (some a) = some 1 := by
    have : expIn (some a) = some ((0#2 ++ a.extractLsb 30 23) + (0#9 ++ BitVec.ofBool (!(a.extractLsb 30 23 != 0#8)))) := rfl
    rw [this, hexp]
    rfl
  have hza : countLZeros (fract24 (some a)) = some 24 := by
    rw [fract24_some, hexp, hfrac]
    rfl
  rw [hea, he, hza, fract24_some, hz]
  refine ⟨1#10 - e + 127#10 - (0#4 ++ 24#6) + (0#4 ++ z), rfl, ?_⟩
  have hnat : (1#10 - e + 127#10 - (0#4 ++ 24#6) + (0#4 ++ z) - 1).toNat = (1024 + 103 + z.toNat - e.toNat) % 1024 := by
    have hpad := toNat_pad 4 z
    have h24 : (0#4 ++ 24#6).toNat = 24 := rfl
    have h1 : (1 : BitVec 10).toNat = 1 := rfl
    simp only [BitVec.toNat_sub, BitVec.toNat_add, hpad, h24, h1]
    simp only [BitVec.toNat_ofNat]
    omega
  by_cases hle : e.toNat ≤ 103 + z.toNat
  · right
    rw [hnat]
    omega
  · left
    rw [BitVec.getLsbD, hnat, Nat.testBit_eq_decide_div_mod_eq]
    exact decide_eq_true (by omega)

theorem isSome_operands (a b : BitVec 32) : (dvdnd50O (some a)).isSome ∧ (dvsor27O (some b)).isSome := by
  simp [dvdnd50O, dvsor27O, normalized, fract24]

/-- The operands where `s_op_0` alone decides. -/
theorem zero_by_finite {a b : BitVec 32}
    (h : (isInf (some a) || isInf (some b) || PostNormDiv.opb0 (some b)) = false)
    (h0 : PostNormDiv.op0 (some a) (some b) = true) :
    a.extractLsb 30 0 = 0 ∧ b.extractLsb 30 0 ≠ 0 ∧ b.extractLsb 30 23 ≠ 0b11111111 := by
  have hreduce : ∀ x : BitVec 32, orReduce (slice (some x) 30 0) = some (x.extractLsb 30 0 != 0) := fun _ => rfl
  simp only [Bool.or_eq_false_iff] at h
  obtain ⟨⟨-, hb⟩, hb0⟩ := h
  have hne : b.extractLsb 30 0 ≠ 0 := fun hz => by
    rw [PostNormDiv.opb0, hreduce, hz] at hb0
    exact absurd hb0 (by decide)
  refine ⟨?_, hne, fun he => ?_⟩
  · rw [PostNormDiv.op0, hreduce, hreduce, bne_iff_ne.mpr hne] at h0
    cases hx : a.extractLsb 30 0 != 0 with
    | false => exact bne_eq_false_iff_eq.mp hx
    | true =>
      rw [hx] at h0
      exact absurd h0 (by decide)
  · rw [isInf, decide_eq_false_iff_not] at hb
    exact hb (congrArg some he)

end FpgaQuat.Fpu
