import FpgaQuaternions.Fpu.AddSub

/-!
# The multiplier of the FPU

`pre_norm_mul`, `mul_24` and `post_norm_mul`.  The partial sums of `mul_24` are taken while it
is busy, and only a start makes it busy.
-/

namespace FpgaQuat.Fpu

open StdLogic Pipeline

/-- `t_state` of the serial units. -/
inductive TState where
  | waiting
  | busy
deriving DecidableEq, Repr

/-! ## pre_norm_mul -/

structure PreNormMul where
  exp10O : Vec 10

def PreNormMul.powerUp : PreNormMul := ⟨none⟩

/-- `fracta_24_o` and `fractb_24_o`, which are not registered. -/
def fract24 (op : Vec 32) : Vec 24 := ofBit (lnot (lnot (orReduce (slice op 30 23)))) ++ slice op 22 0

/-- `s_expa_in` and `s_expb_in`. -/
def expIn (op : Vec 32) : Vec 10 :=
  ((0 : Vec 2) ++ slice op 30 23) + ((0 : Vec 9) ++ ofBit (lnot (orReduce (slice op 30 23))))

def PreNormMul.step (opaI opbI : Vec 32) (_ : PreNormMul) : PreNormMul where
  exp10O := expIn opaI + expIn opbI - 0b0001111111

/-! ## mul_24 -/

structure Mul24 where
  sFractaI : Vec 24
  sFractbI : Vec 24
  sSignaI : Bit
  sSignbI : Bit
  sStartI : Bit
  sState : TState
  count : Fin 5
  prod2 : Fin 4 → Fin 4 → Vec 24
  sum : Fin 4 → Vec 24

def Mul24.powerUp : Mul24 := ⟨none, none, none, none, none, .waiting, 0, fun _ _ => none, fun _ => none⟩

/-- The inputs of `mul_24`. -/
structure Mul24In where
  fractaI : Vec 24
  fractbI : Vec 24
  signaI : Bit
  signbI : Bit
  startI : Bit

namespace Mul24

/-- The factors `prod(k)(0)` to `prod(k)(7)`. -/
def prod (s : Mul24) (k : Fin 4) : Fin 8 → Vec 6 :=
  let aH := slice s.sFractaI 23 12
  let aL := slice s.sFractaI 11 0
  let bH := slice s.sFractbI 23 12
  let bL := slice s.sFractbI 11 0
  match k with
  | 0 => ![slice aH 11 6, slice bH 11 6, slice aH 11 6, slice bH 5 0,
      slice aH 5 0, slice bH 11 6, slice aH 5 0, slice bH 5 0]
  | 1 => ![slice aH 11 6, slice bL 11 6, slice aH 11 6, slice bL 5 0,
      slice aH 5 0, slice bL 11 6, slice aH 5 0, slice bL 5 0]
  | 2 => ![slice aL 11 6, slice bH 11 6, slice aL 11 6, slice bH 5 0,
      slice aL 5 0, slice bH 11 6, slice aL 5 0, slice bH 5 0]
  | 3 => ![slice aL 11 6, slice bL 11 6, slice aL 11 6, slice bL 5 0,
      slice aL 5 0, slice bL 11 6, slice aL 5 0, slice bL 5 0]

/-- The four products of step `k`, each at its place. -/
def prods (s : Mul24) (k : Fin 4) : Fin 4 → Vec 24
  | 0 => mult (s.prod k 0) (s.prod k 1) ++ (0 : Vec 12)
  | 1 => (0 : Vec 6) ++ mult (s.prod k 2) (s.prod k 3) ++ (0 : Vec 6)
  | 2 => (0 : Vec 6) ++ mult (s.prod k 4) (s.prod k 5) ++ (0 : Vec 6)
  | 3 => (0 : Vec 12) ++ mult (s.prod k 6) (s.prod k 7)

section
-- the literals below share this proof
local instance four : NeZero 4 := ⟨four_ne_zero⟩

def step (i : Mul24In) (s : Mul24) : Mul24 where
  sFractaI := i.fractaI
  sFractbI := i.fractbI
  sSignaI := i.signaI
  sSignbI := i.signbI
  sStartI := i.startI
  sState :=
    if s.sStartI = some true then .busy
    else if s.count = 4 ∧ s.sState = .busy then .waiting
    else if s.sState = .busy then .busy
    else .waiting
  count :=
    if s.sStartI = some true then 0
    else if s.count = 4 ∧ s.sState = .busy then 0
    else if s.sState = .busy then s.count + 1
    else s.count
  prod2 k := if s.count = k.castSucc then s.prods k else s.prod2 k
  sum k :=
    -- `sum(count-1)`
    if s.count = k.succ ∧ s.sState = .busy then s.prod2 k 0 + s.prod2 k 1 + s.prod2 k 2 + s.prod2 k 3
    else s.sum k

def fractO (s : Mul24) : Vec 48 :=
  (s.sum 0 ++ (0 : Vec 24)) + ((0 : Vec 12) ++ s.sum 1 ++ (0 : Vec 12)) +
    ((0 : Vec 12) ++ s.sum 2 ++ (0 : Vec 12)) + ((0 : Vec 24) ++ s.sum 3)

end

def signO (s : Mul24) : Bit := lxor s.sSignaI s.sSignbI

end Mul24

/-! ## post_norm_mul -/

structure PostNormMul where
  sOpaI : Vec 32
  sOpbI : Vec 32
  sExpa : Vec 8
  sExpb : Vec 8
  sExp10I : Vec 10
  sFract48I : Vec 48
  sSignI : Bit
  sRmodeI : Vec 2
  sZeros : Vec 6
  sRZeros : Vec 6
  sExpo1 : Vec 9
  sShr2 : Vec 6
  sShl2 : Vec 6
  sFrac2a : Vec 48
  sFracRnd : Vec 25
  outputO : Vec 32

def PostNormMul.powerUp : PostNormMul :=
  ⟨none, none, none, none, none, none, none, none, none, none, none, none, none, none, none, none⟩

/-- The inputs of `post_norm_mul`. -/
structure PostNormMulIn where
  opaI : Vec 32
  opbI : Vec 32
  exp10I : Vec 10
  fract48I : Vec 48
  signI : Bit
  rmodeI : Vec 2

namespace PostNormMul

def carry (s : PostNormMul) : Bit := bit s.sFract48I 47

/-- `v_shr1`, `v_shl1` and `s_expo1`. -/
def stage1 (s : PostNormMul) : Vec 10 × Vec 10 × Vec 9 :=
  let carry10 : Vec 10 := (0 : Vec 9) ++ ofBit (carry s)
  let zeros10 : Vec 10 := (0 : Vec 4) ++ s.sZeros
  let exp10a := s.sExp10I + carry10
  let exp10b := exp10a - zeros10
  if bit exp10a 9 = some true ∨ exp10a = 0 then (1 - exp10a + carry10, 0, 1)
  else if bit exp10b 9 = some true ∨ exp10b = 0 then (0, zeros10 - exp10a, 1)
  else if bit exp10b 8 = some true then (0, 0, 0b011111111)
  else (carry10, zeros10, slice exp10b 8 0)

def expo2b (s : PostNormMul) : Vec 9 := if bit s.sFrac2a 46 = some false then s.sExpo1 - 1 else s.sExpo1

def shr3 (s : PostNormMul) : Bit := bit s.sFracRnd 24

def lost (s : PostNormMul) : Bool := gt (s.sShr2 + ((0 : Vec 5) ++ ofBit (shr3 s))) s.sRZeros

def sRoundup (s : PostNormMul) : Bit :=
  roundup s.sRmodeI s.sSignI (bit s.sFrac2a 22) (bit s.sFrac2a 21)
    (lor (orReduce (slice s.sFrac2a 20 0)) (some (lost s))) (bit s.sFrac2a 23)

def expo3 (s : PostNormMul) : Vec 9 :=
  if shr3 s = some true ∧ expo2b s ≠ 0b011111111 then expo2b s + 1 else expo2b s

def frac3 (s : PostNormMul) : Vec 25 :=
  if shr3 s = some true ∧ expo2b s ≠ 0b011111111 then (0 : Vec 1) ++ slice s.sFracRnd 24 1 else s.sFracRnd

def sOutputO (s : PostNormMul) : Vec 32 :=
  let op0 := lnot (land (orReduce (slice s.sOpaI 30 0)) (orReduce (slice s.sOpbI 30 0)))
  let infa : Bool := s.sExpa = 0b11111111
  let infb : Bool := s.sExpb = 0b11111111
  let nanA := infa && orReduce (slice s.sOpaI 22 0) = some true
  let nanB := infb && orReduce (slice s.sOpbI 22 0) = some true
  let nanOp := (infa || infb) && op0 = some true
  let overflow := expo3 s = 0b011111111 && !(infa || infb)
  if nanA || nanB || nanOp then ofBit s.sSignI ++ qnan
  else if infa || infb || overflow then ofBit s.sSignI ++ inf
  else if s.sRZeros = 48 then ofBit s.sSignI ++ zeroVector
  else ofBit s.sSignI ++ slice (expo3 s) 7 0 ++ slice (frac3 s) 22 0

def step (i : PostNormMulIn) (s : PostNormMul) : PostNormMul where
  sOpaI := i.opaI
  sOpbI := i.opbI
  sExpa := slice i.opaI 30 23
  sExpb := slice i.opbI 30 23
  sExp10I := i.exp10I
  sFract48I := i.fract48I
  sSignI := i.signI
  sRmodeI := i.rmodeI
  sZeros := if bit s.sFract48I 47 = some false then countLZeros (slice s.sFract48I 46 1) else 0
  sRZeros := countRZeros s.sFract48I
  sExpo1 := (stage1 s).2.2
  sShr2 := if bit (stage1 s).1 6 = some true then 0b111111 else slice (stage1 s).1 5 0
  sShl2 := slice (stage1 s).2.1 5 0
  sFrac2a := if s.sShr2 ≠ 0 then shr s.sFract48I s.sShr2 else shl s.sFract48I s.sShl2
  sFracRnd := if sRoundup s = some true then slice s.sFrac2a 47 23 + 1 else slice s.sFrac2a 47 23
  outputO := sOutputO s

end PostNormMul

/-! ## Without a start -/

/-- `mul_24` before its first start. -/
structure Mul24.Idle (s : Mul24) : Prop where
  start : s.sStartI ≠ some true
  state : s.sState = .waiting
  sum : ∀ k, s.sum k = none

theorem Mul24.idle_powerUp : Mul24.powerUp.Idle := ⟨nofun, rfl, fun _ => rfl⟩

theorem Mul24.Idle.step {s : Mul24} (h : s.Idle) {i : Mul24In} (hi : i.startI ≠ some true) : (s.step i).Idle := by
  refine ⟨hi, ?_, fun k => ?_⟩
  · simp [Mul24.step, h.start, h.state]
  · simp [Mul24.step, h.state, h.sum]

theorem Mul24.Idle.fractO {s : Mul24} (h : s.Idle) : s.fractO = none := by simp [Mul24.fractO, h.sum]

namespace PostNormMul

/-- Before anything came out of `mul_24`. -/
structure Blank (s : PostNormMul) : Prop where
  fract48 : s.sFract48I = none
  rZeros : s.sRZeros ≠ 48
  expo1 : s.sExpo1 = none
  frac2a : s.sFrac2a = none
  fracRnd : s.sFracRnd = none

theorem blank_powerUp : PostNormMul.powerUp.Blank := ⟨rfl, by decide, rfl, rfl, rfl⟩

theorem Blank.step {s : PostNormMul} (h : s.Blank) {i : PostNormMulIn} (hi : i.fract48I = none) :
    (s.step i).Blank where
  fract48 := hi
  rZeros := by
    simp only [PostNormMul.step, h.fract48]
    decide
  expo1 := by simp [PostNormMul.step, stage1, carry, h.fract48]
  frac2a := by simp [PostNormMul.step, h.fract48]
  fracRnd := by simp [PostNormMul.step, h.frac2a]

/-- The operands have come through. -/
structure Operands (a b : Vec 32) (s : PostNormMul) : Prop where
  opa : s.sOpaI = a
  opb : s.sOpbI = b
  expa : s.sExpa = slice a 30 23
  expb : s.sExpb = slice b 30 23

/-- An operand that is not a number, or zero times infinity. -/
def nanResult (a b : Vec 32) : Bool :=
  isNan a || isNan b ||
    ((isInf a || isInf b) && lnot (land (orReduce (slice a 30 0)) (orReduce (slice b 30 0))) = some true)

/-- The result where the operands alone decide it. -/
def special (a b : Vec 32) (sign : Bit) : Vec 32 :=
  if nanResult a b then ofBit sign ++ qnan
  else if isInf a || isInf b then ofBit sign ++ inf
  else none

/-- The result that the product decides. -/
def rounded (s : PostNormMul) : Vec 32 :=
  if expo3 s = 0b011111111 then ofBit s.sSignI ++ inf
  else if s.sRZeros = 48 then ofBit s.sSignI ++ zeroVector
  else ofBit s.sSignI ++ slice (expo3 s) 7 0 ++ slice (frac3 s) 22 0

theorem sOutputO_eq {a b : Vec 32} {s : PostNormMul} (h : s.Operands a b) :
    sOutputO s =
      if nanResult a b then ofBit s.sSignI ++ qnan
      else if isInf a || isInf b then ofBit s.sSignI ++ inf
      else rounded s := by
  have hinfa : decide (slice a 30 23 = (0b11111111 : Vec 8)) = isInf a := rfl
  have hinfb : decide (slice b 30 23 = (0b11111111 : Vec 8)) = isInf b := rfl
  unfold sOutputO nanResult isNan rounded
  simp only [h.opa, h.opb, h.expa, h.expb, hinfa, hinfb]
  cases isInf a <;> cases isInf b <;> simp

theorem sOutputO_of_special {a b : Vec 32} {s : PostNormMul} (h : s.Operands a b)
    (hs : (special a b s.sSignI).isSome) : sOutputO s = special a b s.sSignI := by
  rw [sOutputO_eq h]
  unfold special at hs ⊢
  split
  · rfl
  next hn =>
    split
    · rfl
    next hi =>
      rw [if_neg hn, if_neg hi] at hs
      cases hs

theorem sOutputO_of_blank {a b : Vec 32} {s : PostNormMul} (h : s.Operands a b) (hb : s.Blank) :
    sOutputO s = special a b s.sSignI := by
  have hexpo3 : expo3 s = none := by simp [expo3, expo2b, shr3, hb.frac2a, hb.fracRnd, hb.expo1]
  have hrounded : rounded s = none := by simp [rounded, hexpo3, hb.rZeros]
  rw [sOutputO_eq h, special, hrounded]

end PostNormMul

/-! ## After a start -/

/-- Defined factors and no start. -/
structure Mul24In.Quiet (i : Mul24In) : Prop where
  start : i.startI ≠ some true
  fracta : i.fractaI.isSome
  fractb : i.fractbI.isSome

namespace Mul24

theorem isSome_prods {s : Mul24} (ha : s.sFractaI.isSome) (hb : s.sFractbI.isSome) (k m : Fin 4) :
    (s.prods k m).isSome := by
  fin_cases k <;> fin_cases m <;> simp [prods, prod, ha, hb]

/-- `k` edges after `mul_24` became busy. -/
structure Phase (k : Nat) (s : Mul24) : Prop where
  start : s.sStartI ≠ some true
  state : s.sState = .busy
  count : s.count.val = k
  fracta : s.sFractaI.isSome
  fractb : s.sFractbI.isSome
  prod2 : ∀ j : Fin 4, j.val < k → ∀ m, (s.prod2 j m).isSome
  sum : ∀ j : Fin 4, j.val + 1 < k → (s.sum j).isSome

/-- All four sums taken. -/
structure Done (s : Mul24) : Prop where
  start : s.sStartI ≠ some true
  state : s.sState = .waiting
  sum : ∀ j, (s.sum j).isSome

theorem phase_start {s : Mul24} (hs : s.sStartI = some true) {i : Mul24In} (hi : i.Quiet) : Phase 0 (s.step i) :=
  ⟨hi.start, by simp [step, hs], by simp [step, hs], hi.fracta, hi.fractb, nofun, nofun⟩

theorem Phase.sum_step {k : Nat} {s : Mul24} (h : Phase k s) (i : Mul24In) (j : Fin 4) (hj : j.val < k) :
    ((s.step i).sum j).isSome := by
  simp only [step]
  split
  · simp [h.prod2 j hj]
  next hc =>
    refine h.sum j ?_
    have hne : s.count.val ≠ j.val + 1 := fun he => hc ⟨Fin.ext he, h.state⟩
    have := h.count
    omega

theorem Phase.step {k : Nat} {s : Mul24} (h : Phase k s) (hk : k < 4) {i : Mul24In} (hi : i.Quiet) :
    Phase (k + 1) (s.step i) := by
  have hcount : s.count ≠ 4 := fun h4 => by
    have := h.count
    rw [h4] at this
    exact absurd this (by simp; omega)
  refine ⟨hi.start, ?_, ?_, hi.fracta, hi.fractb, fun j hj m => ?_, fun j hj => h.sum_step i j (by omega)⟩
  · simp [Mul24.step, h.start, hcount, h.state]
  · have hlt : s.count < Fin.last 4 := Fin.lt_last_iff_ne_last.mpr hcount
    simp only [Mul24.step, if_neg h.start, if_neg (fun hc => hcount hc.1 : ¬ (s.count = 4 ∧ s.sState = .busy)),
      if_pos h.state]
    rw [Fin.val_add_one_of_lt hlt, h.count]
  · simp only [Mul24.step]
    split
    · exact isSome_prods h.fracta h.fractb j m
    next hc =>
      refine h.prod2 j ?_ m
      have hne : s.count.val ≠ j.val := fun he => hc (Fin.ext he)
      have := h.count
      omega

theorem Phase.done {s : Mul24} (h : Phase 4 s) {i : Mul24In} (hi : i.startI ≠ some true) : Done (s.step i) := by
  have hcount : s.count = 4 := Fin.ext h.count
  exact ⟨hi, by simp [Mul24.step, h.start, hcount, h.state], fun j => h.sum_step i j j.isLt⟩

theorem Done.step {s : Mul24} (h : Done s) {i : Mul24In} (hi : i.startI ≠ some true) : Done (s.step i) := by
  refine ⟨hi, by simp [Mul24.step, h.start, h.state], fun j => ?_⟩
  simp only [Mul24.step, h.state]
  simpa using h.sum j

theorem Done.fractO {s : Mul24} (h : Done s) : s.fractO.isSome := by simp [Mul24.fractO, h.sum]

end Mul24

namespace PostNormMul

/-- The inputs of `post_norm_mul` are defined. -/
structure Fed (i : PostNormMulIn) : Prop where
  exp10 : i.exp10I.isSome
  fract48 : i.fract48I.isSome
  sign : i.signI.isSome

/-- The registers defined up to stage `k`. -/
structure Level (k : Nat) (s : PostNormMul) : Prop where
  inputs : 1 ≤ k → s.sExp10I.isSome ∧ s.sFract48I.isSome ∧ s.sSignI.isSome
  zeros : 2 ≤ k → s.sZeros.isSome
  stage1 : 3 ≤ k → s.sExpo1.isSome ∧ s.sShr2.isSome ∧ s.sShl2.isSome
  frac2a : 4 ≤ k → s.sFrac2a.isSome
  fracRnd : 5 ≤ k → s.sFracRnd.isSome

/-- Nothing is asked of the registers before the first edge. -/
theorem level_zero (s : PostNormMul) : Level 0 s := by
  constructor <;> intro hk <;> omega

theorem allSome_stage1 {s : PostNormMul} (he : s.sExp10I.isSome) (hf : s.sFract48I.isSome) (hz : s.sZeros.isSome) :
    AllSome (stage1 s) := by
  have hcarry : (carry s).isSome := by simpa [carry] using hf
  refine .ite ⟨?_, ?_, ?_⟩ (.ite ⟨?_, ?_, ?_⟩ (.ite ⟨?_, ?_, ?_⟩ ⟨?_, ?_, ?_⟩)) <;> simp [hcarry, he, hz]

theorem Level.step {k : Nat} {s : PostNormMul} (h : Level k s) {i : PostNormMulIn} (hi : Fed i) :
    Level (k + 1) (s.step i) where
  inputs _ := ⟨hi.exp10, hi.fract48, hi.sign⟩
  zeros _ := by simp [PostNormMul.step]
  stage1 hk := by
    obtain ⟨he, hf, -⟩ := h.inputs (by omega)
    obtain ⟨hshr, hshl, hexpo⟩ := allSome_stage1 he hf (h.zeros (by omega))
    simp [PostNormMul.step, hshr, hshl, hexpo]
  frac2a hk := by
    obtain ⟨-, hf, -⟩ := h.inputs (by omega)
    obtain ⟨-, hshr, hshl⟩ := h.stage1 (by omega)
    simp [PostNormMul.step, hf, hshr, hshl]
  fracRnd hk := by simp [PostNormMul.step, h.frac2a (by omega)]

theorem isSome_sOutputO {s : PostNormMul} (h : Level 5 s) : (sOutputO s).isSome := by
  obtain ⟨-, -, hsign⟩ := h.inputs (by omega)
  obtain ⟨hexpo1, -⟩ := h.stage1 (by omega)
  have hexpo2b : (expo2b s).isSome := by simp [expo2b, hexpo1]
  have hexpo3 : (expo3 s).isSome := by simp [expo3, hexpo2b]
  have hfrac3 : (frac3 s).isSome := by simp [frac3, h.fracRnd (by omega)]
  simp [sOutputO, hsign, hexpo3, hfrac3, inf, qnan, zeroVector]

end PostNormMul

end FpgaQuat.Fpu
