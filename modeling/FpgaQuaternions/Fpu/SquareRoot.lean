import FpgaQuaternions.Fpu.Divide

/-!
# The square root of the FPU

`pre_norm_sqrt`, `sqrt` and `post_norm_sqrt`.  The approximations `r0` and `r1` are cleared by
a start and refined at every edge of the 27 that follow.
-/

namespace FpgaQuat.Fpu

open StdLogic Pipeline

/-! ## pre_norm_sqrt -/

structure PreNormSqrt where
  sExpO : Vec 9

def PreNormSqrt.powerUp : PreNormSqrt := ⟨none⟩

def PreNormSqrt.step (opaI : Vec 32) (_ : PreNormSqrt) : PreNormSqrt where
  sExpO :=
    let expTem := ((0 : Vec 1) ++ slice opaI 30 23) + 0b001111111 - ((0 : Vec 3) ++ countLZeros (fract24 opaI))
    if orReduce (slice opaI 30 0) = some true then (0 : Vec 1) ++ slice expTem 8 1 else 0

def PreNormSqrt.expO (s : PreNormSqrt) : Vec 8 := slice s.sExpO 7 0

def fracta52O (opaI : Vec 32) : Vec 52 :=
  if bit (slice opaI 30 23) 0 = some false then normalized opaI ++ (0 : Vec 28)
  else (0 : Vec 1) ++ normalized opaI ++ (0 : Vec 27)

/-! ## sqrt -/

structure Sqrt where
  sRadI : Vec 52
  sStartI : Bit
  sState : TState
  sCount : Fin 27
  b : Vec 52
  b2 : Vec 52
  c : Vec 5
  r0 : Vec 52
  r02 : Vec 52
  r1 : Vec 52
  r12 : Vec 52
  sSqrO : Vec 52
  sIneO : Bit
  sqrO : Vec 26
  ineO : Bit

def Sqrt.powerUp : Sqrt :=
  ⟨none, none, .waiting, 0, none, none, none, none, none, none, none, none, none, none, none⟩

namespace Sqrt

/-- `v_r1` and `v_r1_2`. -/
def next (s : Sqrt) : Vec 52 × Vec 52 :=
  let op1 := s.r02 + s.b2
  let op2 := shl s.r0 s.c
  if gt s.r02 s.sRadI then ((0 : Vec 26) ++ (slice s.r0 25 0 - slice s.b 25 0), op1 - op2)
  else ((0 : Vec 26) ++ (slice s.r0 25 0 + slice s.b 25 0), op1 + op2)

def step (radI : Vec 52) (startI : Bit) (s : Sqrt) : Sqrt where
  sRadI := radI
  sStartI := startI
  sState :=
    if s.sStartI = some true then .busy
    else if s.sCount = 0 ∧ s.sState = .busy then .waiting
    else if s.sState = .busy then .busy
    else .waiting
  sCount :=
    if s.sStartI = some true then 26
    else if s.sCount = 0 ∧ s.sState = .busy then 26
    else if s.sState = .busy then s.sCount - 1
    else s.sCount
  -- `2^25`, its square and 26
  b := if s.sStartI = some true then 0x2000000 else (0 : Vec 1) ++ slice s.b 51 1
  b2 := if s.sStartI = some true then 0x4000000000000 else (0 : Vec 2) ++ slice s.b2 51 2
  c := if s.sStartI = some true then 0b11010 else s.c - 1
  r0 :=
    if s.sStartI = some true then 0
    else if s.sState = .busy then (next s).1
    else s.r0
  r02 :=
    if s.sStartI = some true then 0
    else if s.sState = .busy then (next s).2
    else s.r02
  r1 := if s.sStartI ≠ some true ∧ s.sState = .busy then (next s).1 else s.r1
  r12 := if s.sStartI ≠ some true ∧ s.sState = .busy then (next s).2 else s.r12
  sSqrO :=
    if s.sStartI = some true then 0
    else if s.sCount = 0 then if gt s.r12 s.sRadI then s.r1 - 1 else s.r1
    else s.sSqrO
  sIneO :=
    if s.sCount = 0 then
      some (!(s.r12 = s.sRadI || s.r12 - (slice s.r1 50 0 ++ (0 : Vec 1)) + 1 = s.sRadI))
    else s.sIneO
  sqrO := slice s.sSqrO 25 0
  ineO := s.sIneO

end Sqrt

/-! ## post_norm_sqrt -/

structure PostNormSqrt where
  sOpaI : Vec 32
  sExpa : Vec 8
  sSignI : Bit
  sFract26I : Vec 26
  sIneI : Bit
  sExpI : Vec 8
  sRmodeI : Vec 2
  sFracRnd : Vec 24
  outputO : Vec 32

def PostNormSqrt.powerUp : PostNormSqrt := ⟨none, none, none, none, none, none, none, none, none⟩

/-- The inputs of `post_norm_sqrt`. -/
structure PostNormSqrtIn where
  opaI : Vec 32
  fract26I : Vec 26
  expI : Vec 8
  ineI : Bit
  rmodeI : Vec 2

namespace PostNormSqrt

def sRoundup (s : PostNormSqrt) : Bit :=
  roundup s.sRmodeI s.sSignI (bit s.sFract26I 1) (bit s.sFract26I 0) s.sIneI (bit s.sFract26I 3)

def sOutputO (s : PostNormSqrt) : Vec 32 :=
  let infa : Bool := s.sExpa = 0b11111111
  let nanA := infa && orReduce (slice s.sOpaI 22 0) = some true
  let nanOp : Bool := s.sSignI = some true ∧ orReduce (slice s.sOpaI 30 0) = some true
  if nanA || nanOp then ofBit s.sSignI ++ qnan
  else if infa then ofBit s.sSignI ++ inf
  else ofBit s.sSignI ++ s.sExpI ++ slice s.sFracRnd 22 0

def step (i : PostNormSqrtIn) (s : PostNormSqrt) : PostNormSqrt where
  sOpaI := i.opaI
  sExpa := slice i.opaI 30 23
  sSignI := bit i.opaI 31
  sFract26I := i.fract26I
  sIneI := i.ineI
  sExpI := i.expI
  sRmodeI := i.rmodeI
  sFracRnd := if sRoundup s = some true then slice s.sFract26I 25 2 + 1 else slice s.sFract26I 25 2
  outputO := sOutputO s

end PostNormSqrt

/-! ## Without a start -/

/-- `sqrt` before its first start. -/
structure Sqrt.Idle (s : Sqrt) : Prop where
  start : s.sStartI ≠ some true
  state : s.sState = .waiting
  r1 : s.r1 = none
  root : s.sSqrO = none
  sqrO : s.sqrO = none

theorem Sqrt.idle_powerUp : Sqrt.powerUp.Idle := ⟨nofun, rfl, rfl, rfl, rfl⟩

theorem Sqrt.Idle.step {s : Sqrt} (h : s.Idle) (radI : Vec 52) {startI : Bit} (hi : startI ≠ some true) :
    (s.step radI startI).Idle := by
  refine ⟨hi, ?_, ?_, ?_, ?_⟩ <;> simp [Sqrt.step, h.start, h.state, h.r1, h.root]

namespace PostNormSqrt

/-- Before anything came out of `sqrt`. -/
structure Blank (s : PostNormSqrt) : Prop where
  fract26 : s.sFract26I = none
  fracRnd : s.sFracRnd = none

theorem blank_powerUp : PostNormSqrt.powerUp.Blank := ⟨rfl, rfl⟩

theorem Blank.step {s : PostNormSqrt} (h : s.Blank) {i : PostNormSqrtIn} (hi : i.fract26I = none) :
    (s.step i).Blank :=
  ⟨hi, by simp [PostNormSqrt.step, h.fract26]⟩

/-- The operand has come through. -/
structure Operands (a : Vec 32) (s : PostNormSqrt) : Prop where
  opa : s.sOpaI = a
  expa : s.sExpa = slice a 30 23
  sign : s.sSignI = bit a 31

/-- An operand that is not a number, or negative. -/
def nanResult (a : Vec 32) : Bool :=
  isNan a || (bit a 31 = some true ∧ orReduce (slice a 30 0) = some true)

/-- The result where the operand alone decides it. -/
def special (a : Vec 32) : Vec 32 :=
  if nanResult a then ofBit (bit a 31) ++ qnan
  else if isInf a then ofBit (bit a 31) ++ inf
  else none

theorem sOutputO_eq {a : Vec 32} {s : PostNormSqrt} (h : s.Operands a) :
    sOutputO s =
      if nanResult a then ofBit (bit a 31) ++ qnan
      else if isInf a then ofBit (bit a 31) ++ inf
      else ofBit (bit a 31) ++ s.sExpI ++ slice s.sFracRnd 22 0 := by
  unfold sOutputO nanResult isNan isInf
  simp only [h.opa, h.expa, h.sign]

theorem sOutputO_of_special {a : Vec 32} {s : PostNormSqrt} (h : s.Operands a) (hs : (special a).isSome) :
    sOutputO s = special a := by
  rw [sOutputO_eq h]
  unfold special at hs ⊢
  cases hn : nanResult a with
  | true => rfl
  | false =>
    cases hi : isInf a with
    | true => rfl
    | false => simp [hn, hi] at hs

theorem sOutputO_of_blank {a : Vec 32} {s : PostNormSqrt} (h : s.Operands a) (hb : s.Blank) :
    sOutputO s = special a := by
  rw [sOutputO_eq h, special, hb.fracRnd]
  simp

theorem isSome_sOutputO {a : Vec 32} {s : PostNormSqrt} (h : s.Operands a) (ha : a.isSome) (he : s.sExpI.isSome)
    (hf : s.sFracRnd.isSome) : (sOutputO s).isSome := by
  rw [sOutputO_eq h]
  simp [ha, he, hf, inf, qnan]

end PostNormSqrt

/-! ## After a start -/

namespace Sqrt

/-- From the first edge after a start: an approximation is there before the count ends. -/
structure Running (s : Sqrt) : Prop where
  b : s.b.isSome
  b2 : s.b2.isSome
  c : s.c.isSome
  r0 : s.r0.isSome
  r02 : s.r02.isSome
  root : s.sSqrO.isSome
  r1 : s.r1.isSome ∨ s.sState = .busy ∧ s.sCount = 26

theorem Running.next {s : Sqrt} (h : s.Running) : (next s).1.isSome ∧ (next s).2.isSome := by
  unfold Sqrt.next
  dsimp only
  split <;> simp [h.b, h.b2, h.c, h.r0, h.r02]

theorem running_start {s : Sqrt} (hs : s.sStartI = some true) (radI : Vec 52) (startI : Bit) :
    (s.step radI startI).Running := by
  refine ⟨?_, ?_, ?_, ?_, ?_, ?_, .inr ⟨?_, ?_⟩⟩ <;> simp [step, hs]

theorem Running.step {s : Sqrt} (h : s.Running) (radI : Vec 52) (startI : Bit) :
    (s.step radI startI).Running := by
  by_cases hs : s.sStartI = some true
  · exact running_start hs radI startI
  obtain ⟨hr1, hr2⟩ := h.next
  have hroot : (s.step radI startI).sSqrO.isSome := by
    simp only [Sqrt.step, if_neg hs]
    split
    next h0 =>
      have hr : s.r1.isSome := h.r1.resolve_right fun h26 => absurd (h0.symm.trans h26.2) (by decide)
      simp [hr]
    next => exact h.root
  refine ⟨?_, ?_, ?_, ?_, ?_, hroot, .inl ?_⟩
  · simp [Sqrt.step, hs, h.b]
  · simp [Sqrt.step, hs, h.b2]
  · simp [Sqrt.step, hs, h.c]
  · simp [Sqrt.step, hs, hr1, h.r0]
  · simp [Sqrt.step, hs, hr2, h.r02]
  · simp only [Sqrt.step]
    split
    · exact hr1
    next hb => exact h.r1.resolve_right fun h26 => hb ⟨hs, h26.1⟩

end Sqrt

end FpgaQuat.Fpu
