import FpgaQuaternions.Fpu.SquareRoot

/-!
# The entity fpu

The units behind the input registers and the output multiplexer.  `mul_24` is given `start_i`
itself, the other serial units the registered one.  The serial multiplier is not selected
(`MUL_SERIAL` is 0); it, the counter behind `ready_o` and the exception outputs are not
modelled.
-/

namespace FpgaQuat.Fpu

open StdLogic Pipeline

structure Ports where
  opaI : Vec 32
  opbI : Vec 32
  fpuOpI : Vec 3
  rmodeI : Vec 2
  startI : Bit

structure Core where
  sOpaI : Vec 32
  sOpbI : Vec 32
  sFpuOpI : Vec 3
  sRmodeI : Vec 2
  sStartI : Bit
  preNormAddsub : PreNormAddsub
  addsub : Addsub28
  postNormAddsub : PostNormAddsub
  preNormMul : PreNormMul
  mul24 : Mul24
  postNormMul : PostNormMul
  preNormDiv : PreNormDiv
  serialDiv : SerialDiv
  postNormDiv : PostNormDiv
  preNormSqrt : PreNormSqrt
  sqrt : Sqrt
  postNormSqrt : PostNormSqrt
  sOutput1 : Vec 32
  outputO : Vec 32

namespace Core

def powerUp : Core where
  sOpaI := none
  sOpbI := none
  sFpuOpI := none
  sRmodeI := none
  sStartI := none
  preNormAddsub := .powerUp
  addsub := .powerUp
  postNormAddsub := .powerUp
  preNormMul := .powerUp
  mul24 := .powerUp
  postNormMul := .powerUp
  preNormDiv := .powerUp
  serialDiv := .powerUp
  postNormDiv := .powerUp
  preNormSqrt := .powerUp
  sqrt := .powerUp
  postNormSqrt := .powerUp
  sOutput1 := none
  outputO := none

/-- The output multiplexer. -/
def output1 (i : Ports) (s : Core) : Vec 32 :=
  if i.fpuOpI = 0b000 ∨ i.fpuOpI = 0b001 then s.postNormAddsub.outputO
  else if i.fpuOpI = 0b010 then s.postNormMul.outputO
  else if i.fpuOpI = 0b011 then s.postNormDiv.outputO
  else if i.fpuOpI = 0b100 then s.postNormSqrt.outputO
  else 0

/-- `s_output_o`: what overflows is finite where the rounding mode leads away from infinity. -/
def sOutputO (i : Ports) (s : Core) : Vec 32 :=
  let divZero := i.fpuOpI = 0b011 && s.serialDiv.divZeroO
  let sQnan : Bool := slice s.sOutput1 30 0 = qnan
  let sSnan := slice s.sOpaI 30 0 = snan || slice s.sOpbI 30 0 = snan
  let sZero : Bool := orReduce (slice s.sOutput1 30 0) = some false
  if s.sRmodeI = 0b00 ∨ (divZero || (isInf s.sOpaI || isInf s.sOpbI) || sQnan || sSnan) = true then s.sOutput1
  else if s.sRmodeI = 0b01 ∧ slice s.sOutput1 30 23 = 0b11111111 then
    ofBit (bit s.sOutput1 31) ++ (0b1111111011111111111111111111111 : Vec 31)
  else if s.sRmodeI = 0b10 ∧ slice s.sOutput1 31 23 = 0b111111111 then 0b11111111011111111111111111111111
  else if s.sRmodeI = 0b11 then
    if (s.sFpuOpI = 0b000 ∨ s.sFpuOpI = 0b001) ∧ sZero = true ∧
        lor (bit s.sOpaI 31) (lxor (bit s.sFpuOpI 0) (bit s.sOpbI 31)) = some true then
      (1 : Vec 1) ++ slice s.sOutput1 30 0
    else if slice s.sOutput1 31 23 = 0b011111111 then 0b01111111011111111111111111111111
    else s.sOutput1
  else s.sOutput1

/-- An edge of `clk_i`. -/
def step (i : Ports) (s : Core) : Core where
  sOpaI := i.opaI
  sOpbI := i.opbI
  sFpuOpI := i.fpuOpI
  sRmodeI := i.rmodeI
  sStartI := i.startI
  preNormAddsub := PreNormAddsub.step (s.sOpaI, s.sOpbI) s.preNormAddsub
  addsub := s.addsub.step {
    fpuOpI := bit s.sFpuOpI 0
    fractaI := s.preNormAddsub.fracta28O
    fractbI := s.preNormAddsub.fractb28O
    signaI := bit s.sOpaI 31
    signbI := bit s.sOpbI 31 }
  postNormAddsub := s.postNormAddsub.step {
    opaI := s.sOpaI
    opbI := s.sOpbI
    fract28I := s.addsub.fractO
    expI := s.preNormAddsub.expO
    signI := s.addsub.signO
    fpuOpI := bit s.sFpuOpI 0
    rmodeI := s.sRmodeI }
  preNormMul := s.preNormMul.step s.sOpaI s.sOpbI
  mul24 := s.mul24.step {
    fractaI := fract24 s.sOpaI
    fractbI := fract24 s.sOpbI
    signaI := bit s.sOpaI 31
    signbI := bit s.sOpbI 31
    startI := i.startI }
  postNormMul := s.postNormMul.step {
    opaI := s.sOpaI
    opbI := s.sOpbI
    exp10I := s.preNormMul.exp10O
    fract48I := s.mul24.fractO
    signI := s.mul24.signO
    rmodeI := s.sRmodeI }
  preNormDiv := s.preNormDiv.step (s.sOpaI, s.sOpbI)
  serialDiv := s.serialDiv.step {
    dvdndI := dvdnd50O s.sOpaI
    dvsorI := dvsor27O s.sOpbI
    startI := s.sStartI }
  postNormDiv := s.postNormDiv.step {
    opaI := s.sOpaI
    opbI := s.sOpbI
    qutntI := s.serialDiv.sQutntO
    rmndrI := s.serialDiv.sRmndrO
    exp10I := s.preNormDiv.exp10O
    signI := lxor (bit s.sOpaI 31) (bit s.sOpbI 31)
    rmodeI := s.sRmodeI }
  preNormSqrt := s.preNormSqrt.step s.sOpaI
  sqrt := s.sqrt.step (fracta52O s.sOpaI) s.sStartI
  postNormSqrt := s.postNormSqrt.step {
    opaI := s.sOpaI
    fract26I := s.sqrt.sqrO
    expI := s.preNormSqrt.expO
    ineI := s.sqrt.ineO
    rmodeI := s.sRmodeI }
  sOutput1 := output1 i s
  outputO := sOutputO i s

end Core

end FpgaQuat.Fpu
