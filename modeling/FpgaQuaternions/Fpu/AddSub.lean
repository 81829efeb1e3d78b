import FpgaQuaternions.Lib.Pipeline
import FpgaQuaternions.Lib.StdLogic

/-!
# The adder of the FPU

`pre_norm_addsub`, `addsub_28` and `post_norm_addsub`, and what of `fpupack` they share with
the other units.  A unit is a record of its registers and what an edge of the clock does to
them; the signals between are named as in the source.  None of the three has a start input:

    pre_norm_addsub   forgets in 2 edges
    addsub_28                    1
    post_norm_addsub             3

The `ine_o` outputs, which the instance leaves open, are not modelled.
-/

namespace FpgaQuat.Fpu

open StdLogic Pipeline

/-! ## fpupack -/

def zeroVector : Vec 31 := 0
def inf : Vec 31 := 0b1111111100000000000000000000000
def qnan : Vec 31 := 0b1111111110000000000000000000000
def snan : Vec 31 := 0b1111111100000000000000000000001

variable {w : Nat}

/-- The loop leaves at the first element that is not `0`. -/
def countLZeros (v : Vec w) : Vec 6 :=
  match v with
  | none => 0
  | some v => some (BitVec.ofNat 6 ((List.range w).takeWhile fun i => !v.getLsbD (w - 1 - i)).length)

def countRZeros (v : Vec w) : Vec 6 :=
  match v with
  | none => 0
  | some v => some (BitVec.ofNat 6 ((List.range w).takeWhile fun i => !v.getLsbD i).length)

@[simp] theorem isSome_countLZeros (v : Vec w) : (countLZeros v).isSome := by cases v <;> rfl

/-- `s_roundup` of every unit. -/
def roundup (rmode : Vec 2) (sign guard round sticky lsb : Bit) : Bit :=
  if rmode = 0b00 then land guard (lor (lor round sticky) lsb)
  else if rmode = 0b10 then land (lor (lor guard round) sticky) (lnot sign)
  else if rmode = 0b11 then land (lor (lor guard round) sticky) sign
  else some false

/-- `s_infa`, `s_nan_a` of an operand. -/
def isInf (op : Vec 32) : Bool := slice op 30 23 = 0b11111111

def isNan (op : Vec 32) : Bool := isInf op && orReduce (slice op 22 0) = some true

/-! ## pre_norm_addsub -/

structure PreNormAddsub where
  sExpO : Vec 8
  sExpDiff : Vec 8
  expO : Vec 8
  fracta28O : Vec 28
  fractb28O : Vec 28

def PreNormAddsub.powerUp : PreNormAddsub := ⟨none, none, none, none, none⟩

def PreNormAddsub.step (i : Vec 32 × Vec 32) (s : PreNormAddsub) : PreNormAddsub :=
  let expa := slice i.1 30 23
  let expb := slice i.2 30 23
  let fracta := slice i.1 22 0
  let fractb := slice i.2 22 0
  let expaLtExpb := gt expa expb
  let opaDn := lnot (orReduce expa)
  let opbDn := lnot (orReduce expb)
  -- an easy to handle format
  let fracta28 :=
    if opaDn = some false then (0b01 : Vec 2) ++ fracta ++ (0 : Vec 3) else (0 : Vec 2) ++ fracta ++ (0 : Vec 3)
  let fractb28 :=
    if opbDn = some false then (0b01 : Vec 2) ++ fractb ++ (0 : Vec 3) else (0 : Vec 2) ++ fractb ++ (0 : Vec 3)
  let fractSm28 := if expaLtExpb = false then fracta28 else fractb28
  let fractShr28 := shr fractSm28 s.sExpDiff
  let rzeros := countRZeros fractSm28
  let sticky : Bit := some (gt s.sExpDiff rzeros && orReduce fractSm28 = some true)
  let shifted := slice fractShr28 27 1 ++ ofBit (lor sticky (bit fractShr28 0))
  { sExpO := if expaLtExpb then expa else expb
    sExpDiff :=
      match expaLtExpb, lxor opaDn opbDn with
      | false, some false => expb - expa
      | false, some true => expb - (expa + 1)
      | true, some false => expa - expb
      | true, some true => expa - (expb + 1)
      | _, none => 0b11110000
    expO := s.sExpO
    fracta28O := if expaLtExpb then fracta28 else shifted
    fractb28O := if expaLtExpb = false then fractb28 else shifted }

/-! ## addsub_28 -/

structure Addsub28 where
  fractO : Vec 28
  signO : Bit

def Addsub28.powerUp : Addsub28 := ⟨none, none⟩

/-- The inputs of `addsub_28`. -/
structure Addsub28In where
  fpuOpI : Bit
  fractaI : Vec 28
  fractbI : Vec 28
  signaI : Bit
  signbI : Bit

def Addsub28.step (i : Addsub28In) (_ : Addsub28) : Addsub28 :=
  let fractaLtFractb := gt i.fractaI i.fractbI
  let addop := lor (land (lxor i.signaI i.signbI) (lnot i.fpuOpI)) (land (lnot (lxor i.signaI i.signbI)) i.fpuOpI)
  let fract :=
    if addop = some false then i.fractaI + i.fractbI
    else if fractaLtFractb then i.fractaI - i.fractbI
    else i.fractbI - i.fractaI
  { fractO := fract
    signO :=
      if fract = 0 ∧ land i.signaI i.signbI = some false then some false
      else lor (land (lnot i.signaI) (land (lnot (some fractaLtFractb)) (lxor i.fpuOpI i.signbI)))
        (land i.signaI (lor (some fractaLtFractb) (lxor i.fpuOpI i.signbI))) }

/-! ## post_norm_addsub -/

structure PostNormAddsub where
  sShr1 : Vec 6
  sShl1 : Vec 6
  sExpo91 : Vec 9
  sFracto281 : Vec 28
  outputO : Vec 32

def PostNormAddsub.powerUp : PostNormAddsub := ⟨none, none, none, none, none⟩

/-- The inputs of `post_norm_addsub`. -/
structure PostNormAddsubIn where
  opaI : Vec 32
  opbI : Vec 32
  fract28I : Vec 28
  expI : Vec 8
  signI : Bit
  fpuOpI : Bit
  rmodeI : Vec 2

namespace PostNormAddsub

def carry (i : PostNormAddsubIn) : Bit := bit i.fract28I 27

def zeros (i : PostNormAddsubIn) : Vec 6 := if carry i = some false then countLZeros (slice i.fract28I 26 0) else 0

/-- Stage 1: `s_shr1`, `s_shl1`, `s_expo9_1`. -/
def stage1 (i : PostNormAddsubIn) : Vec 6 × Vec 6 × Vec 9 :=
  let exp10 := ((0 : Vec 2) ++ i.expI) + ((0 : Vec 9) ++ ofBit (carry i)) - ((0 : Vec 4) ++ zeros i)
  if bit exp10 9 = some true ∨ exp10 = 0 then
    (0, if orReduce i.expI ≠ some false then slice i.expI 5 0 - 1 else 0, 1)
  else if bit exp10 8 = some true then (0, 0, 0b011111111)
  else ((0 : Vec 5) ++ ofBit (carry i), zeros i, slice exp10 8 0)

/-- Stages 2 and 3 behind the shifted fraction, and the output. -/
def sOutputO (i : PostNormAddsubIn) (s : PostNormAddsub) : Vec 32 :=
  let expo92 := if slice s.sFracto281 27 26 = 0 then s.sExpo91 - 1 else s.sExpo91
  let sticky : Bit :=
    some (bit s.sFracto281 0 = some true ∨ land (bit i.fract28I 0) (bit i.fract28I 27) = some true)
  let up := roundup i.rmodeI i.signI (bit s.sFracto281 2) (bit s.sFracto281 1) sticky (bit s.sFracto281 3)
  let fracto28Rnd := if up = some true then s.sFracto281 + 0b1000 else s.sFracto281
  let shr2 := bit fracto28Rnd 27
  let expo93 := if shr2 = some true ∧ expo92 ≠ 0b011111111 then expo92 + 1 else expo92
  let fracto282 : Vec 28 := if shr2 = some true then (0 : Vec 1) ++ slice fracto28Rnd 27 1 else fracto28Rnd
  let infab := isInf i.opaI || isInf i.opbI
  let nanOp := (isInf i.opaI && isInf i.opbI) &&
    lxor (bit i.opaI 31) (lxor i.fpuOpI (bit i.opbI 31)) = some true
  let nanSign :=
    if isNan i.opaI && isNan i.opbI then i.signI
    else if isNan i.opaI then bit i.opaI 31
    else bit i.opbI 31
  let overflow := expo93 = 0b011111111 && !infab
  let zeroFract := zeros i = 27 && bit i.fract28I 27 = some false
  if isNan i.opaI || isNan i.opbI || nanOp then ofBit nanSign ++ qnan
  else if infab || overflow then ofBit i.signI ++ inf
  else if zeroFract then ofBit i.signI ++ zeroVector
  else ofBit i.signI ++ slice expo93 7 0 ++ slice fracto282 25 3

def step (i : PostNormAddsubIn) (s : PostNormAddsub) : PostNormAddsub where
  sShr1 := (stage1 i).1
  sShl1 := (stage1 i).2.1
  sExpo91 := (stage1 i).2.2
  sFracto281 := if s.sShr1 ≠ 0 then shr i.fract28I s.sShr1 else shl i.fract28I s.sShl1
  outputO := sOutputO i s

end PostNormAddsub

/-! ## The three forget, and define their outputs -/

theorem PreNormAddsub.forgets (i : Vec 32 × Vec 32) : Forgets PreNormAddsub.step i 2 := fun _ _ => rfl

theorem Addsub28.forgets (i : Addsub28In) : Forgets Addsub28.step i 1 := fun _ _ => rfl

theorem PostNormAddsub.forgets (i : PostNormAddsubIn) : Forgets PostNormAddsub.step i 3 := fun _ _ => rfl

theorem PreNormAddsub.isSome_expDiff {i : Vec 32 × Vec 32} (ha : i.1.isSome) (hb : i.2.isSome) (s : PreNormAddsub) :
    (step i s).sExpO.isSome ∧ (step i s).sExpDiff.isSome := by
  unfold step
  dsimp only
  refine ⟨by simp [ha, hb], ?_⟩
  split <;> simp [ha, hb]

theorem PreNormAddsub.isSome_fract {i : Vec 32 × Vec 32} (ha : i.1.isSome) (hb : i.2.isSome) {s : PreNormAddsub}
    (hd : s.sExpDiff.isSome) : (step i s).fracta28O.isSome ∧ (step i s).fractb28O.isSome := by
  unfold step
  simp [ha, hb, hd]

theorem Addsub28.isSome_step {i : Addsub28In} (ha : i.fractaI.isSome) (hb : i.fractbI.isSome) (hsa : i.signaI.isSome)
    (hsb : i.signbI.isSome) (hop : i.fpuOpI.isSome) (s : Addsub28) :
    (step i s).fractO.isSome ∧ (step i s).signO.isSome := by
  unfold step
  simp [ha, hb, hsa, hsb, hop]

theorem PostNormAddsub.allSome_stage1 {i : PostNormAddsubIn} (hf : i.fract28I.isSome) (he : i.expI.isSome) :
    AllSome (stage1 i) := by
  have hzeros : (zeros i).isSome := by simp [zeros]
  have hcarry : (carry i).isSome := by simpa [carry] using hf
  refine .ite ⟨?_, ?_, ?_⟩ (.ite ⟨?_, ?_, ?_⟩ ⟨?_, ?_, ?_⟩) <;> simp [hzeros, hcarry, he]

theorem PostNormAddsub.isSome_fracto281 {i : PostNormAddsubIn} (hf : i.fract28I.isSome) {s : PostNormAddsub}
    (hshr : s.sShr1.isSome) (hshl : s.sShl1.isSome) : (step i s).sFracto281.isSome := by
  simp [step, hf, hshr, hshl]

theorem PostNormAddsub.isSome_sOutputO {i : PostNormAddsubIn} (ha : i.opaI.isSome) (hb : i.opbI.isSome)
    (hs : i.signI.isSome) {s : PostNormAddsub} (he : s.sExpo91.isSome) (hf : s.sFracto281.isSome) :
    (sOutputO i s).isSome := by
  unfold sOutputO
  simp [ha, hb, hs, he, hf, inf, qnan, zeroVector]

end FpgaQuat.Fpu
