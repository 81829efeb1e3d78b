import FpgaQuaternions.Lib.Effects
import FpgaQuaternions.Lib.Framing
import FpgaQuaternions.Server.Norm

/-!
# The server's transmission loop

`main` of `test.py` after the board has connected: `while 1` around a `for` over
`range(int(len(quaternion)/4))` that sends `str(quaternion[i]).encode()`.  The
`connection.recv` under the loop is never reached and is not modelled.

The text of a row is a frame: brackets around numbers that contain none.
-/

namespace FpgaQuat.Server

open Effects Framing

/-- The bytes of Python's `repr` of a float: digits, sign, point, exponent or a name, and no
bracket in any case. -/
structure FloatRepr where
  bytes : ℚ → List UInt8
  no_bracket : ∀ x, 0x5b ∉ bytes x ∧ 0x5d ∉ bytes x

/-- `str(row).encode()`: `[`, the numbers separated by a comma and a space, `]`. -/
def str (R : FloatRepr) (row : List ℚ) : List UInt8 :=
  0x5b :: (List.intercalate [0x2c, 0x20] (row.map R.bytes) ++ [0x5d])

inductive Call where
  | send (message : List UInt8)
  | print (text : String)

abbrev Call.Ans : Call → Type
  | .send _ => Nat
  | .print _ => Unit

abbrev Io : Sig := ⟨Call, Call.Ans⟩

/-- The body of the `for` loop; an index out of range ends the program. -/
def sendQuaternion (R : FloatRepr) (quaternion : Rows) (counter i : Nat) : Prog Io Nat :=
  match quaternion[i]? with
  | none => .exit 1
  | some row =>
    .call (.send (str R row)) fun _ =>
      .call (.print ("Quaternion  " ++ toString counter ++ "  Enviado!")) fun _ =>
        .pure (counter + 1)

/-- The body of `while 1`. -/
def sendQuaternions (R : FloatRepr) (quaternion : Rows) (counter : Nat) : Prog Io Nat :=
  (List.range (quaternion.length / 4)).foldlM (sendQuaternion R quaternion) counter

/-- The text of a number with at most one decimal. -/
def tenths (x : ℚ) : List UInt8 :=
  (if x < 0 then [0x2d] else []) ++
  (if ⌊|x|⌋₊ = 0 then [0x30] else (Nat.digits 10 ⌊|x|⌋₊).reverse.map fun d => 0x30 + d.toUInt8) ++
  [0x2e, 0x30 + (⌊|x| * 10⌋₊ % 10).toUInt8]

theorem tenths_no_bracket (x : ℚ) (y : UInt8) (hy : y ∈ tenths x) : y ≠ 0x5b ∧ y ≠ 0x5d := by
  have hdigit : ∀ d : Nat, d < 10 → 0x30 + d.toUInt8 ≠ 0x5b ∧ 0x30 + d.toUInt8 ≠ 0x5d := by decide
  rcases List.mem_append.mp hy with hy | hy
  · rcases List.mem_append.mp hy with hy | hy
    · split at hy
      · rw [List.mem_singleton.mp hy]; decide
      · cases hy
    · split at hy
      · rw [List.mem_singleton.mp hy]; decide
      · obtain ⟨d, hd, rfl⟩ := List.mem_map.mp hy
        exact hdigit d (Nat.digits_lt_base (by decide) (List.mem_reverse.mp hd))
  · rcases List.mem_pair.mp hy with rfl | rfl
    · decide
    · exact hdigit _ (Nat.mod_lt _ (by decide))

def FloatRepr.tenths : FloatRepr where
  bytes := Server.tenths
  no_bracket x := ⟨fun h => (tenths_no_bracket x _ h).1 rfl, fun h => (tenths_no_bracket x _ h).2 rfl⟩

theorem not_mem_intercalate {x : UInt8} {sep : List UInt8} (hsep : x ∉ sep) (ws : List (List UInt8))
    (hws : ∀ w ∈ ws, x ∉ w) : x ∉ sep.intercalate ws := by
  induction ws with
  | nil => exact List.not_mem_nil
  | cons w ws ih =>
    have hw := hws w List.mem_cons_self
    have htail := ih fun v hv => hws v (List.mem_cons_of_mem _ hv)
    cases ws with
    | nil => simpa [List.intercalate] using hw
    | cons v ws =>
      have he : sep.intercalate (w :: v :: ws) = w ++ (sep ++ sep.intercalate (v :: ws)) := by
        simp [List.intercalate]
      rw [he, List.mem_append, List.mem_append]
      tauto

/-- **The text of a row is a frame.** -/
theorem str_framed (R : FloatRepr) (row : List ℚ) : Framed 0x5b 0x5d (str R row) := by
  refine ⟨_, rfl, not_mem_intercalate (by decide) _ ?_, not_mem_intercalate (by decide) _ ?_⟩
  · intro w hw
    obtain ⟨x, -, rfl⟩ := List.mem_map.mp hw
    exact (R.no_bracket x).1
  · intro w hw
    obtain ⟨x, -, rfl⟩ := List.mem_map.mp hw
    exact (R.no_bracket x).2

end FpgaQuat.Server
