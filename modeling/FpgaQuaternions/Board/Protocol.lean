import FpgaQuaternions.Board.Task
import FpgaQuaternions.Calc.Readback

/-!
# The accesses of the task against the registers of calc

One pass of the loop makes twelve accesses to `QUAT_0_BASE` (`iteration_accesses`):
the first quaternion goes to register 0, which is the control register, the second
to register 1, and the result is read from register 2 four times.  `OnBus` runs such
accesses on the circuit.

* a component is stored truncated towards zero, not scaled by `2 ^ 30`, so on
  `[-1, 1]` the word is -1, 0 or 1 (`toInt32_unit`);
* no READ is ever written in the cycle of a read, so every `IORD` returns all ones
  (`onBus_read`);
* no pass agrees with the register protocol (`never_agrees`).
-/

namespace FpgaQuat.Board

open Effects Calc

/-- An access to `QUAT_0_BASE`. -/
inductive Access where
  | write (regnum : Nat) (data : BitVec 32)
  | read (regnum : Nat) (data : BitVec 32)
deriving DecidableEq, Repr

def Access.ofEvent : Event Io → Option Access
  | ⟨.iowr regnum data, _⟩ => some (.write regnum data)
  | ⟨.iord regnum, data⟩ => some (.read regnum data)
  | _ => none

/-- The accesses of a run, in order. -/
def accesses (t : List (Event Io)) : List Access := t.filterMap Access.ofEvent

/-- The pins of an access to a register. -/
def busPins (regnum : Nat) (writeEn readEn : Bool) (data : BitVec 32) : Pins :=
  ⟨false, true, BitVec.ofNat 2 regnum, writeEn, readEn, data⟩

/-- Accesses carried out by the circuit, idle cycles in between: a write is one cycle, a read
two (`writeWaitTime` 0, `readWaitTime` 1), the word being taken at the end. -/
inductive OnBus : State → List Access → State → Prop
  | done (s : State) : OnBus s [] s
  | idle {s s' : State} {acc : List Access} (p : Pins) (h : p.writeEn = false) :
      OnBus (s.cycle p) acc s' → OnBus s acc s'
  | write {s s' : State} {acc : List Access} (regnum : Nat) (data : BitVec 32) :
      OnBus (s.cycle (busPins regnum true false data)) acc s' → OnBus s (.write regnum data :: acc) s'
  | read {s s' : State} {acc : List Access} (regnum : Nat) (wdi : BitVec 32) :
      OnBus ((s.cycle (busPins regnum false true wdi)).cycle (busPins regnum false true wdi)) acc s' →
      OnBus s (.read regnum ((s.cycle (busPins regnum false true wdi)).sampleReaddataint
        (busPins regnum false true wdi)) :: acc) s'

/-- The 32-bit encoding of a number in `sfixed(1 downto -30)`: `round(x * 2^30)`. -/
def encode (x : ℚ) : BitVec 32 := BitVec.ofInt 32 (round (x * 2 ^ 30))

/-- **The register protocol**, for the product of two quaternions component by component: every
component is written to the operand register, encoded; only commands (LOAD, MULT, READ) are
written to the control register; and the words read are the encoded products. -/
structure Agrees (q : Fin 2 → Fin 4 → ℚ) (acc : List Access) : Prop where
  operands : ∀ i j, .write 1 (encode (q i j)) ∈ acc
  control : ∀ w, .write 0 w ∈ acc → w = 3 ∨ w = 1 ∨ w = 2
  results : ∃ regnum : Fin 4 → Nat, acc.filter (fun a => a matches .read _ _) =
    List.ofFn fun j => .read (regnum j) (encode (q 0 j * q 1 j))

/-! ## The accesses of a pass -/

theorem accesses_append (t u : List (Event Io)) : accesses (t ++ u) = accesses t ++ accesses u :=
  List.filterMap_append

/-- A program that makes no access, whatever it is answered. -/
def Quiet {α : Type} : Prog Io α → Prop
  | .pure _ => True
  | .exit _ => True
  | .call op k => (∀ r, Access.ofEvent ⟨op, r⟩ = none) ∧ ∀ r, Quiet (k r)

theorem Quiet.accesses {α : Type} {p : Prog Io α} {t : List (Event Io)} {a : α} (hp : Quiet p)
    (h : Returns p t a) : accesses t = [] := by
  induction h with
  | pure a => rfl
  | @call op k r t a _ ih =>
    rw [Board.accesses, List.filterMap_cons_none (hp.1 r)]
    exact ih (hp.2 r)

theorem quiet_recvOrExit (buffer : Buffer) : Quiet (recvOrExit buffer) := by
  refine ⟨fun _ => rfl, fun r => ?_⟩
  dsimp only
  split <;> trivial

theorem quiet_recvOrShow (buffer : Buffer) : Quiet (recvOrShow buffer) := by
  refine ⟨fun _ => rfl, fun r => ?_⟩
  dsimp only
  split
  · exact ⟨fun _ => rfl, fun _ => trivial⟩
  · trivial

theorem quiet_sendOrShow (buffer : Buffer) : Quiet (sendOrShow buffer) := by
  refine ⟨fun _ => rfl, fun n => ?_⟩
  dsimp only
  split
  · exact ⟨fun _ => rfl, fun _ => trivial⟩
  · trivial

/-- **What a pass does on the bus**: twelve accesses, whatever it receives. -/
theorem iteration_accesses {b b' : Task} {t : List (Event Io)} (h : Returns (iteration b) t b') :
    ∃ d : Fin 4 → BitVec 32, accesses t =
      (List.ofFn fun j => .write 0 (toInt32 (b.quaternion 0 j))) ++
      (List.ofFn fun j => .write 1 (toInt32 (b.quaternion 1 j))) ++
      List.ofFn fun j => .read 2 (d j) := by
  obtain ⟨t1, buffer1, u1, rfl, h1, k1⟩ := returns_bind.mp h
  obtain ⟨t2, buffer2, u2, rfl, h2, k2⟩ := returns_bind.mp k1
  simp only [toParse, iowr, Prog.call_bind, Prog.pure_bind, returns_call] at k2
  obtain ⟨_, _, rfl, _, _, rfl, _, _, rfl, _, _, rfl, _, u3, rfl, k3⟩ := k2
  obtain ⟨t3, buffer3, u4, rfl, h3, k4⟩ := returns_bind.mp k3
  simp only [msleep, iord, Prog.call_bind, Prog.pure_bind, returns_call] at k4
  obtain ⟨_, _, rfl, _, _, rfl, _, _, rfl, _, _, rfl, _, _, rfl, _, _, rfl, k5⟩ := k4
  obtain ⟨d0, _, rfl, d1, _, rfl, d2, _, rfl, d3, u5, rfl, k6⟩ := k5
  obtain ⟨t4, _, u6, rfl, h4, k7⟩ := returns_bind.mp k6
  obtain ⟨rfl, -⟩ := returns_pure.mp k7
  refine ⟨![d0, d1, d2, d3], ?_⟩
  simp only [accesses_append, (quiet_recvOrExit _).accesses h1, (quiet_recvOrExit _).accesses h2,
    List.nil_append]
  show [_, _, _, _] ++ accesses (t3 ++ _) = _
  simp only [accesses_append, (quiet_recvOrShow _).accesses h3, List.nil_append]
  show [_, _, _, _] ++ ([_, _, _, _] ++ ([_, _, _, _] ++ accesses (t4 ++ []))) = _
  rw [List.append_nil, (quiet_sendOrShow _).accesses h4]
  rfl

/-! ## What the bus answers and what is stored -/

/-- **Every read returns all ones.** -/
theorem onBus_read {s s' : State} {acc : List Access} (h : OnBus s acc s') :
    ∀ regnum w, .read regnum w ∈ acc → w = 0xffffffff#32 := by
  induction h with
  | done s => intro _ _ hm; cases hm
  | idle p _ _ ih => exact ih
  | write regnum data _ ih =>
    intro n w hm
    rcases List.mem_cons.mp hm with he | hm
    · cases he
    · exact ih n w hm
  | read regnum wdi _ ih =>
    intro n w hm
    rcases List.mem_cons.mp hm with he | hm
    · cases he
      exact sample_of_not_write _ _ rfl
    · exact ih n w hm

/-- In any state of the circuit a pass can be run to its end. -/
theorem exists_pass (b : Task) (s : State) :
    ∃ t b' s', Returns (iteration b) t b' ∧ OnBus s (accesses t) s' := by
  have hread : ∀ {s s' : State} {acc : List Access}, OnBus ((s.cycle (busPins 2 false true 0)).cycle
      (busPins 2 false true 0)) acc s' → OnBus s (.read 2 0xffffffff#32 :: acc) s' := by
    intro s s' acc h
    rw [← sample_of_not_write (s.cycle (busPins 2 false true 0)) (busPins 2 false true 0) rfl]
    exact .read 2 0 h
  let r : Received := .data [] (Nat.zero_le _)
  have hbus : ∃ s', OnBus s (accesses (pass b r r r (fun _ => 0xffffffff#32) 0)) s' :=
    ⟨_, .write _ _ (.write _ _ (.write _ _ (.write _ _ (.write _ _ (.write _ _ (.write _ _
      (.write _ _ (hread (hread (hread (hread (.done _))))))))))))⟩
  obtain ⟨s', hs⟩ := hbus
  exact ⟨_, _, s', returns_pass b r r r _ 0 (le_refl _) (le_refl _) (le_refl _) (le_refl _), hs⟩

/-- On `[-1, 1]` only the ends are not stored as zero. -/
theorem toInt32_unit (x : ℚ) (h : |x| ≤ 1) :
    toInt32 x = BitVec.ofInt 32 (if x = 1 then 1 else if x = -1 then -1 else 0) := by
  have hden : (0 : ℚ) < x.den := by exact_mod_cast x.den_pos
  obtain ⟨hlo, hhi⟩ := abs_le.mp h
  rw [← Rat.num_div_den x, le_div_iff₀ hden] at hlo
  rw [← Rat.num_div_den x, div_le_one hden] at hhi
  have hlo' : -(x.den : ℤ) ≤ x.num := by rw [neg_one_mul] at hlo; exact_mod_cast hlo
  have hhi' : x.num ≤ x.den := by exact_mod_cast hhi
  have h1 : x = 1 ↔ x.num = x.den := by
    nth_rewrite 1 [← Rat.num_div_den x]
    rw [div_eq_one_iff_eq hden.ne']
    exact_mod_cast Iff.rfl
  have h2 : x = -1 ↔ x.num = -x.den := by
    nth_rewrite 1 [← Rat.num_div_den x]
    rw [div_eq_iff hden.ne', neg_one_mul]
    exact_mod_cast Iff.rfl
  have hpos : (x.den : ℤ) ≠ 0 := by exact_mod_cast x.den_pos.ne'
  unfold toInt32
  congr 1
  split
  · next h => rw [h1.mp h, Int.tdiv_self hpos]
  · next hne =>
    split
    · next h => rw [h2.mp h, Int.neg_tdiv, Int.tdiv_self hpos]
    · next hne' =>
      have h1' := mt h1.mpr hne
      have h2' := mt h2.mpr hne'
      rcases le_total 0 x.num with h0 | h0
      · exact Int.tdiv_eq_zero_of_lt h0 (by omega)
      · rw [← neg_neg x.num, Int.neg_tdiv, Int.tdiv_eq_zero_of_lt (by omega) (by omega), neg_zero]

theorem round_eq_zero {x : ℚ} (h : |x| < 1 / 2) : round x = 0 := by
  obtain ⟨h1, h2⟩ := abs_lt.mp h
  rw [round_eq, Int.floor_eq_iff]
  push_cast
  constructor <;> linarith

/-- Small words are the encodings of small numbers only. -/
theorem round_of_encode {x : ℚ} (h : |x| ≤ 1) {n : ℤ} (hn : |n| ≤ 1)
    (he : encode x = BitVec.ofInt 32 n) : round (x * 2 ^ 30) = n := by
  obtain ⟨h1, h2⟩ := abs_le.mp h
  obtain ⟨h3, h4⟩ := abs_le.mp hn
  have hlo : -2 ^ 30 ≤ round (x * 2 ^ 30) := by
    rw [round_eq, Int.le_floor]; push_cast; linarith
  have hhi : round (x * 2 ^ 30) ≤ 2 ^ 30 := by
    have : ⌊x * 2 ^ 30 + 1 / 2⌋ < 2 ^ 30 + 1 := by rw [Int.floor_lt]; push_cast; linarith
    rw [round_eq]; omega
  have hint := congrArg BitVec.toInt he
  rw [encode, BitVec.toInt_ofInt, BitVec.toInt_ofInt, Int.bmod_eq_of_le (by omega) (by omega),
    Int.bmod_eq_of_le (by omega) (by omega)] at hint
  exact hint

/-- A component written among the operands is less than a unit in the last place. -/
theorem abs_lt_of_operand {q : Fin 2 → Fin 4 → ℚ} (hq : ∀ i j, |q i j| ≤ 1)
    (h : ∀ i j, ∃ k, encode (q i j) = toInt32 (q 1 k)) (i : Fin 2) (j : Fin 4) :
    |q i j * 2 ^ 30| ≤ 1 / 2 := by
  have hround : ∀ i j, ∃ k, round (q i j * 2 ^ 30) =
      if q 1 k = 1 then 1 else if q 1 k = -1 then -1 else 0 := by
    intro i j
    obtain ⟨k, hk⟩ := h i j
    rw [toInt32_unit _ (hq 1 k)] at hk
    refine ⟨k, round_of_encode (hq i j) ?_ hk⟩
    split
    · simp
    · split <;> simp
  -- the ends of the interval are not among the components of the second quaternion
  have hsmall : ∀ i j, |round (q i j * 2 ^ 30)| ≤ 1 := by
    intro i j
    obtain ⟨k, hk⟩ := hround i j
    rw [hk]
    split
    · simp
    · split <;> simp
  have hends : ∀ k, q 1 k ≠ 1 ∧ q 1 k ≠ -1 := by
    intro k
    have hk := hsmall 1 k
    constructor
    · intro he
      rw [he, one_mul, show (2 ^ 30 : ℚ) = ((2 ^ 30 : ℤ) : ℚ) by norm_num, round_intCast] at hk
      norm_num at hk
    · intro he
      rw [he, neg_one_mul, show (-2 ^ 30 : ℚ) = ((-2 ^ 30 : ℤ) : ℚ) by norm_num, round_intCast] at hk
      norm_num at hk
  obtain ⟨k, hk⟩ := hround i j
  rw [if_neg (hends k).1, if_neg (hends k).2] at hk
  have := abs_sub_round (q i j * 2 ^ 30)
  rwa [hk, Int.cast_zero, sub_zero] at this

/-- **No pass agrees with the register protocol**, whatever it receives, whatever components in
`[-1, 1]` the array holds and whatever state the circuit is in. -/
theorem never_agrees {b b' : Task} {t : List (Event Io)} {s s' : State}
    (hq : ∀ i j, |b.quaternion i j| ≤ 1) (ht : Returns (iteration b) t b')
    (hbus : OnBus s (accesses t) s') : ¬ Agrees b.quaternion (accesses t) := by
  intro h
  obtain ⟨d, hd⟩ := iteration_accesses ht
  have hop : ∀ i j, ∃ k, encode (b.quaternion i j) = toInt32 (b.quaternion 1 k) := by
    intro i j
    have hm := h.operands i j
    rw [hd] at hm
    simp only [List.mem_append, List.mem_ofFn, Access.write.injEq] at hm
    simpa [eq_comm] using hm
  have hsmall := abs_lt_of_operand hq hop
  have hprod : encode (b.quaternion 0 0 * b.quaternion 1 0) = 0 := by
    have h0 := hsmall 0 0
    have h1 := hsmall 1 0
    have : |b.quaternion 0 0 * b.quaternion 1 0 * 2 ^ 30| < 1 / 2 := by
      have hmul := mul_le_mul h0 h1 (abs_nonneg _) (by norm_num)
      rw [← abs_mul, show b.quaternion 0 0 * 2 ^ 30 * (b.quaternion 1 0 * 2 ^ 30) =
        b.quaternion 0 0 * b.quaternion 1 0 * 2 ^ 30 * 2 ^ 30 by ring, abs_mul, abs_of_pos
        (by norm_num : (0 : ℚ) < 2 ^ 30)] at hmul
      linarith
    rw [encode, round_eq_zero this]
    rfl
  obtain ⟨regnum, hres⟩ := h.results
  have hread : Access.read (regnum 0) (encode (b.quaternion 0 0 * b.quaternion 1 0)) ∈ accesses t := by
    refine List.mem_of_mem_filter (p := fun a => a matches .read _ _) ?_
    rw [hres]
    exact List.mem_ofFn.mpr ⟨0, rfl⟩
  have hones := onBus_read hbus _ _ hread
  rw [hprod] at hones
  exact absurd hones (by decide)

/-- Two quaternions with all components 1/2. -/
def halves : Task := ⟨⟨List.replicate 80 0, by decide⟩, fun _ _ => 1 / 2, 0⟩

theorem never_agrees_halves : ∃ t, (∃ b', Returns (iteration halves) t b') ∧
    (∃ s', OnBus State.afterReset (accesses t) s') ∧ ¬ Agrees halves.quaternion (accesses t) := by
  obtain ⟨t, b', s', ht, hbus⟩ := exists_pass halves State.afterReset
  refine ⟨t, ⟨b', ht⟩, ⟨s', hbus⟩, never_agrees ?_ ht hbus⟩
  intro i j
  norm_num [halves, abs_of_pos]

/-- On one half in every component the operand register gets 0, not 2^29. -/
theorem halves_not_delivered : ¬ ∀ t b' s', Returns (iteration halves) t b' →
    OnBus State.afterReset (accesses t) s' → Agrees halves.quaternion (accesses t) := by
  intro h
  obtain ⟨t, b', s', ht, hbus⟩ := exists_pass halves State.afterReset
  obtain ⟨d, hd⟩ := iteration_accesses ht
  have hm := (h t b' s' ht hbus).operands 0 0
  rw [hd] at hm
  simp only [List.mem_append, List.mem_ofFn, Access.write.injEq] at hm
  revert hm
  simp [halves]
  decide +kernel

end FpgaQuat.Board
