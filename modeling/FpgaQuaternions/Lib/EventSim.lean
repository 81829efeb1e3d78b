import Mathlib

/-!
# Event-driven simulation in delta cycles

A design is simulated on the values `σ` of all its signals.  In one delta cycle
the processes sensitive to a signal that has just changed read the current
values, and what they assign is the value of the next delta cycle.  `delta prev
cur` is that next value: `prev` is there to tell which signals have an event.
With no event nothing runs (`idle`), so a pair of equal values is the end of the
simulation of an instant (`SettlesIn`).
-/

namespace EventSim

/-- One delta cycle of a design, from the values before and after the last one. -/
structure Kernel (σ : Type) where
  delta : σ → σ → σ
  idle : ∀ x, delta x x = x

namespace Kernel

variable {σ : Type} (K : Kernel σ)

/-- `n` delta cycles on the pair (previous values, current values). -/
def deltas : Nat → σ × σ → σ × σ
  | 0, w => w
  | n + 1, w => deltas n (w.2, K.delta w.1 w.2)

/-- After `n` delta cycles no signal has an event, and the values are `fin`. -/
def SettlesIn (n : Nat) (prev cur fin : σ) : Prop := K.deltas n (prev, cur) = (fin, fin)

theorem settlesIn_zero (x : σ) : K.SettlesIn 0 x x x := rfl

theorem settlesIn_succ {n : Nat} {prev cur fin : σ} :
    K.SettlesIn (n + 1) prev cur fin ↔ K.SettlesIn n cur (K.delta prev cur) fin := Iff.rfl

/-- Quiet values stay quiet. -/
theorem settlesIn_self (n : Nat) (x : σ) : K.SettlesIn n x x x := by
  induction n with
  | zero => rfl
  | succ n ih => rw [settlesIn_succ, K.idle]; exact ih

theorem deltas_add (m n : Nat) (w : σ × σ) : K.deltas (m + n) w = K.deltas n (K.deltas m w) := by
  induction m generalizing w with
  | zero => rw [Nat.zero_add]; rfl
  | succ m ih => rw [Nat.add_right_comm]; exact ih _

/-- More delta cycles change nothing once a design has settled. -/
theorem SettlesIn.mono {K : Kernel σ} {m n : Nat} {prev cur fin : σ}
    (h : K.SettlesIn m prev cur fin) (hmn : m ≤ n) : K.SettlesIn n prev cur fin := by
  obtain ⟨k, rfl⟩ := Nat.exists_eq_add_of_le hmn
  unfold SettlesIn at h ⊢
  rw [deltas_add, h]
  exact K.settlesIn_self k fin

/-- The values a design settles in do not depend on when one looks. -/
theorem SettlesIn.unique {K : Kernel σ} {m n : Nat} {prev cur fin fin' : σ}
    (h : K.SettlesIn m prev cur fin) (h' : K.SettlesIn n prev cur fin') : fin = fin' := by
  have h1 := h.mono (Nat.le_max_left m n)
  have h2 := h'.mono (Nat.le_max_right m n)
  unfold SettlesIn at h1 h2
  rw [h1] at h2
  exact (Prod.mk.inj h2).1

end Kernel

end EventSim
