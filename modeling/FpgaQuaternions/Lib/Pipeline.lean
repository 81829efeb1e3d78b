import Mathlib

/-!
# Registers that settle

A signal gives its value after every edge of the clock.  A stage of registers turns what
holds from one edge on into what holds from the next, and a unit that forgets its contents
after `d` edges settles `d` edges after its inputs did.
-/

namespace Pipeline

/-- From the edge `t` on. -/
def After (t : Nat) (P : Nat → Prop) : Prop := ∀ n, t ≤ n → P n

variable {P Q : Nat → Prop} {t t' : Nat}

/-- A stage of registers. -/
theorem After.edge (h : After t P) (step : ∀ n, P n → Q (n + 1)) : After (t + 1) Q := by
  intro n hn
  obtain ⟨n, rfl⟩ := Nat.exists_eq_succ_of_ne_zero (by omega : n ≠ 0)
  exact step n (h n (by omega))

theorem After.imp (h : After t P) (comb : ∀ n, P n → Q n) : After t Q := fun n hn => comb n (h n hn)

theorem After.and (h : After t P) (h' : After t Q) : After t fun n => P n ∧ Q n :=
  fun n hn => ⟨h n hn, h' n hn⟩

theorem After.mono (h : After t P) (ht : t ≤ t') : After t' P := fun n hn => h n (ht.trans hn)

/-- What an edge keeps holds for ever. -/
theorem After.induct (h : P t) (step : ∀ n, t ≤ n → P n → P (n + 1)) : After t P := by
  intro n hn
  induction n, hn using Nat.le_induction with
  | base => exact h
  | succ n hn ih => exact step n hn ih

/-- Registers in levels: what is right up to level `k` makes level `k + 1` right after the edge. -/
theorem After.levels {L : Nat → Nat → Prop} (h : After t P) (zero : ∀ n, L 0 n)
    (step : ∀ k n, P n → L k n → L (k + 1) (n + 1)) (k : Nat) : After (t + k) (L k) := by
  induction k with
  | zero => exact fun n _ => zero n
  | succ k ih => exact ((h.mono (by omega)).and ih).edge fun n hn => step k n hn.1 hn.2

section
variable {ι σ : Type} {step : ι → σ → σ} {i : Nat → ι} {s : Nat → σ} {v : ι} {d : Nat}

/-- After `d` edges with the input `v` nothing is left of the state before. -/
def Forgets (step : ι → σ → σ) (v : ι) (d : Nat) : Prop := ∀ s s', (step v)^[d] s = (step v)^[d] s'

theorem iterate_of_settled (hs : ∀ n, s (n + 1) = step (i n) (s n)) (hi : After t fun n => i n = v) (d : Nat)
    {n : Nat} (hn : t ≤ n) : s (n + d) = (step v)^[d] (s n) := by
  induction d with
  | zero => rfl
  | succ d ih => rw [Function.iterate_succ_apply', ← ih, ← Nat.add_assoc, hs, hi _ (by omega)]

theorem Forgets.settles (hf : Forgets step v d) (hs : ∀ n, s (n + 1) = step (i n) (s n))
    (hi : After t fun n => i n = v) (s0 : σ) : After (t + d) fun n => s n = (step v)^[d] s0 := by
  intro n hn
  obtain ⟨k, rfl⟩ : ∃ k, n = k + d := ⟨n - d, by omega⟩
  rw [iterate_of_settled hs hi d (by omega)]
  exact hf _ _

end

end Pipeline
