import Mathlib

/-!
# Counting loops that may fail

`forRange lo hi body s` runs `body` for `i = lo, ..., hi - 1` on a state, and stops
at the first error.  The rule for it (`forRange_ok`) is a family of states indexed
by the counter: the body takes the `i`-th to the next.
-/

namespace Loop

variable {ε σ : Type}

def forRange (lo hi : Nat) (body : σ → Nat → Except ε σ) (s : σ) : Except ε σ :=
  (List.range' lo (hi - lo)).foldlM body s

theorem forRange_of_le {lo hi : Nat} (h : hi ≤ lo) (body : σ → Nat → Except ε σ) (s : σ) :
    forRange lo hi body s = .ok s := by
  rw [forRange, Nat.sub_eq_zero_of_le h]
  rfl

theorem forRange_of_lt {lo hi : Nat} (h : lo < hi) (body : σ → Nat → Except ε σ) (s : σ) :
    forRange lo hi body s = body s lo >>= forRange (lo + 1) hi body := by
  have e : hi - lo = hi - (lo + 1) + 1 := by omega
  rw [forRange, e, List.range'_succ, List.foldlM_cons]
  rfl

/-- The loop fails if its first round does. -/
theorem forRange_error {lo hi : Nat} (h : lo < hi) {body : σ → Nat → Except ε σ} {s : σ} {e : ε}
    (he : body s lo = .error e) : forRange lo hi body s = .error e := by
  rw [forRange_of_lt h, he]
  rfl

/-- **The loop rule.** -/
theorem forRange_ok {lo hi : Nat} (hle : lo ≤ hi) {body : σ → Nat → Except ε σ} (st : Nat → σ)
    (h : ∀ i, lo ≤ i → i < hi → body (st i) i = .ok (st (i + 1))) :
    forRange lo hi body (st lo) = .ok (st hi) := by
  obtain ⟨n, rfl⟩ := Nat.exists_eq_add_of_le hle
  clear hle
  induction n generalizing lo with
  | zero => exact forRange_of_le (Nat.le_refl _) body _
  | succ n ih =>
    rw [forRange_of_lt (by omega), h lo (Nat.le_refl _) (by omega)]
    show forRange (lo + 1) (lo + (n + 1)) body (st (lo + 1)) = .ok (st (lo + (n + 1)))
    rw [show lo + (n + 1) = lo + 1 + n by omega]
    exact ih (fun i h1 h2 => h i (by omega) (by omega))

/-! ## Mapping a function that may fail -/

variable {α β : Type}

theorem mapM_cons_ok {f : α → Except ε β} {x : α} {xs : List α} {ys : List β}
    (h : (x :: xs).mapM f = .ok ys) : ∃ y ys', f x = .ok y ∧ xs.mapM f = .ok ys' ∧ ys = y :: ys' := by
  rw [List.mapM_cons] at h
  cases hx : f x with
  | error e => rw [hx] at h; cases h
  | ok y =>
    cases hxs : xs.mapM f with
    | error e => rw [hx, hxs] at h; cases h
    | ok ys' => rw [hx, hxs] at h; exact ⟨y, ys', rfl, rfl, (Except.ok.inj h).symm⟩

theorem length_of_mapM_ok {f : α → Except ε β} {xs : List α} {ys : List β} (h : xs.mapM f = .ok ys) :
    ys.length = xs.length := by
  induction xs generalizing ys with
  | nil => cases h; rfl
  | cons x xs ih =>
    obtain ⟨y, ys', -, hxs, rfl⟩ := mapM_cons_ok h
    rw [List.length_cons, List.length_cons, ih hxs]

end Loop
