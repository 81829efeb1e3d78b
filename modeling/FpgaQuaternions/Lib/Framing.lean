import Mathlib

/-!
# Bracketed frames in a stream

A frame is an opening symbol, a body without brackets and a closing symbol.  In a
concatenation of frames every opening symbol starts a frame and every frame ends at
its first closing symbol, so a frame found anywhere in the stream is one of those
sent, at its own place (`Framed.at_boundary`).
-/

namespace Framing

variable {α : Type}

/-- `m` is one bracketed frame. -/
def Framed (o c : α) (m : List α) : Prop := ∃ body, m = o :: (body ++ [c]) ∧ o ∉ body ∧ c ∉ body

variable {o c : α}

theorem Framed.ne_nil {m : List α} (h : Framed o c m) : m ≠ [] := by
  obtain ⟨body, rfl, -, -⟩ := h
  exact List.cons_ne_nil _ _

/-- Two frames that start together are the same frame. -/
theorem Framed.eq_of_append {m n u v : List α} (hm : Framed o c m) (hn : Framed o c n)
    (h : m ++ u = n ++ v) : m = n ∧ u = v := by
  obtain ⟨a, rfl, -, ha⟩ := hm
  obtain ⟨b, rfl, -, hb⟩ := hn
  simp only [List.cons_append, List.append_assoc, List.cons.injEq, true_and, List.nil_append] at h ⊢
  suffices a = b ∧ u = v by rw [this.1, this.2]; exact ⟨rfl, rfl⟩
  induction a generalizing b with
  | nil =>
    cases b with
    | nil => exact ⟨rfl, (List.cons.inj h).2⟩
    | cons y b => exact absurd (List.mem_cons.mpr (Or.inl (List.cons.inj h).1)) hb
  | cons x a ih =>
    cases b with
    | nil => exact absurd (List.mem_cons.mpr (Or.inl (List.cons.inj h).1.symm)) ha
    | cons y b =>
      obtain ⟨rfl, ht⟩ := List.cons.inj h
      obtain ⟨rfl, rfl⟩ := ih (fun hc => ha (List.mem_cons_of_mem _ hc)) b
        (fun hc => hb (List.mem_cons_of_mem _ hc)) ht
      exact ⟨rfl, rfl⟩

/-- A frame at the head of a stream of frames is the first of them. -/
theorem Framed.head {ms : List (List α)} (hms : ∀ m ∈ ms, Framed o c m) {f v : List α}
    (hf : Framed o c f) (h : f ++ v = ms.flatten) : ∃ rest, ms = f :: rest ∧ v = rest.flatten := by
  cases ms with
  | nil => exact absurd (List.append_eq_nil_iff.mp h).1 hf.ne_nil
  | cons m rest =>
    rw [List.flatten_cons] at h
    obtain ⟨rfl, rfl⟩ := hf.eq_of_append (hms m List.mem_cons_self) h
    exact ⟨rest, rfl, rfl⟩

/-- The place of an opening symbol in a frame is its first. -/
theorem Framed.nil_of_opening (hoc : o ≠ c) {m u v : List α} (hm : Framed o c m)
    (h : m = u ++ o :: v) : u = [] := by
  obtain ⟨body, rfl, ho, -⟩ := hm
  cases u with
  | nil => rfl
  | cons x u =>
    have hmem : o ∈ body ++ [c] := by
      rw [(List.cons.inj h).2]; simp
    rcases List.mem_append.mp hmem with hb | hc
    · exact absurd hb ho
    · exact absurd (List.mem_singleton.mp hc) hoc

/-- **A frame found in a stream of frames is one of them**: what comes before it is a whole
number of frames. -/
theorem Framed.at_boundary (hoc : o ≠ c) {ms : List (List α)}
    (hms : ∀ m ∈ ms, Framed o c m) {f u v : List α} (hf : Framed o c f) (h : u ++ f ++ v = ms.flatten) :
    ∃ before after, ms = before ++ f :: after ∧ u = before.flatten ∧ v = after.flatten := by
  induction ms generalizing u with
  | nil =>
    have := (List.append_eq_nil_iff.mp (List.append_eq_nil_iff.mp h).1).2
    exact absurd this hf.ne_nil
  | cons m ms ih =>
    by_cases hu : u = []
    · subst hu
      obtain ⟨rest, he, hv⟩ := hf.head (v := v) hms (by simpa using h)
      exact ⟨[], rest, he, rfl, hv⟩
    · -- `m` ends before `f` starts: otherwise the opening symbol of `f` lies inside `m`
      rw [List.flatten_cons, List.append_assoc] at h
      have hm := hms m List.mem_cons_self
      rcases List.append_eq_append_iff.mp h with ⟨w, hw, hw'⟩ | ⟨w, hw, hw'⟩
      · cases w with
        | nil =>
          obtain ⟨rest, rfl, hv⟩ := hf.head (fun n hn => hms n (List.mem_cons_of_mem _ hn)) hw'
          exact ⟨[m], rest, rfl, by simpa using hw.symm, hv⟩
        | cons x w =>
          obtain ⟨body, rfl, -, -⟩ := hf
          obtain ⟨rfl, -⟩ := List.cons.inj hw'
          exact absurd (hm.nil_of_opening hoc hw) hu
      · obtain ⟨before, after, rfl, hb, ha⟩ := ih (fun n hn => hms n (List.mem_cons_of_mem _ hn))
          (u := w) (by rw [List.append_assoc]; exact hw'.symm)
        exact ⟨m :: before, after, rfl, by rw [hw, hb, List.flatten_cons], ha⟩

end Framing
