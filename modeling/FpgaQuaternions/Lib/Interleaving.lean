import FpgaQuaternions.Lib.Effects

/-!
# Calls to a machine that does not wait for them

Between any two calls of a program, and before the first and after the last, the machine
may be disturbed.  An interleaving lists the calls and the disturbances as they happen;
its calls are a run of the program, and each gets an answer that the machine allows then.
-/

namespace Interleaving

open Effects

inductive Item (E : Sig) (F : Type) where
  | call (e : Event E)
  | other (f : F)

structure Machine (E : Sig) (S F : Type) where
  allows : S → Event E → Prop
  after : S → Event E → S
  disturb : S → F → S

variable {E : Sig} {S F : Type}

/-- What the program sees of an interleaving. -/
def calls (l : List (Item E F)) : List (Event E) :=
  l.filterMap fun
    | .call e => some e
    | .other _ => none

def others (fs : List F) : List (Item E F) := fs.map .other

/-- The machine goes from one state to another. -/
def Path (m : Machine E S F) : S → List (Item E F) → S → Prop
  | s, [], s' => s' = s
  | s, .call e :: l, s' => m.allows s e ∧ Path m (m.after s e) l s'
  | s, .other f :: l, s' => Path m (m.disturb s f) l s'

variable {m : Machine E S F}

theorem path_append {s s' : S} {l l' : List (Item E F)} :
    Path m s (l ++ l') s' ↔ ∃ s1, Path m s l s1 ∧ Path m s1 l' s' := by
  induction l generalizing s with
  | nil => simp [Path]
  | cons a l ih =>
    cases a with
    | call e => simp [Path, ih, and_assoc]
    | other f => simp [Path, ih]

theorem path_others {s s' : S} {fs : List F} : Path m s (others fs) s' ↔ s' = fs.foldl m.disturb s := by
  induction fs generalizing s with
  | nil => rfl
  | cons f fs ih => exact ih

theorem calls_append (l l' : List (Item E F)) : calls (l ++ l') = calls l ++ calls l' :=
  List.filterMap_append

theorem calls_others (fs : List F) : calls (others fs : List (Item E F)) = [] := by
  induction fs with
  | nil => rfl
  | cons f fs ih => exact ih

theorem others_of_calls {l : List (Item E F)} (h : calls l = []) : ∃ fs, l = others fs := by
  induction l with
  | nil => exact ⟨[], rfl⟩
  | cons a l ih =>
    cases a with
    | call e => cases h
    | other f =>
      obtain ⟨fs, rfl⟩ := ih h
      exact ⟨f :: fs, rfl⟩

/-- A run in two parts is interleaved in two parts. -/
theorem split_of_calls {l : List (Item E F)} {u v : List (Event E)} (h : calls l = u ++ v) :
    ∃ xs ys, l = xs ++ ys ∧ calls xs = u ∧ calls ys = v :=
  List.filterMap_eq_append_iff.mp h

/-- The disturbances before the first call. -/
theorem first_of_calls {l : List (Item E F)} {e : Event E} {v : List (Event E)} (h : calls l = e :: v) :
    ∃ fs ys, l = others fs ++ .call e :: ys ∧ calls ys = v := by
  induction l with
  | nil => cases h
  | cons a l ih =>
    cases a with
    | call e' =>
      obtain ⟨rfl, hv⟩ := List.cons.inj h
      exact ⟨[], l, rfl, hv⟩
    | other f =>
      obtain ⟨fs, ys, rfl, hys⟩ := ih h
      exact ⟨f :: fs, ys, rfl, hys⟩

theorem path_first {s s' : S} {fs : List F} {e : Event E} {l : List (Item E F)} :
    Path m s (others fs ++ .call e :: l) s' ↔
      m.allows (fs.foldl m.disturb s) e ∧ Path m (m.after (fs.foldl m.disturb s) e) l s' := by
  rw [path_append]
  constructor
  · rintro ⟨s1, h, h'⟩
    rw [path_others.mp h] at h'
    exact h'
  · intro h
    exact ⟨_, path_others.mpr rfl, h⟩

/-- What holds of every allowed call where `I` holds, holds of all calls, if the calls and the
disturbances keep `I`. -/
theorem forall_calls {I : S → Prop} {P : Event E → Prop}
    (hcall : ∀ s e, I s → m.allows s e → P e ∧ I (m.after s e)) (hother : ∀ s f, I s → I (m.disturb s f))
    {s s' : S} {l : List (Item E F)} (hI : I s) (h : Path m s l s') : ∀ e ∈ calls l, P e := by
  induction l generalizing s with
  | nil => exact fun _ he => absurd he List.not_mem_nil
  | cons a l ih =>
    cases a with
    | call e =>
      obtain ⟨hallow, hpath⟩ := h
      obtain ⟨he, hI'⟩ := hcall s e hI hallow
      exact List.forall_mem_cons.mpr ⟨he, ih hI' hpath⟩
    | other f => exact ih (hother s f hI) h

/-! ## Left alone -/

section
variable {α β σ : Type}

/-- Only calls happen. -/
def alone (t : List (Event E)) : List (Item E F) := t.map .call

theorem calls_alone (t : List (Event E)) : calls (alone t : List (Item E F)) = t := by
  induction t with
  | nil => rfl
  | cons e t ih => exact congrArg (e :: ·) ih

theorem alone_append (t u : List (Event E)) : (alone (t ++ u) : List (Item E F)) = alone t ++ alone u := List.map_append

namespace Machine

/-- What `p` needs of the machine that answers it, for `Q` where it returns. -/
def wp (m : Machine E S F) : Prog E α → (α → S → Prop) → S → Prop
  | .pure a, Q, s => Q a s
  | .exit _, _, _ => True
  | .call op k, Q, s => ∀ r, m.allows s ⟨op, r⟩ → wp m (k r) Q (m.after s ⟨op, r⟩)

theorem wp_bind (p : Prog E α) (f : α → Prog E β) (Q : β → S → Prop) (s : S) :
    m.wp (p >>= f) Q s ↔ m.wp p (fun a => m.wp (f a) Q) s := by
  induction p generalizing s with
  | pure a => rfl
  | exit code => rfl
  | call op k ih => exact forall_congr' fun r => imp_congr_right fun _ => ih r _

/-- Where `P` holds of the machine before a finished run, `Q` holds after it. -/
def Triple (m : Machine E S F) (P : S → Prop) (R : Runs E α) (Q : α → S → Prop) : Prop :=
  ∀ s t a s', P s → R t a → Path m s (alone t) s' → Q a s'

theorem triple_of_wp {P : S → Prop} {p : Prog E α} {Q : α → S → Prop} (h : ∀ s, P s → m.wp p Q s) :
    m.Triple P (Runs.of p) Q := by
  intro s t a s' hs ht hpath
  have hw := h s hs
  replace ht : Returns p t a := ht
  clear h hs
  induction ht generalizing s with
  | pure a =>
    obtain rfl : s' = s := hpath
    exact hw
  | call _ ih => exact ih _ hpath.2 (hw _ hpath.1)

theorem triple_bind {P : S → Prop} {R : Runs E α} {f : α → Runs E β} {M : α → S → Prop} {Q : β → S → Prop}
    (h : m.Triple P R M) (h' : ∀ a, m.Triple (M a) (f a) Q) : m.Triple P (R >>= f) Q := by
  rintro s _ b s' hs ⟨u, a, v, rfl, hu, hv⟩ hpath
  rw [alone_append] at hpath
  obtain ⟨s1, h1, h2⟩ := path_append.mp hpath
  exact h' a s1 v b s' (h s u a s1 hs hu h1) hv h2

/-- An assertion kept by a round holds where the loop is left. -/
theorem triple_loop {cond : σ → Bool} {body : σ → Prog E σ} {L : σ → S → Prop}
    (h : ∀ x, cond x = true → m.Triple (L x) (Runs.of (body x)) L) (x : σ) :
    m.Triple (L x) (Runs.loop cond body x) L := by
  intro s t x' s' hs ht hpath
  have hrounds := Runs.loop_induct (P := fun x t => ∀ s, L x s → Path m s (alone t) s' → L x' s')
    (fun _ s hs hpath => by
      obtain rfl : s' = s := hpath
      exact hs)
    (fun x u x1 v hc hu hv s hs hpath => by
      rw [alone_append] at hpath
      obtain ⟨s1, h1, h2⟩ := path_append.mp hpath
      exact hv s1 (h x hc s u x1 s1 hs hu h1) h2) ht
  exact hrounds s hs hpath

end Machine

end

end Interleaving
