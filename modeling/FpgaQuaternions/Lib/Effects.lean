import Mathlib

/-!
# Programs that call their environment, and endless loops of them

A program over a signature `E` (calls and their possible answers) returns, exits or
makes a call and goes on with the answer.  `Forever body p t p'` is a finite run of
`while (1) s = body s`, started in the middle of a round, with the calls and answers
`t` it makes.

`While cond body` is the same for a loop with a condition, which can be left; a loop
whose condition always holds has the runs of `Forever` (`While.forever_iff`).

`Runs` are the finished runs of code that has such loops in it.  Where a machine answers
the calls, `Does` says what a run returns and what it leaves of the machine.

Properties of all runs go through an observer folded over the calls.  `wp` is the
weakest precondition of a program for an invariant of the observer that must hold
after every call and a postcondition where the program returns; a loop needs one
assertion kept by a round (`forever_inv`).
-/

namespace Effects

/-- Calls, and what each may be answered. -/
structure Sig where
  Op : Type
  Ans : Op → Type

/-- A call with its answer. -/
abbrev Event (E : Sig) := (op : E.Op) × E.Ans op

inductive Prog (E : Sig) (α : Type) where
  | pure (a : α)
  | exit (code : Int)
  | call (op : E.Op) (k : E.Ans op → Prog E α)

variable {E : Sig} {α β σ γ : Type}

namespace Prog

def bind : Prog E α → (α → Prog E β) → Prog E β
  | .pure a, f => f a
  | .exit code, _ => .exit code
  | .call op k, f => .call op fun r => (k r).bind f

instance : Monad (Prog E) where
  pure := Prog.pure
  bind := Prog.bind

@[simp] theorem pure_bind (a : α) (f : α → Prog E β) : (Prog.pure a >>= f) = f a := rfl

@[simp] theorem call_bind (op : E.Op) (k : E.Ans op → Prog E α) (f : α → Prog E β) :
    (Prog.call op k >>= f) = .call op fun r => k r >>= f := rfl

@[simp] theorem pure_eq (a : α) : (Pure.pure a : Prog E α) = .pure a := rfl

end Prog

/-- One call. -/
def perform (op : E.Op) : Prog E (E.Ans op) := .call op .pure

@[simp] theorem perform_bind (op : E.Op) (f : E.Ans op → Prog E β) :
    (perform op >>= f) = .call op f := rfl

/-! ## Runs -/

/-- A finite run of `while (1) s = body s`, from the rest `p` of a round. -/
inductive Forever (body : σ → Prog E σ) : Prog E σ → List (Event E) → Prog E σ → Prop
  | refl (p : Prog E σ) : Forever body p [] p
  | call {op : E.Op} {k : E.Ans op → Prog E σ} {r : E.Ans op} {t : List (Event E)} {p : Prog E σ} :
      Forever body (k r) t p → Forever body (.call op k) (⟨op, r⟩ :: t) p
  | again {s : σ} {t : List (Event E)} {p : Prog E σ} :
      Forever body (body s) t p → Forever body (.pure s) t p

theorem Forever.trans {body : σ → Prog E σ} {p q r : Prog E σ} {t u : List (Event E)}
    (h : Forever body p t q) (h' : Forever body q u r) : Forever body p (t ++ u) r := by
  induction h with
  | refl => exact h'
  | call _ ih => exact .call (ih h')
  | again _ ih => exact .again (ih h')

/-- A run of a program from its start to the value it returns. -/
inductive Returns : Prog E α → List (Event E) → α → Prop
  | pure (a : α) : Returns (.pure a) [] a
  | call {op : E.Op} {k : E.Ans op → Prog E α} {r : E.Ans op} {t : List (Event E)} {a : α} :
      Returns (k r) t a → Returns (.call op k) (⟨op, r⟩ :: t) a

@[simp] theorem returns_pure {a a' : α} {t : List (Event E)} :
    Returns (.pure a) t a' ↔ t = [] ∧ a' = a := by
  constructor
  · intro h; cases h; exact ⟨rfl, rfl⟩
  · rintro ⟨rfl, rfl⟩; exact .pure _

@[simp] theorem returns_call {op : E.Op} {k : E.Ans op → Prog E α} {a : α} {t : List (Event E)} :
    Returns (.call op k) t a ↔ ∃ r u, t = ⟨op, r⟩ :: u ∧ Returns (k r) u a := by
  constructor
  · intro h; cases h with | call h => exact ⟨_, _, rfl, h⟩
  · rintro ⟨r, u, rfl, h⟩; exact .call h

/-- A run of a sequence is a run of its first part and one of the rest. -/
theorem returns_bind {p : Prog E α} {f : α → Prog E β} {t : List (Event E)} {b : β} :
    Returns (p >>= f) t b ↔ ∃ u a v, t = u ++ v ∧ Returns p u a ∧ Returns (f a) v b := by
  constructor
  · intro h
    induction p generalizing t with
    | pure a => exact ⟨[], a, t, rfl, .pure a, h⟩
    | exit code => cases h
    | call op k ih =>
      obtain ⟨r, w, rfl, hw⟩ := returns_call.mp h
      obtain ⟨u, a, v, rfl, hu, hv⟩ := ih r hw
      exact ⟨⟨op, r⟩ :: u, a, v, rfl, .call hu, hv⟩
  · rintro ⟨u, a, v, rfl, hu, hv⟩
    induction hu with
    | pure a => exact hv
    | call _ ih => exact .call (ih hv)

theorem Returns.forever {body : σ → Prog E σ} {p : Prog E σ} {t : List (Event E)} {s : σ}
    (h : Returns p t s) : Forever body p t (.pure s) := by
  induction h with
  | pure s => exact .refl _
  | call _ ih => exact .call ih

/-- Every round of a loop starts where the one before returned. -/
theorem Returns.round {body : σ → Prog E σ} {p p' : Prog E σ} {t u : List (Event E)} {s : σ}
    (h : Returns p t s) (h' : Forever body (body s) u p') : Forever body p (t ++ u) p' :=
  h.forever.trans (.again h')

theorem Returns.forever_bind {body : β → Prog E β} {p : Prog E α} {f : α → Prog E β} {p' : Prog E β}
    {t u : List (Event E)} {a : α} (h : Returns p t a) (h' : Forever body (f a) u p') :
    Forever body (p >>= f) (t ++ u) p' := by
  induction h with
  | pure a => exact h'
  | call _ ih => exact .call (ih h')

/-- A run can be looked at earlier. -/
theorem Forever.split {body : σ → Prog E σ} {p p' : Prog E σ} {t u : List (Event E)}
    (h : Forever body p (t ++ u) p') : ∃ q, Forever body p t q := by
  generalize he : t ++ u = w at h
  induction h generalizing t with
  | refl p =>
    rw [(List.append_eq_nil_iff.mp he).1]
    exact ⟨p, .refl p⟩
  | @call op k r w p' _ ih =>
    cases t with
    | nil => exact ⟨_, .refl _⟩
    | cons e t =>
      obtain ⟨rfl, hw⟩ := List.cons.inj he
      obtain ⟨q, hq⟩ := ih hw
      exact ⟨q, .call hq⟩
  | again _ ih =>
    obtain ⟨q, hq⟩ := ih he
    exact ⟨q, .again hq⟩

/-! ## Loops with a condition -/

/-- Where a run of a loop stands: inside it, or at the statement after it. -/
inductive Loc (E : Sig) (σ : Type) where
  | inside (p : Prog E σ)
  | left (s : σ)

/-- A finite run of `while (cond s) s = body s`. -/
inductive While (cond : σ → Bool) (body : σ → Prog E σ) : Prog E σ → List (Event E) → Loc E σ → Prop
  | refl (p : Prog E σ) : While cond body p [] (.inside p)
  | call {op : E.Op} {k : E.Ans op → Prog E σ} {r : E.Ans op} {t : List (Event E)} {l : Loc E σ} :
      While cond body (k r) t l → While cond body (.call op k) (⟨op, r⟩ :: t) l
  | again {s : σ} {t : List (Event E)} {l : Loc E σ} :
      cond s = true → While cond body (body s) t l → While cond body (.pure s) t l
  | leave {s : σ} : cond s = false → While cond body (.pure s) [] (.left s)

/-- **A loop whose condition always holds is never left.** -/
theorem While.forever_iff {cond : σ → Bool} (hc : ∀ s, cond s = true) {body : σ → Prog E σ}
    {p : Prog E σ} {t : List (Event E)} {l : Loc E σ} :
    While cond body p t l ↔ ∃ p', l = .inside p' ∧ Forever body p t p' := by
  constructor
  · intro h
    induction h with
    | refl p => exact ⟨p, rfl, .refl p⟩
    | call _ ih =>
      obtain ⟨p', hl, hp⟩ := ih
      exact ⟨p', hl, .call hp⟩
    | again _ _ ih =>
      obtain ⟨p', hl, hp⟩ := ih
      exact ⟨p', hl, .again hp⟩
    | leave hs => rw [hc] at hs; cases hs
  · rintro ⟨p', rfl, h⟩
    induction h with
    | refl p => exact .refl p
    | call _ ih => exact .call ih
    | again _ ih => exact .again (hc _) ih

/-- **Induction over the rounds** of a run that leaves the loop: what holds at its end and is
carried over a round, last round first, holds from the end of the round it starts in. -/
theorem While.rounds {cond : σ → Bool} {body : σ → Prog E σ} {s' : σ} {P : σ → List (Event E) → Prop}
    (done : cond s' = false → P s' [])
    (round : ∀ s u s1 v, cond s = true → Returns (body s) u s1 → P s1 v → P s (u ++ v))
    {p : Prog E σ} {t : List (Event E)} (h : While cond body p t (.left s')) :
    ∃ u s v, t = u ++ v ∧ Returns p u s ∧ P s v := by
  generalize hl : Loc.left s' = l at h
  induction h with
  | refl => cases hl
  | call _ ih =>
    obtain ⟨u, s, v, rfl, hu, hv⟩ := ih hl
    exact ⟨_ :: u, s, v, rfl, .call hu, hv⟩
  | @again s t l hc _ ih =>
    obtain ⟨u, s1, v, rfl, hu, hv⟩ := ih hl
    exact ⟨[], s, u ++ v, rfl, .pure s, round s u s1 v hc hu hv⟩
  | @leave s hc =>
    cases hl
    exact ⟨[], s', [], rfl, .pure s', done hc⟩

theorem Returns.while {cond : σ → Bool} {body : σ → Prog E σ} {p : Prog E σ} {t u : List (Event E)} {s : σ}
    {l : Loc E σ} (h : Returns p t s) (h' : While cond body (.pure s) u l) : While cond body p (t ++ u) l := by
  induction h with
  | pure => exact h'
  | call _ ih => exact .call (ih h')

/-! ## Code with loops -/

/-- The finished runs of a piece of code: the calls made and the value returned. -/
def Runs (E : Sig) (α : Type) : Type := List (Event E) → α → Prop

namespace Runs

instance : Monad (Runs E) where
  pure a t a' := t = [] ∧ a' = a
  bind R f t b := ∃ u a v, t = u ++ v ∧ R u a ∧ f a v b

/-- A program without loops. -/
def of (p : Prog E α) : Runs E α := Returns p

instance : MonadLift (Prog E) (Runs E) := ⟨of⟩

/-- `while (cond s) s = body s`, left at last. -/
def loop (cond : σ → Bool) (body : σ → Prog E σ) (s : σ) : Runs E σ :=
  fun t s' => While cond body (.pure s) t (.left s')

variable {cond : σ → Bool} {body : σ → Prog E σ}

theorem loop_induct {s' : σ} {P : σ → List (Event E) → Prop} (done : cond s' = false → P s' [])
    (round : ∀ s u s1 v, cond s = true → Returns (body s) u s1 → P s1 v → P s (u ++ v))
    {s : σ} {t : List (Event E)} (h : loop cond body s t s') : P s t := by
  obtain ⟨u, s1, v, rfl, hu, hv⟩ := While.rounds done round h
  obtain ⟨rfl, rfl⟩ := returns_pure.mp hu
  exact hv

theorem loop_of_false {s s' : σ} {t : List (Event E)} (hc : cond s = false) :
    loop cond body s t s' ↔ t = [] ∧ s' = s := by
  constructor
  · intro h
    cases h with
    | again ht _ => rw [hc] at ht; cases ht
    | leave => exact ⟨rfl, rfl⟩
  · rintro ⟨rfl, rfl⟩
    exact .leave hc

theorem loop_of_true {s s' : σ} {t : List (Event E)} (hc : cond s = true) :
    loop cond body s t s' ↔ ∃ u s1 v, t = u ++ v ∧ Returns (body s) u s1 ∧ loop cond body s1 v s' := by
  constructor
  · intro h
    cases h with
    | again _ h =>
      refine h.rounds (P := fun s1 v => loop cond body s1 v s') .leave ?_
      rintro s u s1 v hs hu hv
      exact .again hs (hu.while hv)
    | leave hf => rw [hc] at hf; cases hf
  · rintro ⟨u, s1, v, rfl, hu, hv⟩
    exact .again hc (hu.while hv)

end Runs

/-! ## On a machine -/

section
variable {S : Type} (answer : S → (op : E.Op) → E.Ans op × S)

/-- The machine `s` gives the answers of the calls, and ends up as `s'`. -/
def Answers : S → List (Event E) → S → Prop
  | s, [], s' => s' = s
  | s, ⟨op, r⟩ :: t, s' => (answer s op).1 = r ∧ Answers (answer s op).2 t s'

theorem answers_append {s s' : S} {t u : List (Event E)} :
    Answers answer s (t ++ u) s' ↔ ∃ s1, Answers answer s t s1 ∧ Answers answer s1 u s' := by
  induction t generalizing s with
  | nil => simp [Answers]
  | cons e t ih => simp [Answers, ih, and_assoc]

/-- On `s` the code returns `a` and leaves `s'`. -/
def Does (R : Runs E α) (s : S) (a : α) (s' : S) : Prop := ∃ t, R t a ∧ Answers answer s t s'

variable {answer}

theorem does_bind {R : Runs E α} {f : α → Runs E β} {s s' : S} {b : β} :
    Does answer (R >>= f) s b s' ↔ ∃ a s1, Does answer R s a s1 ∧ Does answer (f a) s1 b s' := by
  constructor
  · rintro ⟨t, ⟨u, a, v, rfl, hu, hv⟩, ht⟩
    obtain ⟨s1, h1, h2⟩ := (answers_append answer).mp ht
    exact ⟨a, s1, ⟨u, hu, h1⟩, v, hv, h2⟩
  · rintro ⟨a, s1, ⟨u, hu, h1⟩, v, hv, h2⟩
    exact ⟨u ++ v, ⟨u, a, v, rfl, hu, hv⟩, (answers_append answer).mpr ⟨s1, h1, h2⟩⟩

theorem does_loop_of_false {cond : σ → Bool} {body : σ → Prog E σ} {x x' : σ} {s s' : S}
    (hc : cond x = false) : Does answer (Runs.loop cond body x) s x' s' ↔ x' = x ∧ s' = s := by
  constructor
  · rintro ⟨t, ht, hs⟩
    obtain ⟨rfl, rfl⟩ := (Runs.loop_of_false hc).mp ht
    exact ⟨rfl, hs⟩
  · rintro ⟨rfl, rfl⟩
    exact ⟨[], (Runs.loop_of_false hc).mpr ⟨rfl, rfl⟩, rfl⟩

theorem does_loop_of_true {cond : σ → Bool} {body : σ → Prog E σ} {x x' : σ} {s s' : S}
    (hc : cond x = true) : Does answer (Runs.loop cond body x) s x' s' ↔
      ∃ x1 s1, Does answer (Runs.of (body x)) s x1 s1 ∧ Does answer (Runs.loop cond body x1) s1 x' s' := by
  rw [← does_bind]
  exact exists_congr fun t => and_congr_left fun _ => Runs.loop_of_true hc

variable (answer) in
/-- A program run on the machine `s`; `none` where it exits. -/
def Prog.exec : Prog E α → S → Option (α × S)
  | .pure a, s => some (a, s)
  | .exit _, _ => none
  | .call op k, s => (k (answer s op).1).exec (answer s op).2

@[simp] theorem exec_pure (a : α) (s : S) : (Prog.pure a : Prog E α).exec answer s = some (a, s) := rfl

@[simp] theorem exec_call (op : E.Op) (k : E.Ans op → Prog E α) (s : S) :
    (Prog.call op k).exec answer s = (k (answer s op).1).exec answer (answer s op).2 := rfl

theorem exec_bind (p : Prog E α) (f : α → Prog E β) (s : S) :
    (p >>= f).exec answer s = (p.exec answer s).bind fun r => (f r.1).exec answer r.2 := by
  induction p generalizing s with
  | pure a => rfl
  | exit code => rfl
  | call op k ih => exact ih _ _

/-- What a program does is what comes out of running it. -/
theorem does_iff_exec {p : Prog E α} {s s' : S} {a : α} :
    Does answer (Runs.of p) s a s' ↔ p.exec answer s = some (a, s') := by
  induction p generalizing s with
  | pure a' => simp [Does, Runs.of, Answers, eq_comm]
  | exit code => exact iff_of_false (fun ⟨t, ht, _⟩ => nomatch ht) (by simp [Prog.exec])
  | call op k ih =>
    rw [exec_call, ← ih]
    constructor
    · rintro ⟨_, ⟨⟩, rfl, ht⟩
      exact ⟨_, by assumption, ht⟩
    · rintro ⟨t, ht, hs⟩
      exact ⟨_ :: t, .call ht, rfl, hs⟩

end

/-! ## Weakest preconditions -/

/-- What `p` needs of the observer `g`: while every answer is `allowed`, the invariant holds
after each call, and `Q` where `p` returns. -/
def wp (allowed : Event E → Prop) (obs : γ → Event E → γ) (I : γ → Prop) :
    Prog E α → (α → γ → Prop) → γ → Prop
  | .pure a, Q, g => Q a g
  | .exit _, _, _ => True
  | .call op k, Q, g => ∀ r, allowed ⟨op, r⟩ →
      I (obs g ⟨op, r⟩) ∧ wp allowed obs I (k r) Q (obs g ⟨op, r⟩)

section
variable {allowed : Event E → Prop} {obs : γ → Event E → γ} {I : γ → Prop}

@[simp] theorem wp_pure (a : α) (Q : α → γ → Prop) (g : γ) :
    wp allowed obs I (.pure a : Prog E α) Q g ↔ Q a g := Iff.rfl

/-- A call where nothing is asked between the calls. -/
theorem wp_call {op : E.Op} {k : E.Ans op → Prog E α} {Q : α → γ → Prop} {g : γ}
    (h : ∀ r, allowed ⟨op, r⟩ → wp allowed obs (fun _ => True) (k r) Q (obs g ⟨op, r⟩)) :
    wp allowed obs (fun _ => True) (.call op k) Q g := fun r hr => ⟨trivial, h r hr⟩

theorem wp_bind (p : Prog E α) (f : α → Prog E β) (Q : β → γ → Prop) (g : γ) :
    wp allowed obs I (p >>= f) Q g ↔ wp allowed obs I p (fun a => wp allowed obs I (f a) Q) g := by
  induction p generalizing g with
  | pure a => rfl
  | exit code => rfl
  | call op k ih => exact forall_congr' fun r => imp_congr_right fun _ => and_congr_right fun _ => ih r _

/-- **The loop rule.**  If an assertion at the head of the loop carries a round to itself, the
invariant holds after every call of a run. -/
theorem forever_inv {body : σ → Prog E σ} {L : σ → γ → Prop}
    (hround : ∀ s g, L s g → wp allowed obs I (body s) L g) {p p' : Prog E σ} {t : List (Event E)}
    (h : Forever body p t p') :
    ∀ g, (∀ e ∈ t, allowed e) → wp allowed obs I p L g → I g → I (t.foldl obs g) := by
  induction h with
  | refl => intro g _ _ hI; exact hI
  | call _ ih =>
    intro g ha hw _
    obtain ⟨hI, hw'⟩ := hw _ (ha _ List.mem_cons_self)
    exact ih _ (fun e he => ha e (List.mem_cons_of_mem _ he)) hw' hI
  | again _ ih => intro g ha hw hI; exact ih g ha (hround _ g hw) hI

end

/-! ## Triples -/

/-- Where `P` holds of the observer before a finished run with allowed answers, `Q` holds after it. -/
def Triple (allowed : Event E → Prop) (obs : γ → Event E → γ) (P : γ → Prop) (R : Runs E α)
    (Q : α → γ → Prop) : Prop :=
  ∀ g t a, P g → R t a → (∀ e ∈ t, allowed e) → Q a (t.foldl obs g)

section
variable {allowed : Event E → Prop} {obs : γ → Event E → γ} {P : γ → Prop}

theorem triple_of_wp {p : Prog E α} {Q : α → γ → Prop}
    (h : ∀ g, P g → wp allowed obs (fun _ => True) p Q g) : Triple allowed obs P (Runs.of p) Q := by
  intro g t a hg ht ha
  have hw := h g hg
  replace ht : Returns p t a := ht
  clear h hg
  induction ht generalizing g with
  | pure a => exact hw
  | call _ ih => exact ih _ (fun e he => ha e (List.mem_cons_of_mem _ he)) (hw _ (ha _ List.mem_cons_self)).2

theorem triple_bind {R : Runs E α} {f : α → Runs E β} {M : α → γ → Prop} {Q : β → γ → Prop}
    (h : Triple allowed obs P R M) (h' : ∀ a, Triple allowed obs (M a) (f a) Q) :
    Triple allowed obs P (R >>= f) Q := by
  rintro g _ b hg ⟨u, a, v, rfl, hu, hv⟩ ha
  rw [List.foldl_append]
  exact h' a _ v b (h g u a hg hu fun e he => ha e (List.mem_append_left v he)) hv
    fun e he => ha e (List.mem_append_right u he)

/-- An assertion kept by a round holds where the loop is left. -/
theorem triple_loop {cond : σ → Bool} {body : σ → Prog E σ} {L : σ → γ → Prop}
    (h : ∀ s, cond s = true → Triple allowed obs (L s) (Runs.of (body s)) L) (s : σ) :
    Triple allowed obs (L s) (Runs.loop cond body s) fun s' g => cond s' = false ∧ L s' g := by
  intro g t s' hg ht ha
  have hrounds := Runs.loop_induct
    (P := fun s t => ∀ g, L s g → (∀ e ∈ t, allowed e) → cond s' = false ∧ L s' (t.foldl obs g))
    (fun hc _ hg _ => ⟨hc, hg⟩)
    (fun s u s1 v hc hu hv g hg ha => by
      rw [List.foldl_append]
      exact hv _ (h s hc g u s1 hg hu fun e he => ha e (List.mem_append_left v he))
        fun e he => ha e (List.mem_append_right u he)) ht
  exact hrounds g hg ha

end

end Effects
