import FpgaQuaternions.Server.Main

/-!
# The sends of the transmission loop

The report has the server send all quaternions, once each, and then wait for the result.
`main` sends them in a `while 1` around a `for` over `range(int(len(quaternion)/4))`:

    the loop is never left                                            (never_transmits)
    its sends go round the first n / 4 rows, for ever        (sends_cyclic, sends_rounds)
-/

namespace FpgaQuat.Server

open Effects

/-- The messages sent. -/
def sends (t : List (Event Io)) : List (List UInt8) :=
  t.flatMap fun
    | ⟨.send message, _⟩ => [message]
    | _ => []

section
variable (R : FloatRepr) (quaternion : Rows)

/-- The runs of `main` from its `counter = 0`; `Loc.left` is the `connection.recv(buffer)` under the
loop. -/
abbrev Transmission (t : List (Event Io)) (l : Loc Io Nat) : Prop :=
  While (fun _ => true) (sendQuaternions R quaternion) (.pure 0) t l

/-- **What the report describes**: control reaches the final `recv`, after one send for each
quaternion in file order. -/
def Transmitted : Prop :=
  (∃ t counter, Transmission R quaternion t (.left counter)) ∧
    ∀ t counter, Transmission R quaternion t (.left counter) → sends t = quaternion.map (str R)

/-- The messages of a round. -/
def round : List (List UInt8) := (quaternion.take (quaternion.length / 4)).map (str R)

/-- What has been sent goes round the messages of a round. -/
def Cyclic (g : List (List UInt8)) : Prop :=
  ∃ k, g <+: (List.replicate k (round R quaternion)).flatten

/-- Some rounds are complete. -/
def Rounds (g : List (List UInt8)) : Prop :=
  ∃ k, g = (List.replicate k (round R quaternion)).flatten

def observe (g : List (List UInt8)) (e : Event Io) : List (List UInt8) := g ++ sends [e]

theorem foldl_observe (t : List (Event Io)) (g : List (List UInt8)) :
    t.foldl observe g = g ++ sends t := by
  induction t generalizing g with
  | nil => rw [sends, List.flatMap_nil, List.append_nil]; rfl
  | cons e t ih =>
    have he : sends (e :: t) = sends [e] ++ sends t := by
      rw [← List.singleton_append, sends, List.flatMap_append]; rfl
    rw [List.foldl_cons, ih, observe, he, List.append_assoc]

/-- The rows that a `for` over some indices visits. -/
def visited (l : List Nat) : Rows := l.filterMap fun i => quaternion[i]?

theorem visited_range (k : Nat) : visited quaternion (List.range k) = quaternion.take k := by
  induction k with
  | zero => rfl
  | succ k ih =>
    rw [List.take_add_one, ← ih, List.range_succ, visited, List.filterMap_append]
    cases h : quaternion[k]? <;> simp only [visited, List.filterMap_cons, h] <;> rfl

variable {R quaternion}

/-- The `for` loop sends the messages of the rows it visits, and nothing else. -/
theorem wp_foldlM {allowed : Event Io → Prop} {I : List (List UInt8) → Prop}
    {Q : Nat → List (List UInt8) → Prop} (l : List Nat) (hl : ∀ i ∈ l, i < quaternion.length)
    (counter : Nat) (g : List (List UInt8))
    (hI : ∀ u, u <+: (visited quaternion l).map (str R) → I (g ++ u))
    (hQ : ∀ counter, Q counter (g ++ (visited quaternion l).map (str R))) :
    wp allowed observe I (l.foldlM (sendQuaternion R quaternion) counter) Q g := by
  induction l generalizing counter g with
  | nil => simpa [visited] using hQ counter
  | cons i l ih =>
    obtain ⟨row, hrow⟩ : ∃ row, quaternion[i]? = some row :=
      ⟨_, List.getElem?_eq_getElem (hl i List.mem_cons_self)⟩
    have hv : (visited quaternion (i :: l)).map (str R) =
        str R row :: (visited quaternion l).map (str R) := by
      rw [visited, List.filterMap_cons_some hrow]
      rfl
    rw [hv] at hI hQ
    rw [List.foldlM_cons, sendQuaternion, hrow]
    have hsent : I (g ++ [str R row]) := hI _ ⟨_, rfl⟩
    intro n _
    refine ⟨hsent, fun _ _ => ?_⟩
    -- the `print` leaves what has been sent as it is
    have hprint : ∀ text, observe (g ++ [str R row]) ⟨.print text, ()⟩ = g ++ [str R row] :=
      fun _ => List.append_nil _
    rw [show observe g ⟨.send (str R row), n⟩ = g ++ [str R row] from rfl, hprint]
    refine ⟨hsent, ih (fun j hj => hl j (List.mem_cons_of_mem _ hj)) _ _ ?_ ?_⟩
    · rintro u ⟨v, hv⟩
      rw [List.append_assoc]
      exact hI _ ⟨v, by simp [hv]⟩
    · intro counter
      rw [List.append_assoc]
      exact hQ counter

theorem range_lt (i : Nat) (hi : i ∈ List.range (quaternion.length / 4)) : i < quaternion.length := by
  have := List.mem_range.mp hi
  omega

/-- **One round** of `while 1`. -/
theorem wp_round (counter : Nat) (g : List (List UInt8)) (h : Rounds R quaternion g) :
    wp (fun _ => True) observe (Cyclic R quaternion) (sendQuaternions R quaternion counter)
      (fun _ => Rounds R quaternion) g := by
  obtain ⟨k, rfl⟩ := h
  have hsucc : (List.replicate (k + 1) (round R quaternion)).flatten =
      (List.replicate k (round R quaternion)).flatten ++ round R quaternion := by
    rw [List.replicate_succ', List.flatten_append, List.flatten_singleton]
  apply wp_foldlM _ range_lt
  · rintro u ⟨v, hv⟩
    rw [visited_range] at hv
    refine ⟨k + 1, v, ?_⟩
    rw [hsucc, List.append_assoc, hv]
    rfl
  · intro counter
    rw [visited_range]
    exact ⟨k + 1, hsucc.symm⟩

/-- **The run lemma**: the sends of any run go round the first quarter of the rows. -/
theorem sends_cyclic {t : List (Event Io)} {l : Loc Io Nat} (h : Transmission R quaternion t l) :
    Cyclic R quaternion (sends t) := by
  obtain ⟨p, rfl, hrun⟩ := (While.forever_iff fun _ => rfl).mp h
  have hstart : Rounds R quaternion [] := ⟨0, rfl⟩
  have := forever_inv (I := Cyclic R quaternion) (L := fun _ => Rounds R quaternion) wp_round hrun []
    (fun _ _ => trivial) hstart ⟨0, List.prefix_rfl⟩
  rwa [foldl_observe, List.nil_append] at this

/-- A round can be completed. -/
theorem returns_foldlM (l : List Nat) (hl : ∀ i ∈ l, i < quaternion.length) (counter : Nat) :
    ∃ t counter', Returns (l.foldlM (sendQuaternion R quaternion) counter) t counter' ∧
      sends t = (visited quaternion l).map (str R) := by
  induction l generalizing counter with
  | nil => exact ⟨[], counter, .pure _, rfl⟩
  | cons i l ih =>
    obtain ⟨row, hrow⟩ : ∃ row, quaternion[i]? = some row :=
      ⟨_, List.getElem?_eq_getElem (hl i List.mem_cons_self)⟩
    obtain ⟨t, counter', ht, hs⟩ := ih (fun j hj => hl j (List.mem_cons_of_mem _ hj)) (counter + 1)
    refine ⟨⟨.send (str R row), (str R row).length⟩ ::
      ⟨.print ("Quaternion  " ++ toString counter ++ "  Enviado!"), ()⟩ :: t, counter', ?_, ?_⟩
    · rw [List.foldlM_cons, sendQuaternion, hrow]
      exact .call (.call ht)
    · rw [visited, List.filterMap_cons_some hrow]
      exact congrArg (str R row :: ·) hs

/-- Any number of rounds is made, and nothing stops the next one. -/
theorem sends_rounds (k : Nat) : ∃ t counter, Transmission R quaternion t (.inside (.pure counter)) ∧
    sends t = (List.replicate k (round R quaternion)).flatten := by
  suffices h : ∀ c, ∃ t counter, Forever (sendQuaternions R quaternion) (.pure c) t (.pure counter) ∧
      sends t = (List.replicate k (round R quaternion)).flatten by
    obtain ⟨t, counter, ht, hs⟩ := h 0
    exact ⟨t, counter, (While.forever_iff fun _ => rfl).mpr ⟨_, rfl, ht⟩, hs⟩
  induction k with
  | zero => exact fun c => ⟨[], c, .refl _, rfl⟩
  | succ k ih =>
    intro c
    obtain ⟨t, c', ht, hs⟩ := returns_foldlM (R := R) (List.range (quaternion.length / 4)) range_lt c
    obtain ⟨u, counter, hu, hs'⟩ := ih c'
    refine ⟨t ++ u, counter, .again (ht.forever.trans hu), ?_⟩
    rw [sends, List.flatMap_append, List.replicate_succ, List.flatten_cons, ← hs', round,
      ← visited_range, ← hs]
    rfl

theorem never_left {t : List (Event Io)} {l : Loc Io Nat} (h : Transmission R quaternion t l) :
    ∃ p, l = .inside p := by
  obtain ⟨p, hl, -⟩ := (While.forever_iff fun _ => rfl).mp h
  exact ⟨p, hl⟩

theorem not_transmitted : ¬ Transmitted R quaternion := by
  rintro ⟨⟨t, counter, h⟩, -⟩
  obtain ⟨p, hl⟩ := never_left h
  cases hl

/-- **The loop never hands over**: for no list of quaternions is the final `recv` reached.  Instead
every run is inside the loop, has sent the first quarter of the rows round and round, and can do
so any number of times. -/
theorem never_transmits (R : FloatRepr) (quaternion : Rows) :
    ¬ Transmitted R quaternion ∧
    (∀ t l, Transmission R quaternion t l → (∃ p, l = .inside p) ∧ Cyclic R quaternion (sends t)) ∧
    ∀ k, ∃ t counter, Transmission R quaternion t (.inside (.pure counter)) ∧
      sends t = (List.replicate k (round R quaternion)).flatten :=
  ⟨not_transmitted, fun _ _ h => ⟨never_left h, sends_cyclic h⟩, sends_rounds⟩

/-- A recording of one sample. -/
theorem one_row_not_transmitted : ¬ Transmitted .tenths [[0, 1 / 2, 1, 0]] := not_transmitted

end

end FpgaQuat.Server
