import FpgaQuaternions.Board.Script

/-!
# A failed or closed connection

After a `recv` that returned zero or less nothing should reach the hardware or the
network.  The first two `recv` of a pass exit on a negative code only, the third goes
on in any case, and none of them looks for the zero of an orderly close:

    no effect follows a failure, in any run, exactly if every recv that does not end
    the task returned bytes, but for a last one that is the first of its pass (stops_iff)
-/

namespace FpgaQuat.Board

open Effects

/-- The connection has failed or has been closed. -/
def Effect.Fails : Effect → Prop
  | .recv r => r.result ≤ 0
  | _ => False

/-- An access to the hardware, or a result sent. -/
def Effect.Drives : Effect → Prop
  | .recv _ => False
  | _ => True

/-- Once a `recv` has failed, nothing is driven. -/
def Stops (es : List Effect) : Prop := es.Pairwise fun e e' => e.Fails → ¬ e'.Drives

/-- Pass after pass: `exit` at one of the first two `recv`, or three times some bytes; nothing is driven
before the second `recv`, so a last result that is alone in its pass may be anything. -/
def Harmless : List Received → Prop
  | r1 :: r2 :: r3 :: rs => r1.result < 0 ∨ r2.result < 0 ∨
      (0 < r1.result ∧ 0 < r2.result ∧ 0 < r3.result ∧ Harmless rs)
  | [r1, r2] => r1.result < 0 ∨ r2.result < 0 ∨ (0 < r1.result ∧ 0 < r2.result)
  | _ => True

section
variable {quaternion : Fin 2 → Fin 4 → ℚ}

/-- Nothing in a block is a failure. -/
theorem block_not_fails (buffer : Buffer) (site : Site) :
    ∀ e ∈ block quaternion buffer site, ¬ e.Fails := by
  intro e he
  cases site <;> simp only [block, List.mem_append, List.mem_ofFn, List.mem_replicate,
    List.mem_singleton, List.not_mem_nil] at he
  · obtain ⟨j, rfl⟩ := he
    exact id
  · rcases he with (⟨j, rfl⟩ | ⟨-, rfl⟩) | rfl <;> exact id

/-- A `recv` that returned bytes, or one with nothing driven after it, keeps `Stops`. -/
theorem stops_recv {r : Received} {buffer : Buffer} {site : Site} {es : List Effect}
    (hes : Stops es) (h : 0 < r.result ∨ ∀ e ∈ block quaternion buffer site ++ es, ¬ e.Drives) :
    Stops (.recv r :: (block quaternion buffer site ++ es)) := by
  refine List.pairwise_cons.mpr ⟨fun e he hr => ?_, ?_⟩
  · rcases h with h | h
    · exact absurd h (not_lt_of_ge hr)
    · exact h e he
  · refine List.pairwise_append.mpr ⟨?_, hes, fun e he e' _ hf => absurd hf (block_not_fails _ _ e he)⟩
    exact List.pairwise_of_forall_mem_list fun e he e' _ hf => absurd hf (block_not_fails _ _ e he)

theorem stops_singleton (e : Effect) : Stops [e] := List.pairwise_singleton _ _

/-- The two `recv` that may end the task. -/
theorem stops_head {r1 r2 : Received} {rs : List Received} (buffer : Buffer)
    (h : r1.result < 0 ∨ r2.result < 0 ∨ (0 < r1.result ∧ 0 < r2.result ∧
      ∀ buffer, Stops (script quaternion .second buffer rs))) :
    Stops (script quaternion .skipped buffer (r1 :: r2 :: rs)) := by
  by_cases h1 : r1.result < 0
  · rw [script_of_exit rfl h1]
    exact stops_singleton _
  rw [script_of_nonneg (Int.not_lt.mp h1)]
  by_cases h2 : r2.result < 0
  · -- the task ends here, whatever the first `recv` returned
    rw [script_of_exit rfl h2]
    exact stops_recv (stops_singleton _) (Or.inr (by simp [block, Effect.Drives]))
  obtain ⟨p1, p2, hrest⟩ := (h.resolve_left h1).resolve_left h2
  rw [script_of_nonneg p2.le]
  exact stops_recv (stops_recv (hrest _) (Or.inl p2)) (Or.inl p1)

/-- **Harmless results stop the task.** -/
theorem stops_script {rs : List Received} (h : Harmless rs) (buffer : Buffer) :
    Stops (script quaternion .skipped buffer rs) := by
  fun_induction Harmless rs generalizing buffer with
  | case1 r1 r2 r3 rs ih =>
    refine stops_head buffer (h.imp_right (Or.imp_right fun ⟨p1, p2, p3, hrs⟩ => ⟨p1, p2, fun buffer => ?_⟩))
    rw [script_of_nonneg p3.le]
    exact stops_recv (ih hrs _) (Or.inl p3)
  | case2 r1 r2 =>
    exact stops_head buffer (h.imp_right (Or.imp_right fun ⟨p1, p2⟩ => ⟨p1, p2, fun _ => List.Pairwise.nil⟩))
  | case3 rs h3 h2 =>
    match rs with
    | [] => exact List.Pairwise.nil
    | [r] =>
      by_cases hr : r.result < 0
      · rw [script_of_exit rfl hr]
        exact stops_singleton _
      · rw [script_of_nonneg (Int.not_lt.mp hr)]
        exact stops_singleton _
    | [r1, r2] => exact absurd rfl (h2 r1 r2)
    | r1 :: r2 :: r3 :: rs => exact absurd rfl (h3 r1 r2 r3 rs)

/-! ## Anything else drives the hardware -/

theorem not_stops_append (es : List Effect) {es' : List Effect} (h : ¬ Stops es') :
    ¬ Stops (es ++ es') :=
  fun hs => h (hs.sublist (List.sublist_append_right _ _))

theorem not_stops_cons (e : Effect) {es : List Effect} (h : ¬ Stops es) : ¬ Stops (e :: es) :=
  not_stops_append [e] h

/-- A failure with something driven later. -/
theorem not_stops_recv {r : Received} (hr : r.result ≤ 0) {es : List Effect} (h : ∃ e ∈ es, e.Drives) :
    ¬ Stops (.recv r :: es) := by
  obtain ⟨e, he, hd⟩ := h
  exact fun hs => (List.pairwise_cons.mp hs).1 e he hr hd

theorem drives_first (buffer : Buffer) : ∃ e ∈ block quaternion buffer .first, e.Drives :=
  ⟨.iowr 0 (toInt32 (quaternion 0 0)), by simp [block], trivial⟩

theorem drives_second (buffer : Buffer) : ∃ e ∈ block quaternion buffer .second, e.Drives :=
  ⟨.iord 2, by simp [block], trivial⟩

/-- The two `recv`, one of which was an orderly close that does not end the task. -/
theorem not_stops_head {r1 r2 : Received} (h1 : 0 ≤ r1.result) (h2 : 0 ≤ r2.result)
    (h : r1.result ≤ 0 ∨ r2.result ≤ 0) (rs : List Received) (buffer : Buffer) :
    ¬ Stops (script quaternion .skipped buffer (r1 :: r2 :: rs)) := by
  rw [script_of_nonneg h1, script_of_nonneg h2]
  obtain ⟨e, he, hd⟩ : ∃ e ∈ block quaternion ((buffer.store r1).store r2) .first, e.Drives :=
    drives_first _
  rcases h with h | h
  · exact not_stops_recv h ⟨e, by simp [Site.next, he], hd⟩
  · apply not_stops_cons
    exact not_stops_recv h ⟨e, List.mem_append_left _ he, hd⟩

theorem not_stops_script {rs : List Received} (h : ¬ Harmless rs) (buffer : Buffer) :
    ¬ Stops (script quaternion .skipped buffer rs) := by
  fun_induction Harmless rs generalizing buffer with
  | case1 r1 r2 r3 rs ih =>
    obtain ⟨h1, h⟩ := not_or.mp h
    obtain ⟨h2, h⟩ := not_or.mp h
    have h1' := Int.not_lt.mp h1
    have h2' := Int.not_lt.mp h2
    by_cases h12 : r1.result ≤ 0 ∨ r2.result ≤ 0
    · exact not_stops_head h1' h2' h12 _ _
    · rw [script_of_nonneg h1', script_of_nonneg h2']
      apply not_stops_cons
      apply not_stops_cons
      apply not_stops_append
      rw [Site.next, Site.next, script_second]
      by_cases h3 : r3.result ≤ 0
      · obtain ⟨e, he, hd⟩ : ∃ e ∈ block quaternion (((buffer.store r1).store r2).store r3) .second,
            e.Drives := drives_second _
        exact not_stops_recv h3 ⟨e, List.mem_append_left _ he, hd⟩
      · apply not_stops_cons
        apply not_stops_append
        exact ih (fun hrs => h ⟨by omega, by omega, by omega, hrs⟩) _
  | case2 r1 r2 =>
    obtain ⟨h1, h⟩ := not_or.mp h
    obtain ⟨h2, h⟩ := not_or.mp h
    exact not_stops_head (Int.not_lt.mp h1) (Int.not_lt.mp h2) (by omega) _ _
  | case3 rs h3 h2 => exact absurd trivial h

/-! ## When the task stops -/

theorem exists_drives {rs : List Received} (h : ¬ Harmless rs) : ∃ b t p,
    Forever iteration (iteration b) t p ∧ recvs t <+: rs ∧ ¬ Stops (effects t) := by
  obtain ⟨t, p, ht, he⟩ := exists_script ⟨⟨List.replicate 80 0, by decide⟩, fun _ _ => 0, 0⟩ rs
  refine ⟨_, t, p, ht, ?_, ?_⟩
  · rw [recvs, he]
    exact received_script _ _ _
  · rw [he]
    exact not_stops_script h _

/-- **When a failed or closed connection never drives the hardware.**  In every run fed with the
results `rs` nothing follows a failure, exactly if pass after pass either one of the first two
`recv` returns a negative code, or all three return bytes; a pass that has only its first result
drives nothing, whatever that is. -/
theorem stops_iff (rs : List Received) :
    (∀ b t p, Forever iteration (iteration b) t p → recvs t <+: rs → Stops (effects t)) ↔
      Harmless rs := by
  constructor
  · intro h
    by_contra hrs
    obtain ⟨b, t, p, ht, hr, hs⟩ := exists_drives hrs
    exact hs (h b t p ht hr)
  · rintro h b t p ht ⟨rs', rfl⟩
    have hrun := effects_prefix ht
    have hpre := hrun.trans <| script_prefix (recvs t) rs' _ _
    exact (stops_script h _).sublist hpre.sublist

/-- Some bytes, some bytes, an orderly close. -/
def closing : List Received := [.data [0x5b] (by decide), .data [0x5d] (by decide), .data [] (by decide)]

/-- The closed connection of the third `recv` goes unnoticed. -/
theorem closing_drives : ¬ ∀ b t p, Forever iteration (iteration b) t p → recvs t <+: closing →
    Stops (effects t) := by
  intro h
  have hclosing : ¬ Harmless closing := by simp [closing, Harmless, Received.result]
  obtain ⟨b, t, p, ht, hr, hs⟩ := exists_drives hclosing
  exact hs (h b t p ht hr)

end

end FpgaQuat.Board
