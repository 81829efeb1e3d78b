import FpgaQuaternions.Board.Script

/-!
# What the board gives away

`send` passes on all of `buffer`, each `recv` fills only as much of it as it returned,
and nothing clears the array before the loop.  Two runs that receive the same and read
the same from the bus send the same, whatever the array held, exactly if the first
`send` is never reached or a `recv` before it filled the array     (noninterference_iff)
-/

namespace FpgaQuat.Board

open Effects

def Effect.sent : Effect → Option (List UInt8)
  | .send bytes => some bytes
  | _ => none

/-- The byte sequences passed to `send`. -/
def sends (t : List (Event Io)) : List (List UInt8) := (effects t).filterMap Effect.sent

/-- Of two runs one has sent what the other has, and maybe more. -/
def Agree (xs ys : List (List UInt8)) : Prop := xs <+: ys ∨ ys <+: xs

/-- The first `send` is not reached, or sends nothing but what was received. -/
def Overwritten : List Received → Prop
  | r1 :: r2 :: r3 :: _ => r1.result < 0 ∨ r2.result < 0 ∨
      r1.result = bufferSize ∨ r2.result = bufferSize ∨ r3.result = bufferSize
  | _ => True

/-- A full buffer keeps nothing of what it held. -/
theorem Buffer.store_full {r : Received} (h : r.result = bufferSize) (x y : Buffer) :
    x.store r = y.store r := by
  cases r with
  | error code hc =>
    have : code = bufferSize := h
    omega
  | data bytes hb =>
    have hlen : bytes.length = bufferSize := Int.ofNat.inj h
    have hdrop : ∀ z : Buffer, z.bytes.drop bytes.length = [] := fun z => by
      rw [List.drop_eq_nil_iff, z.length_eq, hlen]
    simp only [Buffer.store, hdrop]

/-- Any other `recv` leaves the last byte. -/
theorem Buffer.getLast_store {r : Received} (h : r.result ≠ bufferSize) (x : Buffer) :
    (x.store r).bytes[79]? = x.bytes[79]? := by
  cases r with
  | error code hc => rfl
  | data bytes hb =>
    have hlen : bytes.length ≠ 80 := fun he => h (congrArg Int.ofNat he)
    have hle : bytes.length ≤ 80 := hb
    rw [Buffer.store, List.getElem?_append_right (by omega), List.getElem?_drop]
    congr 1
    omega

section
variable {quaternion : Fin 2 → Fin 4 → ℚ}

theorem sent_block (buffer : Buffer) (site : Site) (h : site ≠ .second) :
    (block quaternion buffer site).filterMap Effect.sent = [] := by
  cases site with
  | skipped => rfl
  | first => rfl
  | second => exact absurd rfl h

theorem sent_second (r : Received) (buffer : Buffer) (rs : List Received) :
    (script quaternion .second buffer (r :: rs)).filterMap Effect.sent =
      (buffer.store r).bytes :: (script quaternion .skipped (buffer.store r) rs).filterMap Effect.sent :=
  rfl

/-- What a pass sends before it goes on. -/
theorem sent_head {r1 r2 : Received} (h1 : 0 ≤ r1.result) (h2 : 0 ≤ r2.result) (rs : List Received)
    (buffer : Buffer) : (script quaternion .skipped buffer (r1 :: r2 :: rs)).filterMap Effect.sent =
      (script quaternion .second ((buffer.store r1).store r2) rs).filterMap Effect.sent := by
  have hrecv : ∀ r, Effect.sent (.recv r) = none := fun _ => rfl
  rw [script_of_nonneg h1, List.filterMap_cons_none (hrecv _), List.filterMap_append,
    sent_block _ _ (by decide), Site.next, script_of_nonneg h2, List.nil_append,
    List.filterMap_cons_none (hrecv _), List.filterMap_append, sent_block _ _ (by decide)]
  rfl

/-- **Overwritten arrays leave no trace.** -/
theorem sent_script_eq {rs : List Received} (h : Overwritten rs) (x y : Buffer) :
    (script quaternion .skipped x rs).filterMap Effect.sent =
      (script quaternion .skipped y rs).filterMap Effect.sent := by
  cases rs with
  | nil => rfl
  | cons r1 rs =>
    by_cases h1 : r1.result < 0
    · simp [script, Site.exits, h1]
    cases rs with
    | nil => simp [script, Site.exits, h1, block]
    | cons r2 rs =>
      by_cases h2 : r2.result < 0
      · simp [script, Site.exits, Site.next, h1, h2, block]
      rw [sent_head (Int.not_lt.mp h1) (Int.not_lt.mp h2), sent_head (Int.not_lt.mp h1) (Int.not_lt.mp h2)]
      cases rs with
      | nil => rfl
      | cons r3 rs =>
        have heq : ((x.store r1).store r2).store r3 = ((y.store r1).store r2).store r3 := by
          rcases (h.resolve_left h1).resolve_left h2 with h | h | h
          · rw [Buffer.store_full h x y]
          · rw [Buffer.store_full h (x.store r1) (y.store r1)]
          · exact Buffer.store_full h _ _
        rw [sent_second, sent_second, heq]

end

/-- Two runs that differ in what the array held see the same and send the same. -/
def Secret (rs : List Received) : Prop :=
  ∀ (b : Task) (x y : Buffer) t u p q, Forever iteration (iteration { b with buffer := x }) t p →
    Forever iteration (iteration { b with buffer := y }) u q → recvs t <+: rs → recvs u = recvs t →
    iords u = iords t → Agree (sends t) (sends u)

theorem sends_prefix {b : Task} {t : List (Event Io)} {p : Prog Io Task} {rs : List Received}
    (ht : Forever iteration (iteration b) t p) (hrs : recvs t <+: rs) :
    sends t <+: (script b.quaternion .skipped b.buffer rs).filterMap Effect.sent := by
  obtain ⟨rs', rfl⟩ := hrs
  have hrun := effects_prefix ht
  have hpre := hrun.trans <| script_prefix (recvs t) rs' .skipped b.buffer
  exact hpre.filterMap _

theorem secret_of_overwritten {rs : List Received} (h : Overwritten rs) : Secret rs := by
  intro b x y t u p q ht hu hrs hr _
  have hx := sends_prefix ht hrs
  have hy := sends_prefix hu (hr ▸ hrs)
  rw [sent_script_eq h x y] at hx
  exact List.prefix_or_prefix_of_prefix hx hy

/-- A pass shows the last byte of an array that no `recv` has filled. -/
theorem not_secret {r1 r2 r3 : Received} {rs : List Received} (h1 : 0 ≤ r1.result) (h2 : 0 ≤ r2.result)
    (n1 : r1.result ≠ bufferSize) (n2 : r2.result ≠ bufferSize) (n3 : r3.result ≠ bufferSize) :
    ¬ Secret (r1 :: r2 :: r3 :: rs) := by
  let x : Buffer := ⟨List.replicate 80 0, List.length_replicate⟩
  let y : Buffer := ⟨List.replicate 80 1, List.length_replicate⟩
  let b : Task := ⟨x, fun _ _ => 0, 0⟩
  obtain ⟨t, ht, et, wt⟩ := makes_iteration b h1 h2 r3
  obtain ⟨u, hu, eu, wu⟩ := makes_iteration { b with buffer := y } h1 h2 r3
  have hrecvs : ∀ z : Buffer, (script b.quaternion .skipped z [r1, r2, r3]).filterMap Effect.received =
      [r1, r2, r3] := by
    intro z
    rw [script_of_nonneg h1, Site.next, script_of_nonneg h2]
    rfl
  have rt : recvs t = [r1, r2, r3] := by rw [recvs, et]; exact hrecvs x
  have ru : recvs u = [r1, r2, r3] := by rw [recvs, eu]; exact hrecvs y
  have st : sends t = [(((x.store r1).store r2).store r3).bytes] := by
    rw [sends, et, sent_head h1 h2]; rfl
  have su : sends u = [(((y.store r1).store r2).store r3).bytes] := by
    rw [sends, eu, sent_head h1 h2]; rfl
  intro h
  have hagree := h b x y t u _ _ ht.forever hu.forever (rt ▸ ⟨rs, rfl⟩) (ru.trans rt.symm)
    (wu.trans wt.symm)
  rw [st, su] at hagree
  have heq : (((x.store r1).store r2).store r3).bytes = (((y.store r1).store r2).store r3).bytes := by
    rcases hagree with h | h
    · exact List.singleton_inj.mp (h.eq_of_length rfl)
    · exact (List.singleton_inj.mp (h.eq_of_length rfl)).symm
  have hlast := congrArg (·[79]?) heq
  simp only [Buffer.getLast_store n1, Buffer.getLast_store n2, Buffer.getLast_store n3] at hlast
  exact absurd hlast (by decide)

/-- **When the board gives nothing away.**  Whatever the array held before the loop, the sends agree,
exactly if the first one is not reached or one of the three `recv` before it filled the array. -/
theorem noninterference_iff (rs : List Received) : Secret rs ↔ Overwritten rs := by
  constructor
  · intro h
    match rs with
    | r1 :: r2 :: r3 :: rs =>
      by_contra hn
      obtain ⟨h1, hn⟩ := not_or.mp hn
      obtain ⟨h2, hn⟩ := not_or.mp hn
      obtain ⟨n1, hn⟩ := not_or.mp hn
      obtain ⟨n2, n3⟩ := not_or.mp hn
      exact not_secret (Int.not_lt.mp h1) (Int.not_lt.mp h2) n1 n2 n3 h
    | [] => trivial
    | [_] => trivial
    | [_, _] => trivial
  · exact secret_of_overwritten

/-- Three messages of two bytes: the 78 bytes behind them are sent along. -/
theorem short_messages_leak :
    ¬ Secret [.data [0x5b, 0x5d] (by decide), .data [0x5b, 0x5d] (by decide), .data [0x5b, 0x5d] (by decide)] :=
  not_secret (by decide) (by decide) (by decide) (by decide) (by decide)

end FpgaQuat.Board
