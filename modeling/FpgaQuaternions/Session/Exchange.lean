import FpgaQuaternions.Session.Stream

/-!
# Server and board together

The two loops connected by two byte channels.  A step (`Step`) is one call of either
party: a `send` puts its bytes into the channel, a `recv` of the board takes a
non-empty prefix of what is in flight, of at most the size of its buffer; everything
else the board calls may answer anything.  Any interleaving and any delay is some
order of such steps.

The report has the server send all quaternions and then wait for one result.  The
board sends one per pass and the server never stops sending, so that holds exactly
for sessions in which the server sends nothing at all (`exchange_iff`).
-/

namespace FpgaQuat.Session

open Effects Board Relation
open Server (FloatRepr str Rows sendQuaternion sendQuaternions)

/-- The two parties and the channels; `consumed` and `results` record what the board has taken
and how many results it has sent. -/
structure State where
  server : Prog Server.Io Nat
  board : Prog Board.Io Task
  toBoard : List UInt8
  toServer : List UInt8
  consumed : List UInt8
  results : Nat

section
variable (R : FloatRepr) (quaternion : Rows)

inductive Step : State → State → Prop
  | serverSend {s : State} {message : List UInt8} {k : Nat → Prog Server.Io Nat}
      (h : s.server = .call (.send message) k) :
      Step s { s with server := k message.length, toBoard := s.toBoard ++ message }
  | serverPrint {s : State} {text : String} {k : Unit → Prog Server.Io Nat}
      (h : s.server = .call (.print text) k) : Step s { s with server := k () }
  | serverAgain {s : State} {counter : Nat} (h : s.server = .pure counter) :
      Step s { s with server := sendQuaternions R quaternion counter }
  | boardRecv {s : State} {k : Received → Prog Board.Io Task} {bytes rest : List UInt8}
      (h : s.board = .call .recv k) (hb : bytes.length ≤ bufferSize) (hne : bytes ≠ [])
      (hs : s.toBoard = bytes ++ rest) :
      Step s { s with board := k (.data bytes hb), toBoard := rest, consumed := s.consumed ++ bytes }
  | boardSend {s : State} {bytes : List UInt8} {k : Int → Prog Board.Io Task}
      (h : s.board = .call (.send bytes) k) :
      Step s { s with
        board := k bytes.length, toServer := s.toServer ++ bytes, results := s.results + 1 }
  | boardOther {s : State} {op : Board.Call} {k : op.Ans → Prog Board.Io Task}
      (h : s.board = .call op k) (hop : ¬ (op matches .recv | .send _)) (r : op.Ans) :
      Step s { s with board := k r }
  | boardAgain {s : State} {b : Task} (h : s.board = .pure b) : Step s { s with board := iteration b }

/-- Both parties at the head of their loops, nothing sent. -/
def start (b : Task) : State := ⟨sendQuaternions R quaternion 0, iteration b, [], [], [], 0⟩

/-- **The exchange the report describes**: at most one result, and only after the board has taken
all quaternions of the session. -/
def Exchanged (s : State) : Prop :=
  s.results ≤ 1 ∧ (1 ≤ s.results → (quaternion.map (str R)).flatten <+: s.consumed)

/-! ## Fewer than four quaternions -/

/-- The server sends nothing and the board waits in its first `recv`. -/
structure Silent (b : Task) (s : State) : Prop where
  server : ∃ counter, s.server = .pure counter
  board : s.board = iteration b
  toBoard : s.toBoard = []
  results : s.results = 0

variable {R quaternion}

theorem sendQuaternions_short (h : quaternion.length < 4) (counter : Nat) :
    sendQuaternions R quaternion counter = .pure counter := by
  rw [sendQuaternions, Nat.div_eq_of_lt h]
  rfl

theorem silent_step (h : quaternion.length < 4) {b : Task} {s s' : State} (hs : Silent b s)
    (hstep : Step R quaternion s s') : Silent b s' := by
  obtain ⟨⟨counter, hserver⟩, hboard, htoBoard, hresults⟩ := hs
  cases hstep with
  | serverSend h => rw [hserver] at h; cases h
  | serverPrint h => rw [hserver] at h; cases h
  | serverAgain _ => exact ⟨⟨_, sendQuaternions_short h _⟩, hboard, htoBoard, hresults⟩
  | boardRecv _ _ hne hs =>
    rw [htoBoard] at hs
    exact absurd (List.append_eq_nil_iff.mp hs.symm).1 hne
  | boardSend h => rw [hboard] at h; cases h
  | boardOther h hop r => rw [hboard] at h; cases h; exact absurd rfl hop
  | boardAgain h => rw [hboard] at h; cases h

theorem silent_run (h : quaternion.length < 4) {b : Task} {s : State}
    (hs : ReflTransGen (Step R quaternion) (start R quaternion b) s) : Silent b s := by
  induction hs with
  | refl => exact ⟨⟨0, sendQuaternions_short h 0⟩, rfl, rfl, rfl⟩
  | tail _ hstep ih => exact silent_step h ih hstep

/-! ## Four quaternions or more -/

variable (R quaternion)

/-- Sending the rows of some indices puts at least a byte each into the channel. -/
theorem server_sends (l : List Nat) (hl : ∀ i ∈ l, i < quaternion.length) (counter : Nat) (s : State)
    (h : s.server = l.foldlM (sendQuaternion R quaternion) counter) :
    ∃ counter' out, l.length ≤ out.length ∧ ReflTransGen (Step R quaternion) s
      { s with server := .pure counter', toBoard := s.toBoard ++ out } := by
  induction l generalizing counter s with
  | nil =>
    refine ⟨counter, [], Nat.le_refl _, ?_⟩
    rw [List.append_nil, show Prog.pure counter = s.server from h.symm]
  | cons i l ih =>
    have hi : quaternion[i]? = some (quaternion.get ⟨i, hl i (by simp)⟩) :=
      List.getElem?_eq_getElem _
    rw [List.foldlM_cons, sendQuaternion, hi] at h
    obtain ⟨counter', out, hlen, hrun⟩ := ih (fun j hj => hl j (by simp [hj])) (counter + 1)
      { s with
        server := l.foldlM (sendQuaternion R quaternion) (counter + 1)
        toBoard := s.toBoard ++ str R (quaternion.get ⟨i, hl i (by simp)⟩) } rfl
    refine ⟨counter', str R (quaternion.get ⟨i, hl i (by simp)⟩) ++ out, ?_, ?_⟩
    · simp [str]; omega
    · refine .head (.serverSend h) (.head (.serverPrint rfl) ?_)
      rw [← List.append_assoc]
      exact hrun

/-- The server can run ahead of the board by any number of bytes. -/
theorem server_floods (h : 4 ≤ quaternion.length) (n counter : Nat) (s : State)
    (hs : s.server = .pure counter) : ∃ counter' out, n ≤ out.length ∧
      ReflTransGen (Step R quaternion) s
        { s with server := .pure counter', toBoard := s.toBoard ++ out } := by
  induction n generalizing counter s with
  | zero =>
    refine ⟨counter, [], Nat.zero_le _, ?_⟩
    rw [List.append_nil, show Prog.pure counter = s.server from hs.symm]
  | succ n ih =>
    obtain ⟨c1, out1, h1, run1⟩ := ih counter s hs
    obtain ⟨c2, out2, h2, run2⟩ := server_sends R quaternion (List.range (quaternion.length / 4))
      (fun i hi => by have := List.mem_range.mp hi; omega) c1
      { s with server := sendQuaternions R quaternion c1, toBoard := s.toBoard ++ out1 } rfl
    rw [List.length_range] at h2
    refine ⟨c2, out1 ++ out2, by rw [List.length_append]; omega, run1.trans (.head (.serverAgain rfl) ?_)⟩
    simpa using run2

/-- The bytes a run of the board takes from the channel. -/
def taken (t : List (Event Board.Io)) : List UInt8 :=
  t.flatMap fun
    | ⟨.recv, .data bytes _⟩ => bytes
    | _ => []

/-- The results it sends. -/
def resultsOf (t : List (Event Board.Io)) : Nat :=
  t.countP fun e => e.1 matches .send _

/-- A reliable connection: `recv` delivers bytes and `send` takes all it is given. -/
def Reliable : Event Board.Io → Prop
  | ⟨.recv, r⟩ => Delivers ⟨.recv, r⟩
  | ⟨.send bytes, n⟩ => n = (bytes.length : Int)
  | _ => True

/-- What the board can do on its own with enough bytes in flight, it can do in the session. -/
theorem board_returns {p : Prog Board.Io Task} {t : List (Event Board.Io)} {b : Task}
    (h : Returns p t b) (ht : ∀ e ∈ t, Reliable e) (s : State) (hs : s.board = p)
    (rest : List UInt8) (hc : s.toBoard = taken t ++ rest) :
    ∃ s', ReflTransGen (Step R quaternion) s s' ∧ s'.board = .pure b ∧ s'.toBoard = rest ∧
      s'.results = s.results + resultsOf t := by
  induction h generalizing s with
  | pure b => exact ⟨s, .refl, hs, hc, rfl⟩
  | @call op k r t b _ ih =>
    have hr := ht _ List.mem_cons_self
    have ht' : ∀ e ∈ t, Reliable e := fun e he => ht e (List.mem_cons_of_mem _ he)
    cases op with
    | recv =>
      cases r with
      | error => exact hr.elim
      | data bytes hb =>
        have hc' : s.toBoard = bytes ++ (taken t ++ rest) := by
          rw [hc]; exact List.append_assoc ..
        obtain ⟨s', hrun, h1, h2, h3⟩ := ih ht' { s with
          board := k (.data bytes hb), toBoard := taken t ++ rest, consumed := s.consumed ++ bytes } rfl rfl
        exact ⟨s', .head (.boardRecv hs hb hr hc') hrun, h1, h2, h3⟩
    | send bytes =>
      obtain rfl : r = (bytes.length : Int) := hr
      obtain ⟨s', hrun, h1, h2, h3⟩ := ih ht' { s with
        board := k bytes.length, toServer := s.toServer ++ bytes, results := s.results + 1 } rfl hc
      refine ⟨s', .head (.boardSend hs) hrun, h1, h2, ?_⟩
      rw [h3, resultsOf, resultsOf, List.countP_cons_of_pos rfl]
      exact Nat.add_right_comm ..
    | _ =>
      obtain ⟨s', hrun, h1, h2, h3⟩ := ih ht' { s with board := k r } rfl hc
      exact ⟨s', .head (.boardOther hs (by simp) r) hrun, h1, h2, h3⟩

/-- With three bytes in flight the board makes a pass and sends a result. -/
theorem board_pass (b : Task) (s : State) (hs : s.board = iteration b) (hc : 3 ≤ s.toBoard.length) :
    ∃ s' b', ReflTransGen (Step R quaternion) s s' ∧ s'.board = .pure b' ∧
      s'.toBoard = s.toBoard.drop 3 ∧ s'.results = s.results + 1 := by
  obtain ⟨x, y, z, rest, he⟩ : ∃ x y z rest, s.toBoard = x :: y :: z :: rest := by
    match s.toBoard, hc with
    | x :: y :: z :: rest, _ => exact ⟨x, y, z, rest, rfl⟩
  have h1 : ∀ w : UInt8, [w].length ≤ bufferSize := fun _ => Nat.le_of_ble_eq_true rfl
  have hpass := returns_pass b (.data [x] (h1 x)) (.data [y] (h1 y)) (.data [z] (h1 z)) (fun _ => 0)
    bufferSize (result_nonneg _ _) (result_nonneg _ _) (result_nonneg _ _) (by decide)
  have hlen : ∀ buffer : Buffer, (buffer.bytes.length : Int) = bufferSize := fun buffer => by
    rw [buffer.length_eq]
  obtain ⟨s', hrun, hb, ht, hres⟩ := board_returns R quaternion hpass
    (by simp [Board.pass, Reliable, Delivers, List.ofFn_succ, hlen]) s hs rest he
  exact ⟨s', _, hrun, hb, by rw [ht, he]; rfl, hres⟩

/-- The board answers twice. -/
theorem two_results (h : 4 ≤ quaternion.length) (b : Task) :
    ∃ s, ReflTransGen (Step R quaternion) (start R quaternion b) s ∧ s.results = 2 := by
  -- six bytes in flight are two passes
  obtain ⟨c1, out1, -, run1⟩ := server_sends R quaternion (List.range (quaternion.length / 4))
    (fun i hi => by have := List.mem_range.mp hi; omega) 0 (start R quaternion b) rfl
  obtain ⟨c2, out2, hout, run2⟩ := server_floods R quaternion h 6 c1
    { start R quaternion b with server := .pure c1, toBoard := [] ++ out1 } rfl
  obtain ⟨s3, b3, run3, hb3, ht3, hr3⟩ := board_pass R quaternion b
    { start R quaternion b with server := .pure c2, toBoard := [] ++ out1 ++ out2 } rfl
    (by simp; omega)
  obtain ⟨s4, b4, run4, -, -, hr4⟩ := board_pass R quaternion b3
    { s3 with board := iteration b3 } rfl (by rw [ht3]; simp; omega)
  refine ⟨s4, ((run1.trans run2).trans run3).trans (.head (.boardAgain hb3) run4), ?_⟩
  rw [hr4, hr3]
  rfl

/-- **Result and session.**  Every reachable state has at most one result, sent after all
quaternions were taken, exactly for sessions of fewer than four quaternions. -/
theorem exchange_iff (R : FloatRepr) (quaternion : Rows) (b : Task) :
    (∀ s, ReflTransGen (Step R quaternion) (start R quaternion b) s → Exchanged R quaternion s) ↔
      quaternion.length < 4 := by
  constructor
  · intro h
    by_contra hlen
    obtain ⟨s, hs, hr⟩ := two_results R quaternion (Nat.le_of_not_lt hlen) b
    have := (h s hs).1
    omega
  · intro h s hs
    have := (silent_run h hs).results
    exact ⟨by omega, by omega⟩

/-- A session of four quaternions. -/
def fourRows : Rows := [[0, 1, 0, 0], [1, 1 / 2, 0, 0], [2, 0, 1, 0], [3, 0, 0, 1]]

/-- The server sends the first over and over, and the board answers more than once. -/
theorem fourRows_not_exchanged : ¬ ∀ b s, ReflTransGen (Step .tenths fourRows)
    (start .tenths fourRows b) s → Exchanged .tenths fourRows s := by
  intro h
  obtain ⟨s, hs, hr⟩ := two_results .tenths fourRows (by decide)
    ⟨⟨List.replicate 80 0, by decide⟩, fun _ _ => 0, 0⟩
  have := (h _ s hs).1
  omega

end

end FpgaQuat.Session
