import FpgaQuaternions.Board.Task

/-!
# What a run of the board's loop does, read off its recv results

`Effect` is a call that reaches the network or the hardware.  The effects of a run are
settled by what `recv` comes back with: `script` lists them, one `recv` at a time, from
the place in the loop (`Site`) and the buffer held there.

    effects of a run <+: script of what its recv calls returned      (effects_prefix)
    every script is the list of effects of a run                     (exists_script)
-/

namespace FpgaQuat.Board

open Effects

/-- What reaches the network or the hardware. -/
inductive Effect where
  | recv (r : Received)
  | iowr (regnum : Nat) (data : BitVec 32)
  | iord (regnum : Nat)
  | send (bytes : List UInt8)

def effect : Event Io → Option Effect
  | ⟨.recv, r⟩ => some (.recv r)
  | ⟨.iowr regnum data, _⟩ => some (.iowr regnum data)
  | ⟨.iord regnum, _⟩ => some (.iord regnum)
  | ⟨.send bytes, _⟩ => some (.send bytes)
  | _ => none

def effects (t : List (Event Io)) : List Effect := t.filterMap effect

def Effect.received : Effect → Option Received
  | .recv r => some r
  | _ => none

/-- What the `recv` calls returned. -/
def recvs (t : List (Event Io)) : List Received := (effects t).filterMap Effect.received

/-- The three `recv` of a pass. -/
inductive Site where
  | skipped
  | first
  | second
deriving DecidableEq, Repr

namespace Site

def next : Site → Site
  | skipped => first
  | first => second
  | second => skipped

/-- The sites whose check is `exit(EXIT_FAILURE)`. -/
def exits : Site → Bool
  | second => false
  | _ => true

end Site

section
variable (quaternion : Fin 2 → Fin 4 → ℚ)

-- the literals of `block` share this proof
local instance two : NeZero 2 := ⟨two_ne_zero⟩

/-- The effects between a `recv` and the next one, `buffer` being what it left. -/
def block (buffer : Buffer) : Site → List Effect
  | .skipped => []
  | .first => List.ofFn fun j => .iowr 0 (toInt32 (quaternion 0 j))
  | .second =>
    (List.ofFn fun j => .iowr 1 (toInt32 (quaternion 1 j))) ++
      List.replicate 4 (.iord 2) ++ [.send buffer.bytes]

/-- The effects from a site on, for what `recv` will return. -/
def script : Site → Buffer → List Received → List Effect
  | _, _, [] => []
  | site, buffer, r :: rs =>
    .recv r :: if site.exits && r.result < 0 then [] else
      block quaternion (buffer.store r) site ++ script site.next (buffer.store r) rs

variable {quaternion}

theorem script_of_exit {site : Site} {r : Received} (hs : site.exits = true) (hr : r.result < 0)
    (buffer : Buffer) (rs : List Received) :
    script quaternion site buffer (r :: rs) = [.recv r] := by
  simp [script, hs, hr]

theorem script_of_nonneg {r : Received} (hr : 0 ≤ r.result) (site : Site) (buffer : Buffer)
    (rs : List Received) : script quaternion site buffer (r :: rs) =
      .recv r :: (block quaternion (buffer.store r) site ++
        script quaternion site.next (buffer.store r) rs) := by
  simp [script, hr.not_gt]

theorem script_second (r : Received) (buffer : Buffer) (rs : List Received) :
    script quaternion .second buffer (r :: rs) =
      .recv r :: (block quaternion (buffer.store r) .second ++
        script quaternion .skipped (buffer.store r) rs) := rfl

/-! ## Every run follows the script -/

variable (quaternion) (start : Buffer)

/-- So far `g`; what is left is `rest`, and then the script from `site`. -/
def AtSite (rest : List Effect) (site : Site) (buffer : Buffer) (g : List (Event Io)) : Prop :=
  ∀ rs, script quaternion .skipped start (recvs g ++ rs) =
    effects g ++ (rest ++ script quaternion site buffer rs)

def Scripted (g : List (Event Io)) : Prop :=
  effects g <+: script quaternion .skipped start (recvs g)

/-- The observer that keeps all it sees. -/
def record (g : List (Event Io)) (e : Event Io) : List (Event Io) := g ++ [e]

theorem foldl_record (t g : List (Event Io)) : t.foldl record g = g ++ t := by
  induction t generalizing g with
  | nil => rw [List.append_nil]; rfl
  | cons e t ih => rw [List.foldl_cons, ih, record, List.append_assoc]; rfl

theorem effects_record (g : List (Event Io)) (e : Event Io) :
    effects (record g e) = effects g ++ (effect e).toList := by
  rw [record, effects, List.filterMap_append]
  cases h : effect e <;> simp [effects, h]

theorem recvs_record (g : List (Event Io)) (e : Event Io) :
    recvs (record g e) = recvs g ++ ((effect e).bind Effect.received).toList := by
  rw [recvs, effects_record, List.filterMap_append]
  cases h : effect e with
  | none => rfl
  | some a => cases h' : a.received <;> simp [recvs, h']

variable {quaternion start}

theorem AtSite.scripted {rest : List Effect} {site : Site} {buffer : Buffer} {g : List (Event Io)}
    (h : AtSite quaternion start rest site buffer g) : Scripted quaternion start g := by
  have := h []
  rw [List.append_nil] at this
  exact ⟨_, this.symm⟩

/-- A `recv`: the task exits, or goes on with the block of the site. -/
theorem AtSite.recv {site : Site} {buffer : Buffer} {g : List (Event Io)}
    (h : AtSite quaternion start [] site buffer g) (r : Received) :
    Scripted quaternion start (record g ⟨.recv, r⟩) ∧
      ((site.exits && r.result < 0) = false →
        AtSite quaternion start (block quaternion (buffer.store r) site) site.next (buffer.store r)
          (record g ⟨.recv, r⟩)) := by
  have hrecvs : recvs (record g ⟨.recv, r⟩) = recvs g ++ [r] := recvs_record _ _
  have heffects : effects (record g ⟨.recv, r⟩) = effects g ++ [.recv r] := effects_record _ _
  constructor
  · rw [Scripted, hrecvs, heffects, h [r]]
    exact List.prefix_append_right_inj _ |>.mpr ⟨_, rfl⟩
  · intro hr rs
    rw [hrecvs, heffects, List.append_assoc, List.append_assoc]
    rw [List.singleton_append, h (r :: rs), script, hr]
    rfl

/-- The next effect of a block. -/
theorem AtSite.act {e : Event Io} {a : Effect} {rest : List Effect} {site : Site} {buffer : Buffer}
    {g : List (Event Io)} (he : effect e = some a) (ha : a.received = none)
    (h : AtSite quaternion start (a :: rest) site buffer g) :
    AtSite quaternion start rest site buffer (record g e) := by
  intro rs
  rw [recvs_record, effects_record, he, Option.bind_some, ha]
  simpa using h rs

/-- Any other call. -/
theorem AtSite.skip {e : Event Io} {rest : List Effect} {site : Site} {buffer : Buffer}
    {g : List (Event Io)} (he : effect e = none) (h : AtSite quaternion start rest site buffer g) :
    AtSite quaternion start rest site buffer (record g e) := by
  intro rs
  rw [recvs_record, effects_record, he]
  simpa using h rs

/-- What a program needs in order to follow the script. -/
abbrev Follows {α : Type} (quaternion : Fin 2 → Fin 4 → ℚ) (start : Buffer) (p : Prog Io α)
    (Q : α → List (Event Io) → Prop) (g : List (Event Io)) : Prop :=
  wp (fun _ => True) record (Scripted quaternion start) p Q g

theorem follows_bind {α β : Type} {p : Prog Io α} {f : α → Prog Io β}
    {Q : β → List (Event Io) → Prop} {g : List (Event Io)} :
    Follows quaternion start (p >>= f) Q g ↔
      Follows quaternion start p (fun a => Follows quaternion start (f a) Q) g :=
  wp_bind p f Q g

theorem follows_act {α : Type} {op : Call} {k : op.Ans → Prog Io α} {a : Effect} {rest : List Effect}
    {site : Site} {buffer : Buffer} {Q : α → List (Event Io) → Prop} {g : List (Event Io)}
    (he : ∀ r, effect ⟨op, r⟩ = some a) (ha : a.received = none)
    (h : AtSite quaternion start (a :: rest) site buffer g)
    (hk : ∀ r g, AtSite quaternion start rest site buffer g → Follows quaternion start (k r) Q g) :
    Follows quaternion start (.call op k) Q g := by
  intro r _
  have h' := h.act (he r) ha
  exact ⟨h'.scripted, hk r _ h'⟩

theorem follows_skip {α : Type} {op : Call} {k : op.Ans → Prog Io α} {rest : List Effect} {site : Site}
    {buffer : Buffer} {Q : α → List (Event Io) → Prop} {g : List (Event Io)}
    (he : ∀ r, effect ⟨op, r⟩ = none) (h : AtSite quaternion start rest site buffer g)
    (hk : ∀ r g, AtSite quaternion start rest site buffer g → Follows quaternion start (k r) Q g) :
    Follows quaternion start (.call op k) Q g := by
  intro r _
  have h' := h.skip (he r)
  exact ⟨h'.scripted, hk r _ h'⟩

theorem follows_recvOrExit {site : Site} {buffer : Buffer} {Q : Buffer → List (Event Io) → Prop}
    {g : List (Event Io)} (hs : site.exits = true) (h : AtSite quaternion start [] site buffer g)
    (hk : ∀ buffer' g, AtSite quaternion start (block quaternion buffer' site) site.next buffer' g →
      Q buffer' g) : Follows quaternion start (recvOrExit buffer) Q g := by
  intro r _
  obtain ⟨hscript, hgo⟩ := h.recv r
  refine ⟨hscript, ?_⟩
  dsimp only
  split
  · trivial
  · next hr => exact hk _ _ (hgo (by simpa [hs] using hr))

theorem follows_recvOrShow {buffer : Buffer} {Q : Buffer → List (Event Io) → Prop}
    {g : List (Event Io)} (h : AtSite quaternion start [] .second buffer g)
    (hk : ∀ buffer' g, AtSite quaternion start (block quaternion buffer' .second) .skipped buffer' g →
      Q buffer' g) : Follows quaternion start (recvOrShow buffer) Q g := by
  intro r _
  obtain ⟨hscript, hgo⟩ := h.recv r
  refine ⟨hscript, ?_⟩
  dsimp only
  split
  · exact follows_skip (fun _ => rfl) (hgo rfl) fun _ g h => hk _ g h
  · exact hk _ _ (hgo rfl)

/-- The four writes of an operand. -/
theorem follows_operand {α : Type} {slot : Fin 2} {regnum : Nat} {p : Prog Io α}
    {rest : List Effect} {site : Site} {buffer : Buffer} {Q : α → List (Event Io) → Prop}
    {g : List (Event Io)}
    (h : AtSite quaternion start
      ((List.ofFn fun j => .iowr regnum (toInt32 (quaternion slot j))) ++ rest) site buffer g)
    (hk : ∀ g, AtSite quaternion start rest site buffer g → Follows quaternion start p Q g) :
    Follows quaternion start (do
      iowr regnum (quaternion slot 0)
      iowr regnum (quaternion slot 1)
      iowr regnum (quaternion slot 2)
      iowr regnum (quaternion slot 3)
      p) Q g := by
  simp only [List.ofFn_succ, List.ofFn_zero] at h
  refine follows_act (fun _ => rfl) rfl h fun _ g h => ?_
  refine follows_act (fun _ => rfl) rfl h fun _ g h => ?_
  refine follows_act (fun _ => rfl) rfl h fun _ g h => ?_
  refine follows_act (fun _ => rfl) rfl h fun _ g h => ?_
  exact hk g h

theorem follows_sendOrShow {buffer : Buffer} {rest : List Effect} {site : Site}
    {Q : Unit → List (Event Io) → Prop} {g : List (Event Io)}
    (h : AtSite quaternion start (.send buffer.bytes :: rest) site buffer g)
    (hk : ∀ g, AtSite quaternion start rest site buffer g → Q () g) :
    Follows quaternion start (sendOrShow buffer) Q g := by
  refine follows_act (fun _ => rfl) rfl h fun n g h => ?_
  split
  · exact follows_skip (fun _ => rfl) h fun _ g h => hk g h
  · exact hk g h

/-- **One pass** follows the script. -/
theorem follows_iteration (b : Task) (g : List (Event Io))
    (h : AtSite b.quaternion start [] .skipped b.buffer g) :
    Follows b.quaternion start (iteration b)
      (fun b' g => b'.quaternion = b.quaternion ∧ AtSite b.quaternion start [] .skipped b'.buffer g) g := by
  unfold iteration
  rw [follows_bind]
  apply follows_recvOrExit rfl h
  intro buffer1 g h
  rw [follows_bind]
  apply follows_recvOrExit rfl h
  intro buffer2 g h
  simp only [toParse, msleep, iord, Prog.call_bind, Prog.pure_bind]
  refine follows_skip (fun _ => rfl) h fun _ g h => ?_
  rw [Site.next, block, ← List.append_nil (List.ofFn _)] at h
  apply follows_operand h
  intro g h
  rw [follows_bind]
  apply follows_recvOrShow h
  intro buffer3 g h
  refine follows_skip (fun _ => rfl) h fun _ g h => ?_
  rw [block, List.append_assoc] at h
  apply follows_operand h
  intro g h
  refine follows_skip (fun _ => rfl) h fun _ g h => ?_
  -- the four reads
  refine follows_act (fun _ => rfl) rfl h fun _ g h => ?_
  refine follows_act (fun _ => rfl) rfl h fun _ g h => ?_
  refine follows_act (fun _ => rfl) rfl h fun _ g h => ?_
  refine follows_act (fun _ => rfl) rfl h fun _ g h => ?_
  rw [follows_bind]
  apply follows_sendOrShow h
  intro g h
  exact ⟨rfl, h⟩

/-- **The run lemma**: the effects of a run are those its recv results prescribe. -/
theorem effects_prefix {b : Task} {t : List (Event Io)} {p : Prog Io Task}
    (h : Forever iteration (iteration b) t p) :
    effects t <+: script b.quaternion .skipped b.buffer (recvs t) := by
  have hstart : AtSite b.quaternion b.buffer [] .skipped b.buffer [] := fun _ => rfl
  have := forever_inv (I := Scripted b.quaternion b.buffer)
    (L := fun b' g => b'.quaternion = b.quaternion ∧
      AtSite b.quaternion b.buffer [] .skipped b'.buffer g)
    (fun b' g ⟨hq, hg⟩ => by
      have := follows_iteration b' g (hq ▸ hg)
      rwa [hq] at this)
    h [] (fun _ _ => trivial) (follows_iteration b [] hstart) hstart.scripted
  rwa [foldl_record] at this

/-! ## Every script is followed -/

/-- The words read. -/
def iords (t : List (Event Io)) : List (BitVec 32) :=
  t.filterMap fun
    | ⟨.iord _, w⟩ => some w
    | _ => none

/-- A run of `p` that returns `a` with these effects and these words read. -/
def Makes {α : Type} (p : Prog Io α) (es : List Effect) (ws : List (BitVec 32)) (a : α) : Prop :=
  ∃ t, Returns p t a ∧ effects t = es ∧ iords t = ws

theorem Makes.bind {α β : Type} {p : Prog Io α} {f : α → Prog Io β} {es es' : List Effect}
    {ws ws' : List (BitVec 32)} {a : α} {b : β} (h : Makes p es ws a) (h' : Makes (f a) es' ws' b) :
    Makes (p >>= f) (es ++ es') (ws ++ ws') b := by
  obtain ⟨t, ht, rfl, rfl⟩ := h
  obtain ⟨u, hu, rfl, rfl⟩ := h'
  exact ⟨t ++ u, returns_bind.mpr ⟨t, a, u, rfl, ht, hu⟩, List.filterMap_append, List.filterMap_append⟩

theorem makes_pure {α : Type} (a : α) : Makes (.pure a) [] [] a := ⟨[], .pure a, rfl, rfl⟩

theorem makes_recvOrExit (buffer : Buffer) {r : Received} (h : 0 ≤ r.result) :
    Makes (recvOrExit buffer) [.recv r] [] (buffer.store r) := by
  refine ⟨[⟨.recv, r⟩], .call ?_, rfl, rfl⟩
  rw [if_neg h.not_gt]
  exact .pure _

theorem makes_recvOrShow (buffer : Buffer) (r : Received) :
    Makes (recvOrShow buffer) [.recv r] [] (buffer.store r) := by
  by_cases h : r.result < 0
  · refine ⟨[⟨.recv, r⟩, ⟨.lcdShowText "Conection error quat1", ()⟩], .call ?_, rfl, rfl⟩
    rw [if_pos h]
    exact .call (.pure _)
  · refine ⟨[⟨.recv, r⟩], .call ?_, rfl, rfl⟩
    rw [if_neg h]
    exact .pure _

theorem makes_toParse (slot : Fin 2) (buffer : Buffer) : Makes (toParse slot buffer) [] [] () :=
  ⟨[⟨.toParse slot buffer, ()⟩], .call (.pure _), rfl, rfl⟩

theorem makes_iowr (regnum : Nat) (x : ℚ) :
    Makes (iowr regnum x) [.iowr regnum (toInt32 x)] [] () :=
  ⟨[⟨.iowr regnum (toInt32 x), ()⟩], .call (.pure _), rfl, rfl⟩

theorem makes_operand {α : Type} {slot : Fin 2} {regnum : Nat} {p : Prog Io α} {es : List Effect}
    {ws : List (BitVec 32)} {a : α} (q : Fin 2 → Fin 4 → ℚ) (h : Makes p es ws a) :
    Makes (do
      iowr regnum (q slot 0)
      iowr regnum (q slot 1)
      iowr regnum (q slot 2)
      iowr regnum (q slot 3)
      p) ((List.ofFn fun j => .iowr regnum (toInt32 (q slot j))) ++ es) ws a := by
  simp only [List.ofFn_succ, List.ofFn_zero]
  exact (makes_iowr _ _).bind <| (makes_iowr _ _).bind <| (makes_iowr _ _).bind <| (makes_iowr _ _).bind h

theorem makes_msleep (ms : Nat) : Makes (msleep ms) [] [] () :=
  ⟨[⟨.msleep ms, ()⟩], .call (.pure _), rfl, rfl⟩

theorem makes_iord (regnum : Nat) (w : BitVec 32) :
    Makes (iord regnum) [.iord regnum] [w] (BitVec.toInt w : ℚ) :=
  ⟨[⟨.iord regnum, w⟩], .call (.pure _), rfl, rfl⟩

theorem makes_sendOrShow (buffer : Buffer) : Makes (sendOrShow buffer) [.send buffer.bytes] [] () :=
  ⟨[⟨.send buffer.bytes, (0 : Int)⟩], .call (.pure _), rfl, rfl⟩

theorem script_pass {r1 r2 : Received} (h1 : 0 ≤ r1.result) (h2 : 0 ≤ r2.result) (r3 : Received)
    (buffer : Buffer) (rs : List Received) :
    script quaternion .skipped buffer (r1 :: r2 :: r3 :: rs) =
      script quaternion .skipped buffer [r1, r2, r3] ++
        script quaternion .skipped (((buffer.store r1).store r2).store r3) rs := by
  simp [script, Site.exits, Site.next, h1.not_gt, h2.not_gt]

/-- A pass that is not ended by `exit`, the words it reads all zero. -/
theorem makes_iteration (b : Task) {r1 r2 : Received} (h1 : 0 ≤ r1.result) (h2 : 0 ≤ r2.result)
    (r3 : Received) : Makes (iteration b) (script b.quaternion .skipped b.buffer [r1, r2, r3])
      [0, 0, 0, 0] (b.afterPass r1 r2 r3 fun _ => 0) := by
  have hscript : script b.quaternion .skipped b.buffer [r1, r2, r3] =
      .recv r1 :: .recv r2 :: (block b.quaternion ((b.buffer.store r1).store r2) .first ++
        .recv r3 :: block b.quaternion (((b.buffer.store r1).store r2).store r3) .second) := by
    simp [script, Site.exits, Site.next, block, h1.not_gt, h2.not_gt]
  rw [hscript]
  exact (makes_recvOrExit _ h1).bind <| (makes_recvOrExit _ h2).bind <| (makes_toParse _ _).bind <|
    makes_operand _ <| (makes_recvOrShow _ r3).bind <| (makes_toParse _ _).bind <| makes_operand _ <|
    (makes_msleep _).bind <| (makes_iord _ 0).bind <| (makes_iord _ 0).bind <| (makes_iord _ 0).bind <|
    (makes_iord _ 0).bind <| (makes_sendOrShow _).bind <| makes_pure _

theorem received_block (buffer : Buffer) (site : Site) :
    (block quaternion buffer site).filterMap Effect.received = [] := by
  cases site <;> rfl

/-- A script grows with what `recv` returns. -/
theorem script_prefix (rs rs' : List Received) (site : Site) (buffer : Buffer) :
    script quaternion site buffer rs <+: script quaternion site buffer (rs ++ rs') := by
  induction rs generalizing site buffer with
  | nil => exact List.nil_prefix
  | cons r rs ih =>
    simp only [List.cons_append, script]
    refine List.cons_prefix_cons.mpr ⟨rfl, ?_⟩
    split
    · exact List.prefix_rfl
    · exact (List.prefix_append_right_inj _).mpr (ih _ _)

theorem received_script (rs : List Received) (site : Site) (buffer : Buffer) :
    (script quaternion site buffer rs).filterMap Effect.received <+: rs := by
  induction rs generalizing site buffer with
  | nil => exact List.prefix_rfl
  | cons r rs ih =>
    have hr : Effect.received (.recv r) = some r := rfl
    rw [script, List.filterMap_cons_some hr, List.cons_prefix_cons]
    refine ⟨rfl, ?_⟩
    split
    · exact List.nil_prefix
    · rw [List.filterMap_append, received_block, List.nil_append]
      exact ih _ _

/-- A run can be looked at after any of its effects. -/
theorem exists_part {body : Task → Prog Io Task} {p p' : Prog Io Task} {t : List (Event Io)}
    {es : List Effect} (h : Forever body p t p') (hes : es <+: effects t) :
    ∃ u q, Forever body p u q ∧ effects u = es := by
  obtain ⟨v, hv⟩ := hes
  obtain ⟨u, w, rfl, hu, -⟩ := List.filterMap_eq_append_iff.mp hv.symm
  obtain ⟨q, hq⟩ := h.split
  exact ⟨u, q, hq, hu⟩

/-- **Whatever `recv` may return, some run does all of the script.** -/
theorem exists_script (b : Task) (rs : List Received) : ∃ t p, Forever iteration (iteration b) t p ∧
    effects t = script b.quaternion .skipped b.buffer rs := by
  induction hn : rs.length using Nat.strong_induction_on generalizing b rs with
  | _ n ih =>
    match rs with
    | [] => exact ⟨[], _, .refl _, rfl⟩
    | r1 :: rs =>
      by_cases h1 : r1.result < 0
      · exact ⟨[⟨.recv, r1⟩], _, .call (.refl _), by simp [script, Site.exits, h1]; rfl⟩
      match rs with
      | [] => exact ⟨[⟨.recv, r1⟩], _, .call (.refl _), by simp [script, Site.exits, h1, block]; rfl⟩
      | r2 :: rs =>
        by_cases h2 : r2.result < 0
        · obtain ⟨t, ht, he, -⟩ := makes_recvOrExit b.buffer (Int.not_lt.mp h1)
          refine ⟨t ++ [⟨.recv, r2⟩], _, ht.forever_bind (.call (.refl _)), ?_⟩
          rw [effects, List.filterMap_append, ← effects, he]
          simp [script, Site.exits, Site.next, h1, h2, block]
          rfl
        have h1' := Int.not_lt.mp h1
        have h2' := Int.not_lt.mp h2
        match rs with
        | [] =>
          -- a pass that goes on, looked at before its third `recv`
          obtain ⟨t, ht, he, -⟩ := makes_iteration b h1' h2' r1
          refine exists_part ht.forever ?_
          rw [he]
          exact script_prefix [r1, r2] [r1] _ _
        | r3 :: rs =>
          obtain ⟨t, ht, he, -⟩ := makes_iteration b h1' h2' r3
          obtain ⟨u, p, hu, he'⟩ := ih rs.length (by rw [← hn]; simp; omega)
            (b.afterPass r1 r2 r3 fun _ => 0) rs rfl
          refine ⟨t ++ u, p, ht.round hu, ?_⟩
          rw [effects, List.filterMap_append, script_pass h1' h2']
          exact congrArg₂ _ he he'

end

end FpgaQuat.Board
