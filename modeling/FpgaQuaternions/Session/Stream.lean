import FpgaQuaternions.Board.Task
import FpgaQuaternions.Server.Main

/-!
# The messages of the server in the buffer of the board

The server sends the texts of rows one after the other on a byte stream, the board
takes one `recv` for one message and drops the first of every three.  `View` is what
an observer of the board's calls sees: the chunks received and, at every place where a
message is to be parsed, the bytes that the last `recv` left at the front of the buffer.

    what is found there is the second and third of every three chunks    (contents_prefix)
    it is message after message exactly if the segmentation and the texts
    repeat themselves in step with the loop                        (contents_correct_iff)
-/

namespace FpgaQuat.Session

open Effects Framing Board
open Server (FloatRepr str str_framed)

/-! ## What the board sees -/

/-- Chunks received so far, the length of the last one, and what was found where a message is
to be parsed. -/
structure View where
  chunks : List (List UInt8)
  last : Nat
  contents : List (List UInt8)

def View.observe (v : View) : Event Board.Io → View
  | ⟨.recv, .data bytes _⟩ => { v with chunks := v.chunks ++ [bytes], last := bytes.length }
  | ⟨.toParse _ buffer, _⟩ => { v with contents := v.contents ++ [buffer.bytes.take v.last] }
  | _ => v

def view (t : List (Event Board.Io)) : View := t.foldl View.observe ⟨[], 0, []⟩

/-- The connection is up: `recv` comes back with some bytes. -/
def Delivers : Event Board.Io → Prop
  | ⟨.recv, .error _ _⟩ => False
  | ⟨.recv, .data bytes _⟩ => bytes ≠ []
  | _ => True

/-- The chunks of which a loop that starts with a dropped `recv` takes two messages. -/
def parsed : List (List UInt8) → List (List UInt8)
  | _ :: c2 :: c3 :: cs => c2 :: c3 :: parsed cs
  | [_, c2] => [c2]
  | _ => []

theorem parsed_append (cs ds : List (List UInt8)) (h : 3 ∣ cs.length) :
    parsed (cs ++ ds) = parsed cs ++ parsed ds := by
  fun_induction parsed cs with
  | case1 c1 c2 c3 cs ih =>
    rw [List.cons_append, List.cons_append, List.cons_append, parsed, ih (by simpa using h)]
    rfl
  | case2 c1 c2 => norm_num at h
  | case3 cs h3 h2 =>
    match cs with
    | [] => rfl
    | [c] => norm_num at h
    | [c1, c2] => exact absurd rfl (h2 c1 c2)
    | c1 :: c2 :: c3 :: cs => exact absurd rfl (h3 c1 c2 c3 cs)

/-! ## Every run -/

/-- At the head of the loop every message parsed so far came from its own chunk. -/
def AtHead (v : View) : Prop := 3 ∣ v.chunks.length ∧ v.contents = parsed v.chunks

/-- What has been found is in step with the chunks received. -/
def InStep (v : View) : Prop := v.contents <+: parsed v.chunks

def View.recv (v : View) (bytes : List UInt8) : View :=
  { v with chunks := v.chunks ++ [bytes], last := bytes.length }

/-- Either `recv`, whatever it does on a failure. -/
theorem wp_recv {buffer : Buffer} {fail : Received → Prog Board.Io Buffer}
    {Q : Buffer → View → Prop} {v : View}
    (h : ∀ bytes hb, InStep (v.recv bytes) ∧ Q (buffer.store (.data bytes hb)) (v.recv bytes)) :
    wp Delivers View.observe InStep (.call .recv fun r =>
      if r.result < 0 then fail r else .pure (buffer.store r) : Prog Board.Io Buffer) Q v := by
  intro r hr
  cases r with
  | error code hc => exact hr.elim
  | data bytes hb =>
    simp only [if_neg (result_nonneg bytes hb).not_gt, wp_pure]
    exact h bytes hb

theorem wp_toParse {slot : Fin 2} {buffer : Buffer} {Q : Unit → View → Prop} {v : View}
    (h : InStep { v with contents := v.contents ++ [buffer.bytes.take v.last] } ∧
      Q () { v with contents := v.contents ++ [buffer.bytes.take v.last] }) :
    wp Delivers View.observe InStep (toParse slot buffer) Q v :=
  fun _ _ => h

/-- Calls that are no `recv` and no place of a message change nothing. -/
theorem wp_quiet {α : Type} {op : Board.Call} {k : op.Ans → Prog Board.Io α} {Q : α → View → Prop}
    {v : View} (hop : ∀ r, v.observe ⟨op, r⟩ = v) (hI : InStep v)
    (hk : ∀ r, wp Delivers View.observe InStep (k r) Q v) :
    wp Delivers View.observe InStep (.call op k : Prog Board.Io α) Q v := by
  intro r _
  rw [hop r]
  exact ⟨hI, hk r⟩

theorem wp_sendOrShow {buffer : Buffer} {Q : Unit → View → Prop} {v : View} (hI : InStep v)
    (hQ : Q () v) : wp Delivers View.observe InStep (sendOrShow buffer) Q v := by
  refine wp_quiet (fun _ => rfl) hI fun n => ?_
  split
  · exact wp_quiet (fun _ => rfl) hI fun _ => hQ
  · exact hQ

/-- **One pass**: two messages from three chunks. -/
theorem wp_iteration (b : Task) (v : View) (h : AtHead v) :
    wp Delivers View.observe InStep (iteration b) (fun _ => AtHead) v := by
  obtain ⟨hlen, hc⟩ := h
  have hparsed : ∀ ds, parsed (v.chunks ++ ds) = v.contents ++ parsed ds := by
    intro ds
    rw [parsed_append _ _ hlen, hc]
  unfold iteration
  rw [wp_bind]
  apply wp_recv
  intro c1 h1
  refine ⟨⟨_, (hparsed [c1]).symm⟩, ?_⟩
  rw [wp_bind]
  apply wp_recv
  intro c2 h2
  have e2 : parsed (v.chunks ++ [c1] ++ [c2]) = v.contents ++ [c2] := by
    rw [List.append_assoc]; exact hparsed _
  refine ⟨⟨_, e2.symm⟩, ?_⟩
  rw [wp_bind]
  apply wp_toParse
  have f2 : (((b.buffer.store (.data c1 h1)).store (.data c2 h2)).bytes.take c2.length) = c2 :=
    Buffer.take_store _ _ _
  simp only [View.recv, f2]
  have hI2 : InStep ⟨v.chunks ++ [c1] ++ [c2], c2.length, v.contents ++ [c2]⟩ :=
    e2.symm ▸ List.prefix_rfl
  refine ⟨hI2, ?_⟩
  simp only [iowr, Prog.call_bind, Prog.pure_bind]
  refine wp_quiet (fun _ => rfl) hI2 fun _ => wp_quiet (fun _ => rfl) hI2 fun _ =>
    wp_quiet (fun _ => rfl) hI2 fun _ => wp_quiet (fun _ => rfl) hI2 fun _ => ?_
  rw [wp_bind]
  apply wp_recv
  intro c3 h3
  have e3 : parsed (v.chunks ++ [c1] ++ [c2] ++ [c3]) = v.contents ++ [c2] ++ [c3] := by
    rw [List.append_assoc, List.append_assoc, hparsed, List.append_assoc]; rfl
  refine ⟨⟨_, e3.symm⟩, ?_⟩
  rw [wp_bind]
  apply wp_toParse
  have f3 : (((b.buffer.store (.data c1 h1)).store (.data c2 h2)).store (.data c3 h3)).bytes.take
      c3.length = c3 := Buffer.take_store _ _ _
  simp only [View.recv, f3]
  have hI3 : InStep ⟨v.chunks ++ [c1] ++ [c2] ++ [c3], c3.length, v.contents ++ [c2] ++ [c3]⟩ :=
    e3.symm ▸ List.prefix_rfl
  refine ⟨hI3, ?_⟩
  simp only [msleep, iord, Prog.call_bind, Prog.pure_bind]
  refine wp_quiet (fun _ => rfl) hI3 fun _ => wp_quiet (fun _ => rfl) hI3 fun _ =>
    wp_quiet (fun _ => rfl) hI3 fun _ => wp_quiet (fun _ => rfl) hI3 fun _ =>
    wp_quiet (fun _ => rfl) hI3 fun _ => wp_quiet (fun _ => rfl) hI3 fun _ =>
    wp_quiet (fun _ => rfl) hI3 fun _ => wp_quiet (fun _ => rfl) hI3 fun _ =>
    wp_quiet (fun _ => rfl) hI3 fun _ => ?_
  have hhead : AtHead ⟨v.chunks ++ [c1] ++ [c2] ++ [c3], c3.length, v.contents ++ [c2] ++ [c3]⟩ :=
    ⟨by simpa using hlen, e3.symm⟩
  rw [wp_bind]
  exact wp_sendOrShow hI3 hhead

/-- **The run lemma**: what is found where messages are to be parsed is the second and third of
every three chunks. -/
theorem contents_prefix {b : Task} {t : List (Event Board.Io)} {p : Prog Board.Io Task}
    (h : Forever iteration (iteration b) t p) (hd : ∀ e ∈ t, Delivers e) :
    (view t).contents <+: parsed (view t).chunks := by
  have hstart : AtHead ⟨[], 0, []⟩ := ⟨⟨0, rfl⟩, rfl⟩
  exact forever_inv (I := InStep) (L := fun _ => AtHead) wp_iteration h _ hd (wp_iteration b _ hstart)
    List.prefix_rfl

theorem observe_pass (b : Task) (c1 c2 c3 : List UInt8) (h1 : c1.length ≤ bufferSize)
    (h2 : c2.length ≤ bufferSize) (h3 : c3.length ≤ bufferSize) (d : Fin 4 → BitVec 32) (n : Int)
    (v : View) : (pass b (.data c1 h1) (.data c2 h2) (.data c3 h3) d n).foldl View.observe v =
      ⟨v.chunks ++ [c1, c2, c3], c3.length, v.contents ++ [c2, c3]⟩ := by
  simp [Board.pass, View.observe, Buffer.take_store, List.ofFn_succ]

theorem delivers_pass (b : Task) (c1 c2 c3 : List UInt8) (h1 : c1.length ≤ bufferSize)
    (h2 : c2.length ≤ bufferSize) (h3 : c3.length ≤ bufferSize) (d : Fin 4 → BitVec 32) (n : Int)
    (n1 : c1 ≠ []) (n2 : c2 ≠ []) (n3 : c3 ≠ []) :
    ∀ e ∈ pass b (.data c1 h1) (.data c2 h2) (.data c3 h3) d n, Delivers e := by
  simp only [Board.pass, List.forall_mem_append, List.forall_mem_cons, List.forall_mem_ofFn_iff, Delivers,
    List.not_mem_nil, false_imp_iff, implies_true, and_true]
  exact ⟨⟨n1, n2⟩, n3⟩

/-- A pass that is looked at after some of its calls. -/
theorem exists_part (n : Nat) (b : Task) (c1 c2 c3 : List UInt8) (h1 : c1.length ≤ bufferSize)
    (h2 : c2.length ≤ bufferSize) (h3 : c3.length ≤ bufferSize) (n1 : c1 ≠ []) (n2 : c2 ≠ [])
    (n3 : c3 ≠ []) : ∃ t p, t = (pass b (.data c1 h1) (.data c2 h2) (.data c3 h3) (fun _ => 0) 0).take n ∧
      Forever iteration (iteration b) t p ∧ ∀ e ∈ t, Delivers e := by
  have hp : Forever iteration (iteration b) _ _ := (returns_pass b (.data c1 h1) (.data c2 h2)
    (.data c3 h3) (fun _ => 0) 0 (result_nonneg _ _) (result_nonneg _ _) (result_nonneg _ _)
    le_rfl).forever
  rw [← List.take_append_drop n (pass ..)] at hp
  obtain ⟨p, hp⟩ := hp.split
  exact ⟨_, p, rfl, hp, fun e he =>
    delivers_pass b c1 c2 c3 h1 h2 h3 _ _ n1 n2 n3 e (List.mem_of_mem_take he)⟩

/-- Every list of chunks is received by a run that has found all there is to find. -/
theorem exists_run (cs : List (List UInt8)) (hcs : ∀ c ∈ cs, c ≠ [] ∧ c.length ≤ bufferSize)
    (b : Task) (v : View) : ∃ t p, Forever iteration (iteration b) t p ∧ (∀ e ∈ t, Delivers e) ∧
      (t.foldl View.observe v).chunks = v.chunks ++ cs ∧
      (t.foldl View.observe v).contents = v.contents ++ parsed cs := by
  fun_induction parsed cs generalizing b v with
  | case1 c1 c2 c3 cs ih =>
    obtain ⟨n1, h1⟩ := hcs c1 (by simp)
    obtain ⟨n2, h2⟩ := hcs c2 (by simp)
    obtain ⟨n3, h3⟩ := hcs c3 (by simp)
    let r1 := Received.data c1 h1
    let r2 := Received.data c2 h2
    let r3 := Received.data c3 h3
    obtain ⟨t, p, ht, hd, hch, hco⟩ := ih (fun c hc => hcs c (by simp [hc]))
      (b.afterPass r1 r2 r3 fun _ => 0) ⟨v.chunks ++ [c1, c2, c3], c3.length, v.contents ++ [c2, c3]⟩
    refine ⟨pass b r1 r2 r3 (fun _ => 0) 0 ++ t, p, (returns_pass b r1 r2 r3 _ 0 (result_nonneg _ _)
      (result_nonneg _ _) (result_nonneg _ _) le_rfl).round ht, ?_, ?_, ?_⟩
    · intro e he
      rcases List.mem_append.mp he with he | he
      · exact delivers_pass b c1 c2 c3 h1 h2 h3 _ _ n1 n2 n3 e he
      · exact hd e he
    · rw [List.foldl_append, observe_pass, hch]; simp
    · rw [List.foldl_append, observe_pass, hco]; simp
  | case2 c1 c2 =>
    obtain ⟨n1, h1⟩ := hcs c1 (by simp)
    obtain ⟨n2, h2⟩ := hcs c2 (by simp)
    obtain ⟨t, p, rfl, hp, hd⟩ := exists_part 3 b c1 c2 c2 h1 h2 h2 n1 n2 n2
    refine ⟨_, p, hp, hd, ?_, ?_⟩
    · show v.chunks ++ [c1] ++ [c2] = v.chunks ++ [c1, c2]
      simp
    · show v.contents ++ [((b.buffer.store _).store (.data c2 h2)).bytes.take c2.length] = _
      rw [Buffer.take_store]
  | case3 cs h3 h2 =>
    match cs with
    | [] => exact ⟨[], _, .refl _, by simp, by simp, by simp⟩
    | [c1] =>
      obtain ⟨n1, h1⟩ := hcs c1 (by simp)
      obtain ⟨t, p, rfl, hp, hd⟩ := exists_part 1 b c1 c1 c1 h1 h1 h1 n1 n1 n1
      exact ⟨_, p, hp, hd, rfl, (List.append_nil _).symm⟩
    | [c1, c2] => exact absurd rfl (h2 c1 c2)
    | c1 :: c2 :: c3 :: cs => exact absurd rfl (h3 c1 c2 c3 cs)

/-! ## When message after message is found -/

/-- The messages `es` are found, in order, in the chunks of a stream of the messages `rs`: the
first chunk of a pass is one or more whole messages, each of the other two is one message, and
these two read like the next two of `es`. -/
inductive Realigned : List (List UInt8) → List (List UInt8) → List (List UInt8) → Prop
  | nil (es rs : List (List UInt8)) : Realigned es rs []
  | dropped (es rs : List (List UInt8)) (c : List UInt8) : Realigned es rs [c]
  | first {es before after : List (List UInt8)} {e : List UInt8} :
      before ≠ [] → Realigned (e :: es) (before ++ e :: after) [before.flatten, e]
  | pass {es before after cs : List (List UInt8)} {e e' : List UInt8} :
      before ≠ [] → Realigned es after cs →
      Realigned (e :: e' :: es) (before ++ e :: e' :: after) (before.flatten :: e :: e' :: cs)

/-- Chunks of a stream of messages. -/
structure Segmentation (ms : List (List UInt8)) where
  chunks : List (List UInt8)
  sizes : ∀ c ∈ chunks, c ≠ [] ∧ c.length ≤ bufferSize
  inOrder : chunks.flatten <+: ms.flatten

theorem parsed_prefix_iff (es rs cs : List (List UInt8)) (hes : ∀ m ∈ es, Framed 0x5b 0x5d m)
    (hrs : ∀ m ∈ rs, Framed 0x5b 0x5d m) (hcs : ∀ c ∈ cs, c ≠ []) (hs : cs.flatten <+: rs.flatten) :
    parsed cs <+: es ↔ Realigned es rs cs := by
  fun_induction parsed cs generalizing es rs with
  | case1 c1 c2 c3 cs ih =>
    constructor
    · rintro ⟨es', rfl⟩
      obtain ⟨v, hv⟩ := hs
      obtain ⟨before, after, rfl, hb, ha⟩ := (hes c2 (by simp)).at_boundary (by decide) hrs
        (u := c1) (v := c3 ++ (cs.flatten ++ v)) (by simpa using hv)
      obtain ⟨after, rfl, ha'⟩ := (hes c3 (by simp)).head (fun m hm => hrs m (by simp [hm])) ha
      have hbefore : before ≠ [] := by
        rintro rfl
        exact hcs c1 (by simp) hb
      rw [hb]
      refine .pass hbefore ((ih (parsed cs ++ es') after (fun m hm => hes m (by simp_all))
        (fun m hm => hrs m (by simp [hm])) (fun c hc => hcs c (by simp [hc])) ⟨v, ha'⟩).mp
        (List.prefix_append _ _))
    · intro h
      cases h with
      | @pass es before after _ _ _ hb h =>
        obtain ⟨v, hv⟩ := hs
        have hs' : cs.flatten <+: after.flatten := ⟨v, by simpa using hv⟩
        obtain ⟨w, hw⟩ := (ih es after (fun m hm => hes m (by simp [hm]))
          (fun m hm => hrs m (by simp [hm])) (fun c hc => hcs c (by simp [hc])) hs').mpr h
        exact ⟨w, by simp [hw]⟩
  | case2 c1 c2 =>
    constructor
    · rintro ⟨es', rfl⟩
      obtain ⟨v, hv⟩ := hs
      obtain ⟨before, after, rfl, hb, -⟩ := (hes c2 (by simp)).at_boundary (by decide) hrs
        (u := c1) (v := v) (by simpa using hv)
      have hbefore : before ≠ [] := by
        rintro rfl
        exact hcs c1 (by simp) hb
      rw [hb]
      exact .first hbefore
    · intro h
      cases h with
      | first hb => exact ⟨_, rfl⟩
  | case3 cs h3 h2 =>
    refine iff_of_true (List.nil_prefix) ?_
    match cs with
    | [] => exact .nil _ _
    | [c] => exact .dropped _ _ c
    | [c1, c2] => exact absurd rfl (h2 c1 c2)
    | c1 :: c2 :: c3 :: cs => exact absurd rfl (h3 c1 c2 c3 cs)

/-- Messages that all differ are never realigned: one `recv` and the first is lost. -/
theorem realigned_nodup {ms cs : List (List UInt8)} (h : ms.Nodup) :
    Realigned ms ms cs ↔ cs.length ≤ 1 := by
  have hfirst : ∀ {e : List UInt8} {es before after : List (List UInt8)}, before ≠ [] →
      before ++ e :: after = e :: es → ¬ (e :: es).Nodup := by
    intro e es before after hb he hn
    cases before with
    | nil => exact hb rfl
    | cons x before =>
      obtain ⟨rfl, rfl⟩ := List.cons.inj he
      simp at hn
  constructor
  · suffices key : ∀ es rs, Realigned es rs cs → es = rs → es.Nodup → cs.length ≤ 1 from
      fun hr => key ms ms hr rfl h
    intro es rs hr hrs hn
    cases hr with
    | nil => exact Nat.zero_le _
    | dropped => exact Nat.le_refl _
    | first hb => exact absurd hn (hfirst hb hrs.symm)
    | pass hb _ => exact absurd hn (hfirst hb hrs.symm)
  · intro hl
    match cs with
    | [] => exact .nil _ _
    | [c] => exact .dropped _ _ c

/-- **When no message is lost, duplicated, split or merged.**  For the texts of any rows and any
segmentation of them, the messages found in the buffer are the messages sent, from the first one
on, exactly if the chunks are realigned: message boundaries fall where the loop needs them and the
messages found read like those that were dropped on the way. -/
theorem contents_correct_iff (R : FloatRepr) (rows : List (List ℚ))
    (s : Segmentation (rows.map (str R))) :
    (∀ b t p, Forever iteration (iteration b) t p → (∀ e ∈ t, Delivers e) →
      (view t).chunks = s.chunks → (view t).contents <+: rows.map (str R)) ↔
    Realigned (rows.map (str R)) (rows.map (str R)) s.chunks := by
  have hframed : ∀ m ∈ rows.map (str R), Framed 0x5b 0x5d m := by
    intro m hm
    obtain ⟨row, -, rfl⟩ := List.mem_map.mp hm
    exact str_framed R row
  rw [← parsed_prefix_iff _ _ _ hframed hframed (fun c hc => (s.sizes c hc).1) s.inOrder]
  constructor
  · intro h
    obtain ⟨t, p, ht, hd, hch, hco⟩ := exists_run s.chunks s.sizes
      ⟨⟨List.replicate 80 0, by decide⟩, fun _ _ => 0, 0⟩ ⟨[], 0, []⟩
    have := h _ t p ht hd hch
    rwa [view, hco] at this
  · intro h b t p ht hd hch
    have := contents_prefix ht hd
    rw [hch] at this
    exact this.trans h

/-- Two messages, each in a chunk of its own: the second is found where the first should be. -/
theorem first_message_dropped : ∃ (rows : List (List ℚ)) (s : Segmentation (rows.map (str .tenths))),
    ¬ ∀ b t p, Forever iteration (iteration b) t p → (∀ e ∈ t, Delivers e) →
      (view t).chunks = s.chunks → (view t).contents <+: rows.map (str .tenths) := by
  let rows : List (List ℚ) := [[0, 1 / 2, 1, 0], [1, 0, 1 / 2, 0]]
  have hs : ∀ c ∈ rows.map (str .tenths), c ≠ [] ∧ c.length ≤ bufferSize := by decide +kernel
  refine ⟨rows, ⟨rows.map (str .tenths), hs, List.prefix_rfl⟩, fun h => ?_⟩
  obtain ⟨t, p, ht, hd, hch, hco⟩ := exists_run _ hs
    ⟨⟨List.replicate 80 0, by decide⟩, fun _ _ => 0, 0⟩ ⟨[], 0, []⟩
  have := h _ t p ht hd hch
  rw [view, hco] at this
  revert this
  decide +kernel

end FpgaQuat.Session
