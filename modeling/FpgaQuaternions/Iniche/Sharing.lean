import FpgaQuaternions.Iniche.Packet

/-!
# Packets between tasks and the interrupt handler

Any number of tasks allocate, use, clone and free packets; the handler of the network chip
comes in anywhere, allocates a packet and puts it into `rcvdq`; `pktdemux` takes packets out of
`rcvdq`.  A step is what nothing can come between: a critical section, or what a task does to a
packet in its hands.

The handler is one of the tasks; that nothing comes between its steps leaves it fewer runs
(`frame_run`), as a call of `pk_alloc` or `pk_free` has that is left alone (`alloc_run`,
`free_run`).  `System.Sound` holds of every state that is reached from one where it holds
(`run_sound`).
-/

namespace FpgaQuat.Iniche

open LinkedList
open Function (update)
open Nic (lilbufsiz bigbufsiz)

/-! ## The steps -/

/-- How far a task is with a packet: in `pk_alloc` behind `getq`, at its own work, in `pk_free`
behind one of the checks, behind `inuse--`. -/
inductive Stage where
  | taken
  | owned
  | linked
  | searched
  | valid
  | dropped
deriving DecidableEq, Repr

/-- A task has a packet in its hands. -/
structure Ref where
  stage : Stage
  /-- So many bytes were asked for. -/
  len : Nat
  /-- It may be sent; what was cloned stays in the send queue. -/
  sends : Bool
deriving DecidableEq, Repr

structure System (α : Type) where
  net : Net α
  /-- In `pk_alloc`, past the choice of the queue. -/
  asked : Multiset (Nat × Name)
  /-- Who has the packet. -/
  refs : α → Multiset Ref
  /-- `pktdemux` saw that `rcvdq` is not empty. -/
  demux : Bool
  panicked : Bool

/-- What a task may do to a packet in its hands. -/
structure Netbuf.Kept (b b' : Netbuf) : Prop where
  nbBlen : b'.nbBlen = b.nbBlen
  inuse : b'.inuse = b.inuse
  markers : ∀ j, j < alignType ∨ j = alignType + b.nbBlen → b'.area j = b.area j

/-- What `pktdemux` does not want to find in front of the buffer and behind it. -/
def Netbuf.Corrupt (b : Netbuf) : Prop := b.area 0 ≠ marker ∨ b.area (alignType + b.nbBlen) ≠ marker

section
variable {α : Type} [DecidableEq α]

/-- The checks of `pk_free`, each with the stage behind it. -/
def Net.check (fuel : Nat) (s : Net α) (p : α) : Stage → Option (Stage × Option Memerr)
  | .owned => some (.linked, s.checkLink p)
  | .linked => (s.checkFreeq fuel p).map (Stage.searched, ·)
  | .searched => some (.valid, s.checkMarkers p)
  | _ => none

namespace System

def withNet (s : System α) (net : Net α) : System α := { s with net }

def withRefs (s : System α) (p : α) (rs : Multiset Ref) : System α := { s with refs := update s.refs p rs }

end System

inductive Step (s : System α) : System α → Prop
  /-- `pk_alloc` looks at the length and at `lilfreeq`. -/
  | choose {len : Nat} {k : Name} (h : s.net.chooseq len = some k) : Step s { s with asked := (len, k) ::ₘ s.asked }
  | take {len : Nat} {k : Name} {asked : Multiset (Nat × Name)} {p : α} {net : Net α} (ha : s.asked = (len, k) ::ₘ asked)
      (h : s.net.getq k = (some p, net)) :
      Step s ({ s with net, asked }.withRefs p (⟨.taken, len, true⟩ ::ₘ s.refs p))
  | refuse {len : Nat} {k : Name} {asked : Multiset (Nat × Name)} {net : Net α} (ha : s.asked = (len, k) ::ₘ asked)
      (h : s.net.getq k = (none, net)) : Step s { s with net, asked }
  | prepare {p : α} {r : Ref} {rs : Multiset Ref} (hr : s.refs p = r ::ₘ rs) (h : r.stage = .taken) :
      Step s ((s.withNet (s.net.prepare p)).withRefs p ({ r with stage := .owned } ::ₘ rs))
  | use {p : α} {r : Ref} {rs : Multiset Ref} {b : Netbuf} (hr : s.refs p = r ::ₘ rs) (h : r.stage = .owned)
      (hb : (s.net.bufs p).Kept b) : Step s (s.withNet (s.net.withBuf p b))
  /-- `m_copy` and `tcp_output`, which do not clone a clone. -/
  | clone {p : α} {r : Ref} {rs : Multiset Ref} (hr : s.refs p = r ::ₘ rs) (h : r.stage = .owned)
      (hb : (s.net.bufs p).inuse = 1) :
      Step s ((s.withNet (s.net.withBuf p { s.net.bufs p with inuse := (s.net.bufs p).inuse + 1 })).withRefs p
        ({ r with sends := false } ::ₘ { r with sends := true } ::ₘ rs))
  /-- A packet to an address of one's own. -/
  | loop {p : α} {r : Ref} {rs : Multiset Ref} (hr : s.refs p = r ::ₘ rs) (h : r.stage = .owned) (hsend : r.sends = true) :
      Step s ((s.withNet (s.net.putq .rcvdq p)).withRefs p rs)
  /-- A check of `pk_free` finds no fault. -/
  | pass {p : α} {fuel : Nat} {r : Ref} {rs : Multiset Ref} {st : Stage} (hr : s.refs p = r ::ₘ rs)
      (h : s.net.check fuel p r.stage = some (st, none)) : Step s (s.withRefs p ({ r with stage := st } ::ₘ rs))
  /-- One does, and `pk_free` returns. -/
  | fault {p : α} {fuel : Nat} {r : Ref} {rs : Multiset Ref} {st : Stage} {e : Memerr} (hr : s.refs p = r ::ₘ rs)
      (h : s.net.check fuel p r.stage = some (st, some e)) :
      Step s ((s.withNet (s.net.incrSharedVar e)).withRefs p rs)
  | share {p : α} {r : Ref} {rs : Multiset Ref} {net : Net α} (hr : s.refs p = r ::ₘ rs) (h : r.stage = .valid)
      (hrel : s.net.release p = (true, net)) : Step s ((s.withNet net).withRefs p rs)
  | drop {p : α} {r : Ref} {rs : Multiset Ref} {net : Net α} (hr : s.refs p = r ::ₘ rs) (h : r.stage = .valid)
      (hrel : s.net.release p = (false, net)) : Step s ((s.withNet net).withRefs p ({ r with stage := .dropped } ::ₘ rs))
  | giveBack {p : α} {r : Ref} {rs : Multiset Ref} (hr : s.refs p = r ::ₘ rs) (h : r.stage = .dropped) :
      Step s ((s.withNet (s.net.giveBack p)).withRefs p rs)
  | look (hd : s.demux = false) (h : (s.net.queue .rcvdq).qLen ≠ 0) : Step s { s with demux := true }
  | demux {p : α} {net : Net α} (hd : s.demux = true) (h : s.net.getq .rcvdq = (some p, net))
      (hb : ¬ (net.bufs p).Corrupt) :
      Step s ({ s with net, demux := false }.withRefs p (⟨.owned, 0, true⟩ ::ₘ s.refs p))
  /-- `pktdemux: got null pkt` -/
  | demuxNull {net : Net α} (hd : s.demux = true) (h : s.net.getq .rcvdq = (none, net)) :
      Step s { s with net, demux := false, panicked := true }
  /-- `pktdemux: corrupt pkt` -/
  | demuxCorrupt {p : α} {net : Net α} (hd : s.demux = true) (h : s.net.getq .rcvdq = (some p, net))
      (hb : (net.bufs p).Corrupt) : Step s { s with net, demux := false, panicked := true }

/-! ## Calls that nothing comes between -/

section
variable {s : System α} {p : α} {r : Ref} {rs : Multiset Ref} {net : Net α} {len fuel : Nat}

open Relation (ReflTransGen)

theorem withRefs_withRefs (s : System α) (p : α) (rs rs' : Multiset Ref) :
    (s.withRefs p rs).withRefs p rs' = s.withRefs p rs' := by
  unfold System.withRefs
  rw [Function.update_idem]

theorem withRefs_self (h : s.refs p = rs) : s.withRefs p rs = s := by
  unfold System.withRefs
  rw [← h, Function.update_eq_self]

/-- Its last step is behind `getq`. -/
theorem alloc_run (h : s.net.pkAlloc len = (some p, net)) :
    ReflTransGen Step s ((s.withNet net).withRefs p (⟨.owned, len, true⟩ ::ₘ s.refs p)) := by
  cases hk : s.net.chooseq len with
  | none =>
    rw [Net.pkAlloc, hk] at h
    cases h
  | some k =>
    rw [Net.pkAlloc_eq hk] at h
    obtain ⟨hsome, hrest⟩ := Prod.mk.inj h
    rw [hsome] at hrest
    have hget : s.net.getq k = (some p, (s.net.getq k).2) := Prod.ext hsome rfl
    have h1 : Step s _ := .choose hk
    have h2 := Step.take (s := { s with asked := (len, k) ::ₘ s.asked }) rfl hget
    have h3 := Step.prepare (s := (s.withNet (s.net.getq k).2).withRefs p (⟨.taken, len, true⟩ ::ₘ s.refs p))
      (Function.update_self _ _ _) rfl
    have heq : ((s.withNet (s.net.getq k).2).withRefs p (⟨.taken, len, true⟩ ::ₘ s.refs p)).withNet
        ((s.net.getq k).2.prepare p) = (s.withNet net).withRefs p (⟨.taken, len, true⟩ ::ₘ s.refs p) := by
      rw [← hrest]
      rfl
    rw [← withRefs_withRefs (s.withNet net) p (⟨.taken, len, true⟩ ::ₘ s.refs p), ← heq]
    exact ((ReflTransGen.single h1).tail h2).tail h3

theorem alloc_none (h : s.net.pkAlloc len = (none, net)) : ReflTransGen Step s (s.withNet net) := by
  cases hk : s.net.chooseq len with
  | none =>
    rw [Net.pkAlloc, hk] at h
    obtain ⟨-, rfl⟩ := Prod.mk.inj h
    exact .refl
  | some k =>
    rw [Net.pkAlloc_eq hk] at h
    obtain ⟨hnone, hrest⟩ := Prod.mk.inj h
    rw [hnone] at hrest
    have hget : s.net.getq k = (none, net) := Prod.ext hnone hrest
    have h1 : Step s _ := .choose hk
    have h2 := Step.refuse (s := { s with asked := (len, k) ::ₘ s.asked }) rfl hget
    exact (ReflTransGen.single h1).tail h2

theorem free_run (hr : s.refs p = r ::ₘ rs) (h : r.stage = .owned) (hfree : s.net.pkFree fuel p = some net) :
    ReflTransGen Step s ((s.withNet net).withRefs p rs) := by
  -- the task behind a check
  let t : Stage → System α := fun st => s.withRefs p ({ r with stage := st } ::ₘ rs)
  have hat : ∀ st, (t st).refs p = { r with stage := st } ::ₘ rs := fun st => Function.update_self _ _ _
  have hpass : ∀ {st st'}, s.net.check fuel p st = some (st', none) → Step (t st) (t st') := by
    intro st st' hcheck
    have hstep := Step.pass (s := t st) (hat st) hcheck
    rwa [withRefs_withRefs] at hstep
  have hfault : ∀ {st st' e}, s.net.check fuel p st = some (st', some e) →
      Step (t st) ((s.withNet (s.net.incrSharedVar e)).withRefs p rs) := by
    intro st st' e hcheck
    have hstep := Step.fault (s := t st) (hat st) hcheck
    rw [← withRefs_withRefs (s.withNet _) p ({ r with stage := st } ::ₘ rs)]
    exact hstep
  have hstart : t .owned = s := withRefs_self (by rw [hr, ← h])
  suffices hrun : ReflTransGen Step (t .owned) ((s.withNet net).withRefs p rs) by rwa [hstart] at hrun
  have hfree' := hfree
  unfold Net.pkFree Net.pkValidate at hfree
  cases hlink : s.net.checkLink p with
  | some e =>
    rw [hlink] at hfree
    obtain rfl := Option.some_inj.mp hfree
    have hcheck : s.net.check fuel p .owned = some (.linked, some e) := by rw [Net.check, hlink]
    exact .single (hfault hcheck)
  | none =>
    rw [hlink] at hfree
    have h1 : Step (t .owned) (t .linked) := hpass (by rw [Net.check, hlink])
    cases hsearch : s.net.checkFreeq fuel p with
    | none =>
      rw [hsearch] at hfree
      cases hfree
    | some found =>
      rw [hsearch] at hfree
      cases found with
      | some e =>
        obtain rfl := Option.some_inj.mp hfree
        have hcheck : s.net.check fuel p .linked = some (.searched, some e) := by
          rw [Net.check, hsearch]
          rfl
        exact (ReflTransGen.single h1).tail (hfault hcheck)
      | none =>
        have hcheck : s.net.check fuel p .linked = some (.searched, none) := by
          rw [Net.check, hsearch]
          rfl
        have h2 : Step (t .linked) (t .searched) := hpass hcheck
        have h12 := (ReflTransGen.single h1).tail h2
        cases hmark : s.net.checkMarkers p with
        | some e =>
          rw [hmark] at hfree
          obtain rfl := Option.some_inj.mp hfree
          have hcheck : s.net.check fuel p .searched = some (.valid, some e) := by rw [Net.check, hmark]
          exact h12.tail (hfault hcheck)
        | none =>
          have hcheck : s.net.check fuel p .searched = some (.valid, none) := by rw [Net.check, hmark]
          have h123 := h12.tail (hpass hcheck)
          have hvalid : s.net.pkValidate fuel p = some (0, s.net) := by
            unfold Net.pkValidate
            rw [hlink, hsearch, hmark]
          rw [Net.pkFree_accepted hvalid] at hfree'
          have hrel : s.net.release p = (decide (1 < (s.net.bufs p).inuse.toNat), (s.net.release p).2) := rfl
          by_cases hone : 1 < (s.net.bufs p).inuse.toNat
          · rw [if_pos hone] at hfree'
            rw [decide_eq_true hone] at hrel
            obtain rfl := Option.some_inj.mp hfree'
            have h4 := Step.share (s := t .valid) (hat .valid) rfl hrel
            rw [← withRefs_withRefs (s.withNet _) p ({ r with stage := .valid } ::ₘ rs)]
            exact h123.tail h4
          · rw [if_neg hone] at hfree'
            rw [decide_eq_false hone] at hrel
            obtain rfl := Option.some_inj.mp hfree'
            have h4 := Step.drop (s := t .valid) (hat .valid) rfl hrel
            have h5 := Step.giveBack (s := (((t .valid).withNet (s.net.release p).2).withRefs p
              ({ r with stage := .dropped } ::ₘ rs))) (Function.update_self _ _ _) rfl
            rw [← withRefs_withRefs (s.withNet _) p ({ r with stage := .dropped } ::ₘ rs),
              ← withRefs_withRefs (s.withNet _) p ({ r with stage := .valid } ::ₘ rs)]
            exact (h123.tail h4).tail h5

/-- The handler's part. -/
theorem frame_run (h : s.net.pkAlloc len = (some p, net)) {b : Netbuf} (hb : (net.bufs p).Kept b) :
    ReflTransGen Step s (s.withNet ((net.withBuf p b).putq .rcvdq p)) := by
  have h1 := alloc_run h
  have h2 := Step.use (s := (s.withNet net).withRefs p (⟨.owned, len, true⟩ ::ₘ s.refs p)) (Function.update_self _ _ _)
    rfl hb
  have h3 := Step.loop (s := (s.withNet (net.withBuf p b)).withRefs p (⟨.owned, len, true⟩ ::ₘ s.refs p))
    (Function.update_self _ _ _) rfl rfl
  have hback : (s.withNet ((net.withBuf p b).putq .rcvdq p)) =
      ((s.withNet ((net.withBuf p b).putq .rcvdq p)).withRefs p (⟨.owned, len, true⟩ ::ₘ s.refs p)).withRefs p
        (s.refs p) := by
    rw [withRefs_withRefs]
    exact (withRefs_self rfl).symm
  rw [hback]
  exact (h1.tail h2).tail h3

end

/-! ## What holds of a packet -/

/-- Of its bytes. -/
structure Netbuf.Intact (b : Netbuf) : Prop where
  home : ∃ k, Net.home b = some k
  marked : Net.Marked b

/-- In the hands of tasks, or (`w = 1`) in `rcvdq`: `inuse` counts both, and the references that a
refused `pk_free` has lost. -/
structure Held (b : Netbuf) (w : Nat) (rs : Multiset Ref) (lost : Nat) : Prop where
  room : ∀ r ∈ rs, r.len ≤ b.nbBlen
  /-- At either end of its life it is in one pair of hands. -/
  count : (∃ r, rs = {r} ∧ (r.stage = .taken ∨ r.stage = .dropped) ∧ b.inuse.toNat = 0 ∧ w = 0 ∧ lost = 0) ∨
    (∀ r ∈ rs, r.stage ≠ .taken ∧ r.stage ≠ .dropped) ∧ b.inuse.toNat = rs.card + w + lost ∧
      1 ≤ b.inuse.toNat ∧ b.inuse.toNat ≤ 2
  /-- At most one will go into `rcvdq`, or is there. -/
  sender : rs.countP (·.sends = true) + w ≤ 1

/-- One packet in the books: the queues hold `l`, and `lost` of its references are gone. -/
structure At (pool : Finset α) (net : Net α) (refs : α → Multiset Ref) (l : Name → List α) (lost : α → Nat) (p : α) :
    Prop where
  known : p ∉ pool → (∀ k, p ∉ l k) ∧ refs p = 0 ∧ lost p = 0
  intact : p ∈ pool → (net.bufs p).Intact
  loose : p ∈ pool → (∀ k, p ∉ l k) → net.links p = none
  free : ∀ k ≠ Name.rcvdq, p ∈ l k →
    Net.home (net.bufs p) = some k ∧ (net.bufs p).inuse.toNat = 0 ∧ refs p = 0 ∧ lost p = 0
  held : p ∈ pool → (∀ k ≠ Name.rcvdq, p ∉ l k) →
    Held (net.bufs p) (if p ∈ l .rcvdq then 1 else 0) (refs p) (lost p)

structure Ledger (pool : Finset α) (net : Net α) (refs : α → Multiset Ref) (l : Name → List α) (lost : α → Nat) :
    Prop where
  holds : net.Holds l
  each : ∀ p, At pool net refs l lost p

section
variable {pool : Finset α} {net net' : Net α} {refs refs' : α → Multiset Ref} {l l' : Name → List α}
  {lost lost' : α → Nat} {p q : α} {k : Name} {b : Netbuf} {rs : Multiset Ref} {n : Nat}

/-- What is not touched. -/
theorem At.congr (h : At pool net refs l lost q) (hbuf : net'.bufs q = net.bufs q)
    (hlinks : (∀ k, q ∉ l k) → net'.links q = net.links q) (hmem : ∀ k, q ∈ l' k ↔ q ∈ l k) (hrefs : refs' q = refs q)
    (hlost : lost' q = lost q) : At pool net' refs' l' lost' q where
  known := by simpa only [hmem, hrefs, hlost] using h.known
  intact := by simpa only [hbuf] using h.intact
  loose hq hnot := by
    simp only [hmem] at hnot
    rw [hlinks hnot]
    exact h.loose hq hnot
  free := by simpa only [hmem, hbuf, hrefs, hlost] using h.free
  held := by simpa only [hmem, hbuf, hrefs, hlost] using h.held

/-- A packet in somebody's hands. -/
theorem Ledger.of_refs (h : Ledger pool net refs l lost) (hp : refs p ≠ 0) :
    p ∈ pool ∧ (∀ k ≠ Name.rcvdq, p ∉ l k) ∧ (net.bufs p).Intact ∧
      Held (net.bufs p) (if p ∈ l .rcvdq then 1 else 0) (refs p) (lost p) := by
  have hpool : p ∈ pool := by
    by_contra hnot
    exact hp ((h.each p).known hnot).2.1
  have hfree : ∀ k ≠ Name.rcvdq, p ∉ l k := fun k hk hmem => hp ((h.each p).free k hk hmem).2.2.1
  exact ⟨hpool, hfree, (h.each p).intact hpool, (h.each p).held hpool hfree⟩

/-- **A packet in one's hands changes.** -/
theorem Ledger.change (h : Ledger pool net refs l lost) (hp : refs p ≠ 0) (hb : b.Intact)
    (hheld : Held b (if p ∈ l .rcvdq then 1 else 0) rs n) :
    Ledger pool (net.withBuf p b) (update refs p rs) l (update lost p n) where
  holds := h.holds
  each q := by
    obtain ⟨hpool, hfree, -, -⟩ := h.of_refs hp
    by_cases hq : q = p
    · subst hq
      refine ⟨fun hnot => absurd hpool hnot, fun _ => ?_, (h.each q).loose, fun k hk hmem => absurd hmem (hfree k hk),
        fun _ _ => ?_⟩
      · show (update net.bufs q b q).Intact
        rwa [Function.update_self]
      · show Held (update net.bufs q b q) _ _ _
        simpa only [Function.update_self] using hheld
    · exact (h.each q).congr (Function.update_of_ne hq _ _) (fun _ => rfl) (fun _ => Iff.rfl)
        (Function.update_of_ne hq _ _) (Function.update_of_ne hq _ _)

/-- **The first packet leaves a queue.** -/
theorem Ledger.get (h : Ledger pool net refs l lost) (hget : net.getq k = (some p, net'))
    (hheld : Held (net.bufs p) 0 rs n) :
    Ledger pool net' (update refs p rs) (update l k (l k).tail) (update lost p n) := by
  obtain ⟨r, hk⟩ := Net.getq_eq_some h.holds hget
  obtain ⟨q', hget', hholds⟩ := Net.getq_cons h.holds hk
  rw [hget] at hget'
  obtain rfl : net' = _ := (Prod.mk.inj hget').2
  have hmem : p ∈ l k := by simp [hk]
  have hnd : p ∉ r := by
    have := (h.holds.queue k).linked.nodup
    rw [hk] at this
    exact (List.nodup_cons.mp this).1
  have hgone : ∀ k', p ∉ update l k r k' := by
    intro k' hp
    by_cases hkk : k' = k
    · subst hkk
      rw [Function.update_self] at hp
      exact hnd hp
    · rw [Function.update_of_ne hkk] at hp
      exact h.holds.disjoint k' k hkk hp hmem
  have hpool : p ∈ pool := by
    by_contra hnot
    exact ((h.each p).known hnot).1 k hmem
  rw [hk, List.tail_cons]
  refine ⟨hholds, fun q => ?_⟩
  by_cases hq : q = p
  · subst hq
    refine ⟨fun hnot => absurd hpool hnot, (h.each q).intact, fun _ _ => Function.update_self _ _ _,
      fun k' _ hmem' => absurd hmem' (hgone k'), fun _ _ => ?_⟩
    rw [if_neg (hgone _)]
    simpa only [Function.update_self] using hheld
  · refine (h.each q).congr rfl (fun _ => Function.update_of_ne hq _ _) (fun k' => ?_) (Function.update_of_ne hq _ _)
      (Function.update_of_ne hq _ _)
    by_cases hkk : k' = k
    · subst hkk
      rw [Function.update_self, hk, List.mem_cons, or_iff_right hq]
    · rw [Function.update_of_ne hkk]

/-- **A packet is put into a queue.** -/
theorem Ledger.put (h : Ledger pool net refs l lost) (hp : refs p ≠ 0) (hnot : p ∉ l .rcvdq)
    (hfree : k ≠ .rcvdq → Net.home (net.bufs p) = some k ∧ (net.bufs p).inuse.toNat = 0 ∧ rs = 0 ∧ n = 0)
    (hheld : k = .rcvdq → Held (net.bufs p) 1 rs n) :
    Ledger pool (net.putq k p) (update refs p rs) (update l k (l k ++ [p])) (update lost p n) := by
  obtain ⟨hpool, hin, hintact, -⟩ := h.of_refs hp
  have hnone : ∀ k, p ∉ l k := by
    intro k'
    by_cases hk' : k' = .rcvdq
    · rwa [hk']
    · exact hin k' hk'
  have hmem : ∀ k', p ∈ update l k (l k ++ [p]) k' ↔ k' = k := by
    intro k'
    by_cases hkk : k' = k
    · subst hkk
      simp
    · rw [Function.update_of_ne hkk]
      exact iff_of_false (hnone k') hkk
  refine ⟨Net.putq_holds h.holds hnone, fun q => ?_⟩
  by_cases hq : q = p
  · subst hq
    refine ⟨fun hn => absurd hpool hn, fun _ => hintact, fun _ hn => absurd ((hmem k).mpr rfl) (hn k),
      fun k' hk' hm => ?_, fun _ hn => ?_⟩
    · obtain rfl := (hmem k').mp hm
      rw [Function.update_self, Function.update_self]
      exact hfree hk'
    · have hk : k = .rcvdq := by
        by_contra hk
        exact hn k hk ((hmem k).mpr rfl)
      rw [if_pos ((hmem _).mpr hk.symm), Function.update_self, Function.update_self]
      exact hheld hk
  · refine (h.each q).congr rfl (fun hn => Net.putq_links h.holds hq (hn k)) (fun k' => ?_) (Function.update_of_ne hq _ _)
      (Function.update_of_ne hq _ _)
    by_cases hkk : k' = k
    · subst hkk
      rw [Function.update_self, List.mem_append, List.mem_singleton, or_iff_left hq]
    · rw [Function.update_of_ne hkk]

end

section
variable {b b' : Netbuf} {w n : Nat} {r : Ref} {rs : Multiset Ref}

/-- In the middle of its life. -/
abbrev Ref.Settled (r : Ref) : Prop := r.stage ≠ .taken ∧ r.stage ≠ .dropped

theorem Held.of_settled (h : Held b w (r ::ₘ rs) n) (hr : r.Settled) :
    (∀ r' ∈ r ::ₘ rs, r'.Settled) ∧ b.inuse.toNat = rs.card + 1 + w + n ∧ b.inuse.toNat ≤ 2 := by
  rcases h.count with ⟨r', hrs, hstage, -⟩ | ⟨hall, hcount, -, hle⟩
  · have hmem : r ∈ ({r'} : Multiset Ref) := hrs ▸ Multiset.mem_cons_self r rs
    rw [Multiset.mem_singleton] at hmem
    rw [← hmem] at hstage
    rcases hstage with hstage | hstage
    · exact absurd hstage hr.1
    · exact absurd hstage hr.2
  · rw [Multiset.card_cons] at hcount
    exact ⟨hall, hcount, hle⟩

theorem Held.of_bare (h : Held b w (r ::ₘ rs) n) (hr : r.stage = .taken ∨ r.stage = .dropped) :
    rs = 0 ∧ b.inuse.toNat = 0 ∧ w = 0 ∧ n = 0 := by
  rcases h.count with ⟨r', hrs, -, hb, hw, hn⟩ | ⟨hall, -⟩
  · have hcard := congrArg Multiset.card hrs
    rw [Multiset.card_cons, Multiset.card_singleton] at hcard
    exact ⟨Multiset.card_eq_zero.mp (by omega), hb, hw, hn⟩
  · have hself := hall r (Multiset.mem_cons_self r rs)
    rcases hr with hr | hr
    · exact absurd hr hself.1
    · exact absurd hr hself.2

/-- Behind `getq` in `pk_alloc`. -/
theorem held_taken {len : Nat} (hlen : len ≤ b.nbBlen) (hb : b.inuse.toNat = 0) :
    Held b 0 {⟨.taken, len, true⟩} 0 where
  room := by simpa
  count := .inl ⟨_, rfl, .inl rfl, hb, rfl, rfl⟩
  sender := by
    rw [Nat.add_zero]
    exact (Multiset.countP_le_card _ _).trans (Multiset.card_singleton _).le

theorem Held.prepare (h : Held b w (r ::ₘ rs) n) (hr : r.stage = .taken) (hlen : b'.nbBlen = b.nbBlen)
    (hb' : b'.inuse = 1) : Held b' w ({ r with stage := .owned } ::ₘ rs) n where
  room := by
    have := h.room
    simp only [Multiset.mem_cons, forall_eq_or_imp, hlen] at this ⊢
    exact this
  count := by
    obtain ⟨rfl, -, rfl, rfl⟩ := h.of_bare (.inl hr)
    have h1 : b'.inuse.toNat = 1 := by rw [hb']; rfl
    exact .inr ⟨by simp, by simp [h1], h1.ge, by omega⟩
  sender := by simpa only [Multiset.countP_cons] using h.sender

/-- Another buffer, as far as anyone counts. -/
theorem Held.use (h : Held b w rs n) (hb : b.Kept b') : Held b' w rs n where
  room := by simpa only [hb.nbBlen] using h.room
  count := by simpa only [hb.inuse] using h.count
  sender := h.sender

theorem Held.clone (h : Held b w (r ::ₘ rs) n) (hr : r.stage = .owned) (hb : b.inuse = 1) :
    Held { b with inuse := b.inuse + 1 } w ({ r with sends := false } ::ₘ { r with sends := true } ::ₘ rs) n := by
  obtain ⟨hall, hcount, -⟩ := h.of_settled (by simp [Ref.Settled, hr])
  have h1 : b.inuse.toNat = 1 := by rw [hb]; rfl
  have h2 : (b.inuse + 1).toNat = 2 := by rw [hb]; rfl
  obtain rfl : rs = 0 := Multiset.card_eq_zero.mp (by omega)
  obtain rfl : w = 0 := by omega
  obtain rfl : n = 0 := by omega
  refine ⟨?_, .inr ⟨by simp [hr], ?_, ?_, ?_⟩, by simp [-Multiset.cons_zero]⟩
  · have := h.room r (Multiset.mem_cons_self r 0)
    simpa
  · show (b.inuse + 1).toNat = 2
    exact h2
  · show 1 ≤ (b.inuse + 1).toNat
    omega
  · show (b.inuse + 1).toNat ≤ 2
    omega

/-- Out of `rcvdq`. -/
theorem Held.demux (h : Held b 1 rs n) : Held b 0 (⟨.owned, 0, true⟩ ::ₘ rs) n := by
  have hroom := h.room
  have hsend := h.sender
  rcases h.count with ⟨r, -, -, -, hw, -⟩ | ⟨hall, hcount, hge, hle⟩
  · cases hw
  · refine ⟨?_, .inr ⟨?_, ?_, hge, hle⟩, ?_⟩
    · simpa only [Multiset.mem_cons, forall_eq_or_imp, Nat.zero_le, true_and]
    · simpa
    · rw [Multiset.card_cons]
      omega
    · rw [Multiset.countP_cons, if_pos rfl]
      omega

/-- A check passed. -/
theorem Held.pass (h : Held b w (r ::ₘ rs) n) (hr : r.Settled) {st : Stage} (hst : st ≠ .taken ∧ st ≠ .dropped) :
    Held b w ({ r with stage := st } ::ₘ rs) n := by
  obtain ⟨hall, hcount, hle⟩ := h.of_settled hr
  have hroom := h.room
  simp only [Multiset.mem_cons, forall_eq_or_imp] at hall hroom
  refine ⟨?_, .inr ⟨?_, ?_, ?_, hle⟩, by simpa only [Multiset.countP_cons] using h.sender⟩
  · simpa only [Multiset.mem_cons, forall_eq_or_imp] using hroom
  · simpa only [Multiset.mem_cons, forall_eq_or_imp] using ⟨hst, hall.2⟩
  · rwa [Multiset.card_cons]
  · omega

/-- Somebody has let go, into `rcvdq` or for good, or a reference is lost. -/
theorem Held.leave (h : Held b w (r ::ₘ rs) n) (hr : r.Settled) {w' n' : Nat} (hw : w' + n' = w + n + 1)
    (hsend : rs.countP (·.sends = true) + w' ≤ 1) : Held b w' rs n' := by
  obtain ⟨hall, hcount, hle⟩ := h.of_settled hr
  have hroom := h.room
  simp only [Multiset.mem_cons, forall_eq_or_imp] at hall hroom
  exact ⟨hroom.2, .inr ⟨hall.2, by omega, by omega, hle⟩, hsend⟩

/-- The one of two. -/
theorem Held.share (h : Held b w (r ::ₘ rs) n) (hr : r.Settled) (hb : 1 < b.inuse.toNat) :
    Held { b with inuse := b.inuse - 1 } w rs n := by
  obtain ⟨hall, hcount, hle⟩ := h.of_settled hr
  have hroom := h.room
  have hsend := h.sender
  simp only [Multiset.mem_cons, forall_eq_or_imp] at hall hroom
  rw [Multiset.countP_cons] at hsend
  have hsub : (b.inuse - 1).toNat = b.inuse.toNat - 1 := BitVec.toNat_sub_of_le (by simp [BitVec.le_def]; omega)
  refine ⟨hroom.2, .inr ⟨hall.2, ?_, ?_, ?_⟩, by omega⟩
  · show (b.inuse - 1).toNat = _
    omega
  · show 1 ≤ (b.inuse - 1).toNat
    omega
  · show (b.inuse - 1).toNat ≤ 2
    omega

/-- The last one. -/
theorem Held.drop (h : Held b w (r ::ₘ rs) n) (hr : r.Settled) (hb : ¬ 1 < b.inuse.toNat) :
    Held { b with inuse := b.inuse - 1 } w ({ r with stage := .dropped } ::ₘ rs) n := by
  obtain ⟨hall, hcount, hle⟩ := h.of_settled hr
  have hroom := h.room r (Multiset.mem_cons_self r rs)
  have hsend := h.sender
  obtain rfl : rs = 0 := Multiset.card_eq_zero.mp (by omega)
  obtain rfl : w = 0 := by omega
  obtain rfl : n = 0 := by omega
  have hsub : (b.inuse - 1).toNat = b.inuse.toNat - 1 := BitVec.toNat_sub_of_le (by simp [BitVec.le_def]; omega)
  refine ⟨by simpa using hroom, .inl ⟨_, rfl, .inr rfl, ?_, rfl, rfl⟩, by simpa only [Multiset.countP_cons] using hsend⟩
  show (b.inuse - 1).toNat = 0
  omega

end

/-! ## What holds of the system -/

structure System.Sound (pool : Finset α) (s : System α) (l : Name → List α) (lost : α → Nat) : Prop where
  ledger : Ledger pool s.net s.refs l lost
  asked : ∀ a ∈ s.asked, a.2 ≠ .rcvdq ∧ a.1 ≤ a.2.size
  demux : s.demux = true → l .rcvdq ≠ []
  calm : s.panicked = false
  /-- `pk_free` refuses what is linked, and nothing else. -/
  stats : ∀ e ≠ Memerr.inconsistentLocation, s.net.memestats e = 0
  lost : s.net.memestats .inconsistentLocation = BitVec.ofNat 32 (∑ p ∈ pool, lost p)

section
variable {pool : Finset α} {s s' : System α} {l : Name → List α} {lost : α → Nat} {p : α} {r : Ref} {rs : Multiset Ref}

omit [DecidableEq α] in
theorem chooseq_fits {net : Net α} {len : Nat} {k : Name} (h : net.chooseq len = some k) :
    k ≠ .rcvdq ∧ len ≤ k.size := by
  unfold Net.chooseq at h
  split at h
  · cases h
  · next hlen =>
    split at h
    · cases h
      exact ⟨by decide, by show len ≤ bigbufsiz; omega⟩
    · next hlil =>
      cases h
      exact ⟨by decide, by show len ≤ lilbufsiz; omega⟩

omit [DecidableEq α] in
theorem home_size {b : Netbuf} {k : Name} (h : Net.home b = some k) : b.nbBlen = k.size := by
  cases k with
  | bigfreeq => exact Net.home_eq_big.mp h
  | lilfreeq => exact Net.home_eq_lil.mp h
  | rcvdq => exact absurd h (Net.home_ne_rcvdq b)

theorem Netbuf.Intact.use {b b' : Netbuf} (h : b.Intact) (hb : b.Kept b') : b'.Intact where
  home := by
    obtain ⟨k, hk⟩ := h.home
    refine ⟨k, ?_⟩
    unfold Net.home at hk ⊢
    rwa [hb.nbBlen]
  marked := by
    refine ⟨fun j hj => ?_, ?_⟩
    · rw [hb.markers j (.inl hj)]
      exact h.marked.1 j hj
    · rw [hb.nbBlen, hb.markers _ (.inr rfl)]
      exact h.marked.2

/-- A buffer with other fields. -/
theorem Netbuf.Intact.congr {b b' : Netbuf} (h : b.Intact) (hlen : b'.nbBlen = b.nbBlen) (harea : b'.area = b.area) :
    b'.Intact :=
  -- its use count is of no interest
  ⟨by obtain ⟨k, hk⟩ := h.home; exact ⟨k, by unfold Net.home at hk ⊢; rwa [hlen]⟩, by
    unfold Net.Marked
    rw [hlen, harea]
    exact h.marked⟩

/-- The first packet of a free queue. -/
theorem Ledger.of_free {net net' : Net α} {refs : α → Multiset Ref} {k : Name} (h : Ledger pool net refs l lost)
    (hk : k ≠ .rcvdq) (hget : net.getq k = (some p, net')) :
    Net.home (net.bufs p) = some k ∧ (net.bufs p).inuse.toNat = 0 ∧ refs p = 0 ∧ lost p = 0 := by
  obtain ⟨r, hl⟩ := Net.getq_eq_some h.holds hget
  exact (h.each p).free k hk (by simp [hl])

/-- **Only a packet that waits in `rcvdq` is found at fault.** -/
theorem Ledger.fault {net : Net α} {refs : α → Multiset Ref} {fuel : Nat} {st st' : Stage} {e : Memerr}
    (h : Ledger pool net refs l lost) (hp : refs p ≠ 0) (hcheck : net.check fuel p st = some (st', some e)) :
    e = .inconsistentLocation ∧ st = .owned ∧ p ∈ l .rcvdq := by
  obtain ⟨hpool, hfree, hb, -⟩ := h.of_refs hp
  cases st with
  | owned =>
    have hlink : net.checkLink p = some e := (Prod.mk.inj (Option.some_inj.mp hcheck)).2
    unfold Net.checkLink at hlink
    split at hlink
    · next hne =>
      refine ⟨(Option.some_inj.mp hlink).symm, rfl, ?_⟩
      by_contra hnot
      refine hne.1 ((h.each p).loose hpool fun k => ?_)
      by_cases hk : k = .rcvdq
      · rwa [hk]
      · exact hfree k hk
    · cases hlink
  | linked =>
    obtain ⟨e', hrun, he⟩ := Option.map_eq_some_iff.mp hcheck
    obtain rfl : e' = some e := (Prod.mk.inj he).2
    have hsearch := Net.checkFreeq_eq_some h.holds hrun
    obtain ⟨k, hk⟩ := hb.home
    have hnot : p ∉ l k := hfree k fun hk' => Net.home_ne_rcvdq _ (hk' ▸ hk)
    simp only [Net.searched, hk, if_neg hnot] at hsearch
    cases hsearch
  | searched =>
    have hmark : net.checkMarkers p = some e := (Prod.mk.inj (Option.some_inj.mp hcheck)).2
    unfold Net.checkMarkers at hmark
    rw [if_pos hb.marked] at hmark
    cases hmark
  | taken => cases hcheck
  | valid => cases hcheck
  | dropped => cases hcheck

theorem check_settled {net : Net α} {fuel : Nat} {st st' : Stage} {e : Option Memerr}
    (h : net.check fuel p st = some (st', e)) : (st ≠ .taken ∧ st ≠ .dropped) ∧ st' ≠ .taken ∧ st' ≠ .dropped := by
  cases st with
  | owned =>
    cases h
    decide
  | linked =>
    obtain ⟨e', -, he⟩ := Option.map_eq_some_iff.mp h
    cases he
    decide
  | searched =>
    cases h
    decide
  | taken => cases h
  | valid => cases h
  | dropped => cases h

theorem withBuf_self (net : Net α) (p : α) : net.withBuf p (net.bufs p) = net := by
  unfold Net.withBuf
  rw [Function.update_eq_self]

namespace System.Sound

/-- A packet in one's hands changes, and nothing is lost. -/
theorem change (hs : s.Sound pool l lost) (hp : s.refs p ≠ 0) {b : Netbuf} (hb : b.Intact)
    (hheld : Held b (if p ∈ l .rcvdq then 1 else 0) rs (lost p)) :
    ((s.withNet (s.net.withBuf p b)).withRefs p rs).Sound pool l lost where
  ledger := by
    have := hs.ledger.change hp hb hheld
    rwa [Function.update_eq_self] at this
  asked := hs.asked
  demux := hs.demux
  calm := hs.calm
  stats := hs.stats
  lost := hs.lost

/-- A free queue gives a packet. -/
theorem get (hs : s.Sound pool l lost) {k : Name} {net : Net α} (hk : k ≠ .rcvdq)
    (hget : s.net.getq k = (some p, net)) {len : Nat} (hlen : len ≤ k.size) :
    ((s.withNet net).withRefs p {⟨.taken, len, true⟩}).Sound pool (update l k (l k).tail) lost where
  ledger := by
    obtain ⟨hhome, huse, -, hlost⟩ := hs.ledger.of_free hk hget
    have hheld : Held (s.net.bufs p) 0 {⟨.taken, len, true⟩} 0 := held_taken (by rwa [home_size hhome]) huse
    have := hs.ledger.get hget hheld
    rwa [← hlost, Function.update_eq_self] at this
  asked := hs.asked
  demux hd := by
    rw [Function.update_of_ne hk.symm]
    exact hs.demux hd
  calm := hs.calm
  stats := by
    show ∀ e ≠ Memerr.inconsistentLocation, net.memestats e = 0
    rw [(Net.getq_rest hget).2]
    exact hs.stats
  lost := by
    show net.memestats _ = _
    rw [(Net.getq_rest hget).2]
    exact hs.lost

/-- A packet is put into `rcvdq`. -/
theorem receive (hs : s.Sound pool l lost) (hp : s.refs p ≠ 0) (hnot : p ∉ l .rcvdq)
    (hheld : Held (s.net.bufs p) 1 rs (lost p)) :
    ((s.withNet (s.net.putq .rcvdq p)).withRefs p rs).Sound pool (update l .rcvdq (l .rcvdq ++ [p])) lost where
  ledger := by
    have := hs.ledger.put (k := .rcvdq) hp hnot (fun h => absurd rfl h) fun _ => hheld
    rwa [Function.update_eq_self] at this
  asked := hs.asked
  demux _ := by simp
  calm := hs.calm
  stats := hs.stats
  lost := hs.lost

theorem choose (hs : s.Sound pool l lost) {len : Nat} {k : Name} (h : s.net.chooseq len = some k) :
    ({ s with asked := (len, k) ::ₘ s.asked } : System α).Sound pool l lost := by
  refine ⟨hs.ledger, fun a ha => ?_, hs.demux, hs.calm, hs.stats, hs.lost⟩
  rcases Multiset.mem_cons.mp ha with rfl | ha
  · exact chooseq_fits h
  · exact hs.asked a ha

section
variable {len : Nat} {k : Name} {asked : Multiset (Nat × Name)} {net : Net α}

theorem take (hs : s.Sound pool l lost) (ha : s.asked = (len, k) ::ₘ asked) (h : s.net.getq k = (some p, net)) :
    k ≠ .rcvdq ∧ ({ s with net, asked }.withRefs p (⟨.taken, len, true⟩ ::ₘ s.refs p)).Sound pool
      (update l k (l k).tail) lost := by
  have hmem : (len, k) ∈ s.asked := ha ▸ Multiset.mem_cons_self _ _
  obtain ⟨hk, hlen⟩ := hs.asked _ hmem
  obtain ⟨-, -, h0, -⟩ := hs.ledger.of_free hk h
  have hget := hs.get hk h hlen
  rw [h0]
  refine ⟨hk, hget.ledger, fun a h => hs.asked a ?_, hget.demux, hget.calm, hget.stats, hget.lost⟩
  rw [ha]
  exact Multiset.mem_cons_of_mem h

theorem refuse (hs : s.Sound pool l lost) (ha : s.asked = (len, k) ::ₘ asked) (h : s.net.getq k = (none, net)) :
    ({ s with net, asked } : System α).Sound pool l lost := by
  obtain ⟨-, rfl⟩ := Net.getq_eq_none hs.ledger.holds h
  refine ⟨hs.ledger, fun a h => hs.asked a ?_, hs.demux, hs.calm, hs.stats, hs.lost⟩
  rw [ha]
  exact Multiset.mem_cons_of_mem h

end

omit [DecidableEq α] in
theorem refs_ne_zero (hr : s.refs p = r ::ₘ rs) : s.refs p ≠ 0 := by simp [hr]

theorem prepare (hs : s.Sound pool l lost) (hr : s.refs p = r ::ₘ rs) (h : r.stage = .taken) :
    ((s.withNet (s.net.prepare p)).withRefs p ({ r with stage := .owned } ::ₘ rs)).Sound pool l lost := by
  obtain ⟨-, -, hb, hheld⟩ := hs.ledger.of_refs (refs_ne_zero hr)
  rw [hr] at hheld
  exact hs.change (refs_ne_zero hr) (hb.congr rfl rfl) (hheld.prepare h rfl rfl)

theorem use (hs : s.Sound pool l lost) (hr : s.refs p = r ::ₘ rs) {b : Netbuf} (hb : (s.net.bufs p).Kept b) :
    (s.withNet (s.net.withBuf p b)).Sound pool l lost := by
  obtain ⟨-, -, hb', hheld⟩ := hs.ledger.of_refs (refs_ne_zero hr)
  have hchange := hs.change (refs_ne_zero hr) (hb'.use hb) (hheld.use hb)
  rwa [System.withRefs, System.withNet, Function.update_eq_self] at hchange

theorem clone (hs : s.Sound pool l lost) (hr : s.refs p = r ::ₘ rs) (h : r.stage = .owned)
    (hb : (s.net.bufs p).inuse = 1) :
    ((s.withNet (s.net.withBuf p { s.net.bufs p with inuse := (s.net.bufs p).inuse + 1 })).withRefs p
      ({ r with sends := false } ::ₘ { r with sends := true } ::ₘ rs)).Sound pool l lost := by
  obtain ⟨-, -, hb', hheld⟩ := hs.ledger.of_refs (refs_ne_zero hr)
  rw [hr] at hheld
  exact hs.change (refs_ne_zero hr) (hb'.congr rfl rfl) (hheld.clone h hb)

theorem loop (hs : s.Sound pool l lost) (hr : s.refs p = r ::ₘ rs) (h : r.stage = .owned) (hsend : r.sends = true) :
    ((s.withNet (s.net.putq .rcvdq p)).withRefs p rs).Sound pool (update l .rcvdq (l .rcvdq ++ [p])) lost := by
  obtain ⟨-, -, -, hheld⟩ := hs.ledger.of_refs (refs_ne_zero hr)
  rw [hr] at hheld
  have hone := hheld.sender
  rw [Multiset.countP_cons, if_pos hsend] at hone
  have hnot : p ∉ l .rcvdq := fun hin => by
    rw [if_pos hin] at hone
    omega
  rw [if_neg hnot] at hheld hone
  exact hs.receive (refs_ne_zero hr) hnot (hheld.leave (by simp [Ref.Settled, h]) (by omega) (by omega))

section
variable {fuel : Nat} {st : Stage}

theorem pass (hs : s.Sound pool l lost) (hr : s.refs p = r ::ₘ rs) (h : s.net.check fuel p r.stage = some (st, none)) :
    (s.withRefs p ({ r with stage := st } ::ₘ rs)).Sound pool l lost := by
  obtain ⟨-, -, hb, hheld⟩ := hs.ledger.of_refs (refs_ne_zero hr)
  rw [hr] at hheld
  obtain ⟨hset, hst⟩ := check_settled h
  have hchange := hs.change (refs_ne_zero hr) hb (hheld.pass hset hst)
  rwa [withBuf_self] at hchange

/-- One more reference is lost. -/
theorem fault (hs : s.Sound pool l lost) (hr : s.refs p = r ::ₘ rs) {e : Memerr}
    (h : s.net.check fuel p r.stage = some (st, some e)) :
    ((s.withNet (s.net.incrSharedVar e)).withRefs p rs).Sound pool l (update lost p (lost p + 1)) := by
  obtain ⟨rfl, hstage, hin⟩ := hs.ledger.fault (refs_ne_zero hr) h
  obtain ⟨hpool, -, hb, hheld⟩ := hs.ledger.of_refs (refs_ne_zero hr)
  rw [hr] at hheld
  have hone := hheld.sender
  rw [Multiset.countP_cons] at hone
  have hleave : Held (s.net.bufs p) (if p ∈ l .rcvdq then 1 else 0) rs (lost p + 1) :=
    hheld.leave (check_settled h).1 (by omega) (by omega)
  have hledger := hs.ledger.change (refs_ne_zero hr) hb hleave
  rw [withBuf_self] at hledger
  have hsum : ∑ q ∈ pool, update lost p (lost p + 1) q = ∑ q ∈ pool, lost q + 1 := by
    rw [Finset.sum_update_of_mem hpool, ← Finset.add_sum_erase _ _ hpool, Finset.sdiff_singleton_eq_erase]
    omega
  refine ⟨⟨hledger.holds, fun q => (hledger.each q).congr rfl (fun _ => rfl) (fun _ => Iff.rfl) rfl rfl⟩, hs.asked,
    hs.demux, hs.calm, fun e he => ?_, ?_⟩
  · show update s.net.memestats .inconsistentLocation (s.net.memestats .inconsistentLocation + 1) e = 0
    rw [Function.update_of_ne he]
    exact hs.stats e he
  · show update s.net.memestats .inconsistentLocation (s.net.memestats .inconsistentLocation + 1)
      .inconsistentLocation = _
    rw [Function.update_self, hs.lost, hsum, BitVec.ofNat_add]
    rfl

end

section
variable {net : Net α}

theorem share (hs : s.Sound pool l lost) (hr : s.refs p = r ::ₘ rs) (h : r.stage = .valid)
    (hrel : s.net.release p = (true, net)) : ((s.withNet net).withRefs p rs).Sound pool l lost := by
  obtain ⟨-, -, hb, hheld⟩ := hs.ledger.of_refs (refs_ne_zero hr)
  rw [hr] at hheld
  obtain ⟨huse, rfl⟩ := Prod.mk.inj hrel
  exact hs.change (refs_ne_zero hr) (hb.congr rfl rfl) (hheld.share (by simp [Ref.Settled, h]) (of_decide_eq_true huse))

theorem drop (hs : s.Sound pool l lost) (hr : s.refs p = r ::ₘ rs) (h : r.stage = .valid)
    (hrel : s.net.release p = (false, net)) :
    ((s.withNet net).withRefs p ({ r with stage := .dropped } ::ₘ rs)).Sound pool l lost := by
  obtain ⟨-, -, hb, hheld⟩ := hs.ledger.of_refs (refs_ne_zero hr)
  rw [hr] at hheld
  obtain ⟨huse, rfl⟩ := Prod.mk.inj hrel
  exact hs.change (refs_ne_zero hr) (hb.congr rfl rfl) (hheld.drop (by simp [Ref.Settled, h]) (of_decide_eq_false huse))

end

/-- A packet goes home. -/
theorem giveBack (hs : s.Sound pool l lost) (hr : s.refs p = r ::ₘ rs) (h : r.stage = .dropped) :
    ∃ l', l' .rcvdq = l .rcvdq ∧ ((s.withNet (s.net.giveBack p)).withRefs p rs).Sound pool l' lost := by
  have hp : s.refs p ≠ 0 := refs_ne_zero hr
  obtain ⟨-, -, hb, hheld⟩ := hs.ledger.of_refs hp
  rw [hr] at hheld
  obtain ⟨rfl, huse, hw, hlost⟩ := hheld.of_bare (.inr h)
  obtain ⟨k, hk⟩ := hb.home
  have hkr : k ≠ .rcvdq := fun hk' => Net.home_ne_rcvdq _ (hk' ▸ hk)
  have hnot : p ∉ l .rcvdq := fun hin => by
    rw [if_pos hin] at hw
    cases hw
  rw [Net.giveBack_eq hk]
  have hledger := hs.ledger.put (n := lost p) hp hnot (fun _ => ⟨hk, huse, rfl, hlost⟩) fun hk' => absurd hk' hkr
  rw [Function.update_eq_self] at hledger
  have hsame : update l k (l k ++ [p]) .rcvdq = l .rcvdq := Function.update_of_ne hkr.symm _ _
  refine ⟨_, hsame, hledger, hs.asked, fun hd => ?_, hs.calm, hs.stats, hs.lost⟩
  rw [hsame]
  exact hs.demux hd

theorem look (hs : s.Sound pool l lost) (h : (s.net.queue .rcvdq).qLen ≠ 0) :
    ({ s with demux := true } : System α).Sound pool l lost :=
  ⟨hs.ledger, hs.asked, fun _ hnil => h ((Net.qLen_eq_zero hs.ledger.holds).mpr hnil), hs.calm, hs.stats, hs.lost⟩

/-- The first packet of `rcvdq`. -/
theorem deq (hs : s.Sound pool l lost) {net : Net α} (hget : s.net.getq .rcvdq = (some p, net)) :
    ({ s with net, demux := false }.withRefs p (⟨.owned, 0, true⟩ ::ₘ s.refs p)).Sound pool
      (update l .rcvdq (l .rcvdq).tail) lost where
  ledger := by
    obtain ⟨r, hl⟩ := Net.getq_eq_some hs.ledger.holds hget
    have hmem : p ∈ l .rcvdq := by simp [hl]
    have hpool : p ∈ pool := by
      by_contra hnot
      exact ((hs.ledger.each p).known hnot).1 _ hmem
    have hheld := (hs.ledger.each p).held hpool fun k hk hin => hs.ledger.holds.disjoint k _ hk hin hmem
    rw [if_pos hmem] at hheld
    have := hs.ledger.get hget hheld.demux
    rwa [Function.update_eq_self] at this
  asked := hs.asked
  demux hd := absurd hd Bool.false_ne_true
  calm := hs.calm
  stats := by
    show ∀ e ≠ Memerr.inconsistentLocation, net.memestats e = 0
    rw [(Net.getq_rest hget).2]
    exact hs.stats
  lost := by
    show net.memestats _ = _
    rw [(Net.getq_rest hget).2]
    exact hs.lost

/-- Nobody touches the markers. -/
theorem not_corrupt (hs : s.Sound pool l lost) {net : Net α} (hget : s.net.getq .rcvdq = (some p, net)) :
    ¬ (net.bufs p).Corrupt := by
  obtain ⟨r, hl⟩ := Net.getq_eq_some hs.ledger.holds hget
  have hpool : p ∈ pool := by
    by_contra hnot
    exact ((hs.ledger.each p).known hnot).1 .rcvdq (by simp [hl])
  have hmarked := ((hs.ledger.each p).intact hpool).marked
  rw [(Net.getq_rest hget).1]
  rintro (hb | hb)
  · exact hb (hmarked.1 0 (by decide))
  · exact hb hmarked.2

end System.Sound

/-- **A step**; what is lost stays lost. -/
theorem Step.sound (h : Step s s') (hs : s.Sound pool l lost) :
    ∃ l' lost', s'.Sound pool l' lost' ∧ ∀ p, lost p ≤ lost' p := by
  have hsame : ∀ p, lost p ≤ lost p := fun _ => le_rfl
  cases h with
  | choose h => exact ⟨_, _, hs.choose h, hsame⟩
  | take ha h => exact ⟨_, _, (hs.take ha h).2, hsame⟩
  | refuse ha h => exact ⟨_, _, hs.refuse ha h, hsame⟩
  | prepare hr h => exact ⟨_, _, hs.prepare hr h, hsame⟩
  | use hr h hb => exact ⟨_, _, hs.use hr hb, hsame⟩
  | clone hr h hb => exact ⟨_, _, hs.clone hr h hb, hsame⟩
  | loop hr h hsend => exact ⟨_, _, hs.loop hr h hsend, hsame⟩
  | pass hr h => exact ⟨_, _, hs.pass hr h, hsame⟩
  | @fault p fuel r rs st e hr h =>
    refine ⟨_, _, hs.fault hr h, fun q => ?_⟩
    by_cases hq : q = p
    · subst hq
      rw [Function.update_self]
      omega
    · rw [Function.update_of_ne hq]
  | share hr h hrel => exact ⟨_, _, hs.share hr h hrel, hsame⟩
  | drop hr h hrel => exact ⟨_, _, hs.drop hr h hrel, hsame⟩
  | giveBack hr h =>
    obtain ⟨l', -, hback⟩ := hs.giveBack hr h
    exact ⟨l', _, hback, hsame⟩
  | look hd h => exact ⟨_, _, hs.look h, hsame⟩
  | demux hd h hb => exact ⟨_, _, hs.deq h, hsame⟩
  | demuxNull hd h =>
    -- what `pktdemux` saw is still there
    exact absurd (Net.getq_eq_none hs.ledger.holds h).1 (hs.demux hd)
  | demuxCorrupt hd h hb => exact absurd hb (hs.not_corrupt h)

theorem run_sound (h : Relation.ReflTransGen Step s s') (hs : s.Sound pool l lost) :
    ∃ l' lost', s'.Sound pool l' lost' ∧ ∀ p, lost p ≤ lost' p := by
  induction h with
  | refl => exact ⟨l, lost, hs, fun _ => le_rfl⟩
  | tail _ hstep ih =>
    obtain ⟨l1, lost1, h1, hle1⟩ := ih
    obtain ⟨l2, lost2, h2, hle2⟩ := hstep.sound h1
    exact ⟨l2, lost2, h2, fun p => (hle1 p).trans (hle2 p)⟩

end

end

end FpgaQuat.Iniche
