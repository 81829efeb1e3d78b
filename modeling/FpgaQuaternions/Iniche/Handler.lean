import FpgaQuaternions.Iniche.Conservation
import FpgaQuaternions.Lib.Interleaving

/-!
# The interrupt handler in the network stack

`dm9000a_isr` as its runs are known from the driver, with the stack as the machine that serves its
calls of `pk_alloc` and `putq`, and the bytes it stores going into the packet it was given.
Nothing comes between the calls; before and after, the tasks do what they do.

    from_pool             whenever it asks, `pk_alloc` answers as the pool does, and leaves what it leaves
    isr_reachable         a whole run of it leads from a reachable state to one, with nothing left in its hands
    isr_stores_in_packet  no byte is stored outside the packet that it was given
-/

namespace FpgaQuat.Iniche

open Effects Interleaving
open Function (update)
open Nic (Call Io)

variable {α : Type} [DecidableEq α]

/-- The handler stores a byte. -/
def Netbuf.store (b : Netbuf) (addr : Nat) (byte : UInt8) : Netbuf :=
  { b with area := update b.area (alignType + addr) byte }

/-- The fields that are set before `putq`. -/
def Netbuf.fill (b : Netbuf) (pkt : Nic.Packet) : Netbuf :=
  { b with nbProt := pkt.nbProt, nbPlen := pkt.nbPlen, nbTstamp := pkt.nbTstamp, net := some pkt.net, type := pkt.type }

/-- The stack while the handler runs. -/
structure Serving (α : Type) where
  system : System α
  /-- What the handler has in its hands, and the length it asked for. -/
  packet : Option (α × Nat)

namespace Serving

def alloc (v : Serving α) (len : Nat) : Serving α :=
  match v.system.net.pkAlloc len with
  | (some p, net) => ⟨(v.system.withNet net).withRefs p (⟨.owned, len, true⟩ ::ₘ v.system.refs p), some (p, len)⟩
  | (none, net) => ⟨v.system.withNet net, v.packet⟩

def store (v : Serving α) (addr : Nat) (byte : UInt8) : Serving α :=
  match v.packet with
  | some (p, _) =>
    { v with system := v.system.withNet (v.system.net.withBuf p ((v.system.net.bufs p).store addr byte)) }
  | none => v

def putq (v : Serving α) (pkt : Nic.Packet) : Serving α :=
  match v.packet with
  | some (p, len) =>
    let net := v.system.net.withBuf p ((v.system.net.bufs p).fill pkt)
    ⟨(v.system.withNet (net.putq .rcvdq p)).withRefs p ((v.system.refs p).erase ⟨.owned, len, true⟩), none⟩
  | none => v

/-- The stack answers `pk_alloc`; the rest may be answered in any way. -/
def machine : Machine Io (Serving α) Empty where
  allows v
    | ⟨.pkAlloc len, r⟩ => r = (v.system.net.pkAlloc len).1.map fun p => Net.block (v.system.net.bufs p)
    | _ => True
  after v
    | ⟨.pkAlloc len, _⟩ => v.alloc len
    | ⟨.store addr byte, _⟩ => v.store addr byte
    | ⟨.putq pkt, _⟩ => v.putq pkt
    | _ => v
  disturb _ f := f.elim

end Serving

section
variable {heap : Net.Heap α} {s s' : System α} {refs : α → Multiset Ref} {p : α} {len : Nat} {v : Serving α}

theorem Reachable.run (h : Reachable heap s) (hrun : Relation.ReflTransGen Step s s') : Reachable heap s' := by
  obtain ⟨net, hboot, h0, hfirst⟩ := h
  exact ⟨net, hboot, h0, hfirst.trans hrun⟩

/-- **The allocator is the pool that the driver sees**: it gives the block that the pool gives, and leaves what
the pool leaves. -/
theorem Reachable.from_pool (h : Reachable heap s) (len : Nat) :
    ∃ l l' hsort hsort', s.net.Holds l ∧ (s.net.pkAlloc len).2.Holds l' ∧
      (s.net.pool l hsort).pkAlloc len =
        ((s.net.pkAlloc len).1.map fun p => Net.block (s.net.bufs p), (s.net.pkAlloc len).2.pool l' hsort') := by
  obtain ⟨l, lost, hs⟩ := h.sound
  have hsort : s.net.Sorted l := fun k hk p hp => ((hs.ledger.each p).free k hk hp).1
  obtain ⟨l', hs', hsort', hpool⟩ := Net.pkAlloc_pool hs.ledger.holds hsort len
  exact ⟨l, l', hsort, hsort', hs.ledger.holds, hs', hpool⟩

theorem from_pool_start : ∃ l l' hsort hsort', (Net.pkInit plenty loaded).2.Holds l ∧
    ((Net.pkInit plenty loaded).2.pkAlloc 1000).2.Holds l' ∧
      ((Net.pkInit plenty loaded).2.pool l hsort).pkAlloc 1000 =
        (((Net.pkInit plenty loaded).2.pkAlloc 1000).1.map fun p => Net.block ((Net.pkInit plenty loaded).2.bufs p),
          ((Net.pkInit plenty loaded).2.pkAlloc 1000).2.pool l' hsort') :=
  reachable_start.from_pool 1000

/-- The handler has no packet; what the tasks have is `refs`. -/
structure Idle (heap : Net.Heap α) (refs : α → Multiset Ref) (v : Serving α) : Prop where
  packet : v.packet = none
  reachable : Reachable heap v.system
  refs : v.system.refs = refs

/-- It has the packet `p`. -/
structure Busy (heap : Net.Heap α) (refs : α → Multiset Ref) (p : α) (len : Nat) (v : Serving α) : Prop where
  packet : v.packet = some (p, len)
  reachable : Reachable heap v.system
  refs : v.system.refs = update refs p (⟨.owned, len, true⟩ ::ₘ refs p)
  /-- Two bytes at a time stay inside. -/
  room : ∀ addr, addr < len + len % 2 → addr < (v.system.net.bufs p).nbBlen

theorem Busy.refs_self (h : Busy heap refs p len v) : v.system.refs p = ⟨.owned, len, true⟩ ::ₘ refs p := by
  rw [h.refs, Function.update_self]

theorem Idle.alloc (h : Idle heap refs v) (halloc : (v.system.net.pkAlloc len).1 = some p) :
    Busy heap refs p len (v.alloc len) := by
  have hpair : v.system.net.pkAlloc len = (some p, (v.system.net.pkAlloc len).2) := Prod.ext halloc rfl
  have hsystem : v.alloc len = ⟨(v.system.withNet (v.system.net.pkAlloc len).2).withRefs p
      (⟨.owned, len, true⟩ ::ₘ v.system.refs p), some (p, len)⟩ := by
    unfold Serving.alloc
    rw [hpair]
  have hreach := h.reachable.run (alloc_run hpair)
  rw [hsystem]
  refine ⟨rfl, hreach, ?_, ?_⟩
  · rw [← h.refs]
    rfl
  · obtain ⟨l, lost, hs⟩ := hreach.sound
    have hne : ((v.system.withNet (v.system.net.pkAlloc len).2).withRefs p
        (⟨.owned, len, true⟩ ::ₘ v.system.refs p)).refs p = ⟨.owned, len, true⟩ ::ₘ v.system.refs p :=
      Function.update_self _ _ _
    obtain ⟨-, -, hb, hheld⟩ := hs.ledger.of_refs (by rw [hne]; exact Multiset.cons_ne_zero)
    rw [hne] at hheld
    have hroom := hheld.room _ (Multiset.mem_cons_self _ _)
    obtain ⟨k, hk⟩ := hb.home
    have hsize := home_size hk
    rw [hsize] at hroom
    have hlen : len ≤ k.size := hroom
    have heven : k.size % 2 = 0 := by cases k <;> rfl
    intro addr haddr
    have hin : addr < k.size := by omega
    exact hin.trans_eq hsize.symm

theorem Idle.refuse (h : Idle heap refs v) (halloc : (v.system.net.pkAlloc len).1 = none) :
    Idle heap refs (v.alloc len) := by
  have hpair : v.system.net.pkAlloc len = (none, (v.system.net.pkAlloc len).2) := Prod.ext halloc rfl
  have hsystem : v.alloc len = ⟨v.system.withNet (v.system.net.pkAlloc len).2, v.packet⟩ := by
    unfold Serving.alloc
    rw [hpair]
  rw [hsystem]
  exact ⟨h.packet, h.reachable.run (alloc_none hpair), h.refs⟩

theorem Busy.store (h : Busy heap refs p len v) {addr : Nat} (byte : UInt8) (haddr : addr < len + len % 2) :
    Busy heap refs p len (v.store addr byte) := by
  have hkept : (v.system.net.bufs p).Kept ((v.system.net.bufs p).store addr byte) := by
    refine ⟨rfl, rfl, fun j hj => Function.update_of_ne ?_ _ _⟩
    have := h.room addr haddr
    omega
  have hsystem : v.store addr byte =
      { v with system := v.system.withNet (v.system.net.withBuf p ((v.system.net.bufs p).store addr byte)) } := by
    unfold Serving.store
    rw [h.packet]
  rw [hsystem]
  refine ⟨h.packet, h.reachable.run (.single (.use h.refs_self rfl hkept)), h.refs, fun a ha => ?_⟩
  show a < (update v.system.net.bufs p _ p).nbBlen
  rw [Function.update_self]
  exact h.room a ha

theorem Busy.putq (h : Busy heap refs p len v) (pkt : Nic.Packet) : Idle heap refs (v.putq pkt) := by
  have hkept : (v.system.net.bufs p).Kept ((v.system.net.bufs p).fill pkt) := ⟨rfl, rfl, fun _ _ => rfl⟩
  have hsystem : v.putq pkt =
      ⟨(v.system.withNet ((v.system.net.withBuf p ((v.system.net.bufs p).fill pkt)).putq .rcvdq p)).withRefs p (refs p),
        none⟩ := by
    have herase : (v.system.refs p).erase ⟨.owned, len, true⟩ = refs p := by
      rw [h.refs_self, Multiset.erase_cons_head]
    rw [← herase]
    unfold Serving.putq
    rw [h.packet]
  have h1 : Step v.system _ := .use h.refs_self rfl hkept
  have h2 := Step.loop (s := v.system.withNet (v.system.net.withBuf p ((v.system.net.bufs p).fill pkt))) h.refs_self rfl
    rfl
  rw [hsystem]
  refine ⟨rfl, h.reachable.run ((Relation.ReflTransGen.single h1).tail h2), ?_⟩
  show update v.system.refs p (refs p) = refs
  rw [h.refs, Function.update_idem, Function.update_eq_self]

/-! ## The handler, part by part -/

abbrev Meets {β : Type} (p : Prog Io β) (Q : β → Serving α → Prop) (v : Serving α) : Prop :=
  (Serving.machine (α := α)).wp p Q v

theorem meets_rxReady {Q : BitVec 8 → Serving α → Prop} (h : ∀ r, Q r v) : Meets Nic.dm9000aRxReady Q v :=
  fun _ _ _ _ _ _ => h _

theorem meets_dump (rxLen i : Nat) {Q : Unit → Serving α → Prop} (h : Q () v) : Meets (Nic.dump rxLen i) Q v := by
  fun_induction Nic.dump rxLen i with
  | case1 i hi ih => exact fun _ _ => ih
  | case2 i hi => exact h

theorem meets_copy (rxLen i dataPtr : Nat) (buff : Nat → UInt8) {Q : (Nat → UInt8) → Serving α → Prop}
    (hv : Busy heap refs p len v) (hptr : dataPtr = i + Nic.ethhdrBias) (hi : i % 2 = 0)
    (hlen : len = rxLen + Nic.ethhdrBias)
    (h : ∀ buff v, Busy heap refs p len v → Q buff v) : Meets (Nic.copy rxLen i dataPtr buff) Q v := by
  have hbias : Nic.ethhdrBias = 2 := rfl
  fun_induction Nic.copy rxLen i dataPtr buff generalizing v with
  | case1 i dataPtr buff hlt ih =>
    intro tmp _ _ _ _ _
    have h1 : dataPtr < len + len % 2 := by omega
    have h2 : dataPtr + 1 < len + len % 2 := by omega
    exact ih _ ((hv.store _ h1).store _ h2) (by omega) (by omega)
  | case2 i dataPtr buff hge => exact h _ _ hv

theorem meets_receive (iface : Nat) {Q : Unit → Serving α → Prop} (hv : Idle heap refs v)
    (h : ∀ v, Idle heap refs v → Q () v) : Meets (Nic.receive iface) Q v := by
  intro _ _ rxSts _ rxLen _
  show Meets (Nic.checkStatus iface rxSts rxLen) Q v
  unfold Nic.checkStatus
  split
  · intro r hr
    have hr' : r =
        (v.system.net.pkAlloc (rxLen.toNat + Nic.ethhdrBias)).1.map fun p => Net.block (v.system.net.bufs p) := hr
    cases halloc : (v.system.net.pkAlloc (rxLen.toNat + Nic.ethhdrBias)).1 with
    | none =>
      rw [halloc] at hr'
      obtain rfl : r = none := hr'
      exact fun _ _ => meets_dump _ _ (h _ (hv.refuse halloc))
    | some p =>
      rw [halloc] at hr'
      obtain rfl : r = some _ := hr'
      unfold Nic.accept
      refine (Machine.wp_bind _ _ _ _).mpr (meets_copy _ _ _ _ (hv.alloc halloc) rfl rfl rfl fun buff v hv => ?_)
      intro now _ _ _ _ _
      exact h _ (hv.putq _)
  · exact meets_dump _ _ (h _ hv)

theorem meets_turn (iface : Nat) (hv : Idle heap refs v) :
    Meets (Nic.turn iface) (fun _ => Idle heap refs) v :=
  (Machine.wp_bind _ _ _ _).mpr (meets_receive iface hv fun _ hv => meets_rxReady fun _ => hv)

theorem meets_writeAll (ws : List (BitVec 32 × BitVec 32)) {Q : Unit → Serving α → Prop} (h : Q () v) :
    Meets (Nic.writeAll ws) Q v := by
  induction ws with
  | nil => exact h
  | cons w ws ih => exact fun _ _ _ _ => ih

theorem meets_leave (rxRdy : BitVec 8) (hv : Idle heap refs v) :
    Meets (Nic.leave rxRdy) (fun _ => Idle heap refs) v := by
  have hrest : Meets (do Nic.dm9000aIow Nic.isr 0x3F; Nic.dm9000aIow Nic.imr Nic.intrSet) (fun _ => Idle heap refs) v :=
    fun _ _ _ _ _ _ _ _ => hv
  unfold Nic.leave
  split
  · exact (Machine.wp_bind _ _ _ _).mpr fun _ _ => meets_writeAll _ hrest
  · exact hrest

/-- **A run of the handler**, its calls served by the stack, leads from a reachable state to one; the
tasks have what they had. -/
theorem isr_reachable {iface : Nat} {t : List (Event Io)} (h : Nic.dm9000aIsr iface t ()) (hs : Reachable heap s)
    {v : Serving α} (hpath : Path Serving.machine ⟨s, none⟩ (alone t) v) :
    v.packet = none ∧ Reachable heap v.system ∧ v.system.refs = s.refs := by
  have hidle : Machine.Triple Serving.machine (Idle heap s.refs) (Nic.dm9000aIsr iface) fun _ => Idle heap s.refs :=
    Machine.triple_bind (Machine.triple_of_wp fun v hv => fun _ _ _ _ _ _ _ _ => meets_rxReady fun _ => hv) fun rxRdy =>
      Machine.triple_bind
        (Machine.triple_loop (L := fun _ => Idle heap s.refs)
          (fun _ _ => Machine.triple_of_wp fun v hv => meets_turn iface hv) rxRdy)
        fun _ => Machine.triple_of_wp fun v hv => meets_leave _ hv
  have hend := hidle _ t () v ⟨rfl, hs, rfl⟩ h hpath
  exact ⟨hend.packet, hend.reachable, hend.refs⟩

/-! ## The blocks that it is given -/

/-- The queues are in order, and what the handler has is in none of them. -/
structure Tidy (l : Name → List α) (v : Serving α) : Prop where
  holds : v.system.net.Holds l
  sorted : v.system.net.Sorted l
  apart : ∀ a ∈ v.packet, ∀ k, a.1 ∉ l k

section
variable {l : Name → List α}

theorem Tidy.alloc (h : Tidy l v) (len : Nat) : ∃ l', Tidy l' (v.alloc len) := by
  cases hk : v.system.net.chooseq len with
  | none =>
    have hnone : v.system.net.pkAlloc len = (none, v.system.net) := by rw [Net.pkAlloc, hk]
    have hsame : v.alloc len = v := by
      unfold Serving.alloc
      rw [hnone]
      rfl
    refine ⟨l, ?_⟩
    rwa [hsame]
  | some k =>
    obtain ⟨hsort, hholds, hhead, -⟩ := Net.pkAlloc_taken h.holds h.sorted hk
    have hsub : ∀ k' a, a ∈ update l k (l k).tail k' → a ∈ l k' := by
      intro k' a ha
      by_cases hkk : k' = k
      · subst hkk
        rw [Function.update_self] at ha
        exact List.mem_of_mem_tail ha
      · rwa [Function.update_of_ne hkk] at ha
    refine ⟨update l k (l k).tail, ?_⟩
    cases hl : l k with
    | nil =>
      have hpair : v.system.net.pkAlloc len = (none, (v.system.net.pkAlloc len).2) :=
        Prod.ext (by rw [hhead, hl]; rfl) rfl
      rw [hl] at hsub hsort hholds
      unfold Serving.alloc
      rw [hpair]
      exact ⟨hholds, hsort, fun a ha k' hin => h.apart a ha k' (hsub k' _ hin)⟩
    | cons p r =>
      have hpair : v.system.net.pkAlloc len = (some p, (v.system.net.pkAlloc len).2) :=
        Prod.ext (by rw [hhead, hl]; rfl) rfl
      have hnd := (h.holds.queue k).linked.nodup
      have hdisj := h.holds.disjoint
      rw [hl] at hsub hsort hholds hnd
      unfold Serving.alloc
      rw [hpair]
      refine ⟨hholds, hsort, fun a ha k' hin => ?_⟩
      obtain rfl : (p, len) = a := Option.some_inj.mp ha
      by_cases hkk : k' = k
      · subst hkk
        rw [Function.update_self] at hin
        exact (List.nodup_cons.mp hnd).1 hin
      · exact hdisj k' k hkk (hsub k' p hin) (by simp [hl])

/-- A buffer of the same length, in the handler's hands. -/
theorem Tidy.change (h : Tidy l v) {p : α} {b : Netbuf} (hb : b.nbBlen = (v.system.net.bufs p).nbBlen) :
    (v.system.net.withBuf p b).Sorted l := by
  intro k hk q hq
  have hlen : ((v.system.net.withBuf p b).bufs q).nbBlen = (v.system.net.bufs q).nbBlen := by
    show (update v.system.net.bufs p b q).nbBlen = _
    by_cases hqp : q = p
    · subst hqp
      rw [Function.update_self, hb]
    · rw [Function.update_of_ne hqp]
  have hhome := h.sorted k hk q hq
  unfold Net.home at hhome ⊢
  rwa [hlen]

theorem Tidy.store (h : Tidy l v) (addr : Nat) (byte : UInt8) : Tidy l (v.store addr byte) := by
  unfold Serving.store
  split
  · exact ⟨h.holds, h.change rfl, h.apart⟩
  · exact h

theorem Tidy.putq (h : Tidy l v) (pkt : Nic.Packet) : ∃ l', Tidy l' (v.putq pkt) := by
  unfold Serving.putq
  split
  · next p len hp =>
    have hnone : ∀ k, p ∉ l k := h.apart (p, len) (by rw [hp]; rfl)
    have hsort : (v.system.net.withBuf p ((v.system.net.bufs p).fill pkt)).Sorted l := h.change rfl
    refine ⟨update l .rcvdq (l .rcvdq ++ [p]), Net.putq_holds h.holds hnone, fun k hk q hq => ?_,
      fun a ha => by cases ha⟩
    rw [Function.update_of_ne hk] at hq
    exact hsort k hk q hq
  · exact ⟨l, h⟩

theorem Tidy.after (h : Tidy l v) (e : Event Io) : ∃ l', Tidy l' (Serving.machine.after v e) := by
  obtain ⟨op, r⟩ := e
  cases op with
  | pkAlloc len => exact h.alloc len
  | store addr byte => exact ⟨l, h.store addr byte⟩
  | putq pkt => exact h.putq pkt
  | _ => exact ⟨l, h⟩

theorem Tidy.answers (h : Tidy l v) {e : Event Io} (he : Serving.machine.allows v e) : Nic.FromPool e := by
  obtain ⟨op, r⟩ := e
  cases op with
  | pkAlloc len =>
    obtain ⟨l', -, hsort', hpool⟩ := Net.pkAlloc_pool h.holds h.sorted len
    refine ⟨v.system.net.pool l h.sorted, ?_⟩
    rw [hpool]
    exact he
  | _ => trivial

end

/-- **No store leaves the packet**, whatever the chip reports. -/
theorem isr_stores_in_packet {iface : Nat} {t : List (Event Io)} (h : Nic.dm9000aIsr iface t ()) (hs : Reachable heap s)
    (hpath : Path Serving.machine ⟨s, none⟩ (alone t) v) :
    ∀ a ∈ Nic.accepted t, ∀ addr ∈ a.stored, addr < a.block.nbBlen := by
  obtain ⟨l, lost, hsound⟩ := hs.sound
  have hsort : s.net.Sorted l := fun k hk p hp => ((hsound.ledger.each p).free k hk hp).1
  have hstart : ∃ l, Tidy l (⟨s, none⟩ : Serving α) := ⟨l, hsound.ledger.holds, hsort, fun a ha => by cases ha⟩
  have hcalls := forall_calls (I := fun v => ∃ l, Tidy l v) (P := Nic.FromPool)
    (fun v e ⟨l, hv⟩ he => ⟨hv.answers he, hv.after e⟩) (fun v f => f.elim) hstart hpath
  rw [calls_alone] at hcalls
  exact Nic.stores_in_block h hcalls

/-! A frame comes when all packets are free. -/

def calm : Event Io → Bool
  | ⟨.pkAlloc _, _⟩ => false
  | _ => true

theorem exists_path {t : List (Event Io)} (ht : t.all calm = true) (v : Serving α) :
    ∃ v', Path Serving.machine v (alone t) v' := by
  induction t generalizing v with
  | nil => exact ⟨v, rfl⟩
  | cons e t ih =>
    obtain ⟨he, ht⟩ := Bool.and_eq_true_iff.mp ht
    obtain ⟨v', hv'⟩ := ih ht (Serving.machine.after v e)
    refine ⟨v', ?_, hv'⟩
    obtain ⟨op, r⟩ := e
    cases op with
    | pkAlloc len => cases he
    | _ => trivial

end

/-- The packet that it gets has room. -/
theorem exists_frame : ∃ (block : Nic.Block) (v : Serving Nat), Nic.dm9000aIsr 0 (Nic.lone Nic.shortest block) () ∧
    Path Serving.machine ⟨.start (Net.pkInit plenty loaded).2, none⟩ (alone (Nic.lone Nic.shortest block)) v := by
  obtain ⟨p, -, halloc⟩ := alloc_plenty (by decide : Nic.shortest.length.toNat + Nic.ethhdrBias ≤ Nic.bigbufsiz)
  let block := Net.block ((Net.pkInit plenty loaded).2.bufs p)
  have hgood : Nic.shortest.Good := by decide
  obtain ⟨v, hrest⟩ := exists_path (t := Nic.filled Nic.shortest block ++ Nic.poll 0 0 ++ Nic.left) rfl
    ((⟨.start (Net.pkInit plenty loaded).2, none⟩ : Serving Nat).alloc (Nic.shortest.length.toNat + Nic.ethhdrBias))
  have hallow : some block = ((Net.pkInit plenty loaded).2.pkAlloc (Nic.shortest.length.toNat + Nic.ethhdrBias)).1.map
      fun p => Net.block ((Net.pkInit plenty loaded).2.bufs p) := by
    rw [halloc]
    rfl
  exact ⟨block, v, Nic.isr_lone hgood block,
    ⟨trivial, trivial, trivial, trivial, trivial, trivial, trivial, trivial, trivial, trivial, hallow, hrest⟩⟩

theorem isr_reachable_frame : ∃ (t : List (Event Io)) (v : Serving Nat), Nic.dm9000aIsr 0 t () ∧
    Path Serving.machine ⟨.start (Net.pkInit plenty loaded).2, none⟩ (alone t) v ∧ v.packet = none ∧
      Reachable plenty v.system ∧ v.system.refs = fun _ => 0 := by
  obtain ⟨block, v, hrun, hpath⟩ := exists_frame
  obtain ⟨hpacket, hreach, hrefs⟩ := isr_reachable hrun reachable_start hpath
  exact ⟨_, v, hrun, hpath, hpacket, hreach, hrefs⟩

theorem isr_stores_in_packet_frame : ∃ (t : List (Event Io)) (a : Nic.Accepted), Nic.dm9000aIsr 0 t () ∧
    a ∈ Nic.accepted t ∧ a.stored = List.range' 2 14 ∧ ∀ addr ∈ a.stored, addr < a.block.nbBlen := by
  obtain ⟨block, v, hrun, hpath⟩ := exists_frame
  have hmem : Nic.accepted (Nic.lone Nic.shortest block) = [⟨0x0001, 14, block, List.range' 2 14,
    [Nic.Driver.packet 0 Nic.shortest block.nbBuff 0]⟩] := rfl
  have hin := isr_stores_in_packet hrun reachable_start hpath
  rw [hmem] at hin
  refine ⟨_, _, hrun, ?_, rfl, hin _ (List.mem_singleton_self _)⟩
  rw [hmem]
  exact List.mem_singleton_self _

end FpgaQuat.Iniche
