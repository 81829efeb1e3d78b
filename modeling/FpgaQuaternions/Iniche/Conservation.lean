import FpgaQuaternions.Iniche.Sharing

/-!
# The packets are all accounted for

In every state that is reached after `pk_init`, whatever tasks and the handler did and in whatever
order:

    use_counts       `inuse` of all packets = the tasks that have one + `rcvdq.q_len` + the refused `pk_free`s
    packets_add_up   the free packets and those in use are 60
    all_free_iff     at rest, all are free again unless a `pk_free` was refused
    in_hands         a packet in one's hands is long enough, in no free queue, and has its markers
    quiet            no panic in `pktdemux`, no error but one in `pk_free`
    accepts_iff      what `pk_validate` lets through

A `pk_free` is refused if the packet waits in `rcvdq` and is not the last there: the original of a
clone that was sent to an address of one's own.
-/

namespace FpgaQuat.Iniche

open Function (update)
open Nic (bigbufsiz)

section
variable {α : Type} [DecidableEq α]

/-! ## From pk_init on -/

section
variable {heap : Net.Heap α} {s : System α} {l : Name → List α} {lost : α → Nat} {p : α} {r : Ref}

def packets (heap : Net.Heap α) : Finset α := ((List.range (numbigbufs + numlilbufs)).filterMap heap.netbuf).toFinset

theorem mem_packets : p ∈ packets heap ↔ ∃ j < numbigbufs + numlilbufs, heap.netbuf j = some p := by
  simp [packets]

/-- Nothing has happened yet. -/
def System.start (net : Net α) : System α where
  net
  asked := 0
  refs _ := 0
  demux := false
  panicked := false

/-- As the loader leaves the memory. -/
structure Net.Boot (net : Net α) : Prop where
  queue : net.queue = fun _ => .zero α
  memestats : net.memestats = fun _ => 0

/-- Any state after `pk_init` has found the memory for all packets. -/
def Reachable (heap : Net.Heap α) (s : System α) : Prop :=
  ∃ net : Net α, net.Boot ∧ (Net.pkInit heap net).1 = 0 ∧
    Relation.ReflTransGen Step (.start (Net.pkInit heap net).2) s

theorem intact_newBuf (k : Name) (hk : k ≠ .rcvdq) : (Net.newBuf k.size).Intact where
  home := by
    refine ⟨k, ?_⟩
    cases k with
    | bigfreeq => rfl
    | lilfreeq => rfl
    | rcvdq => exact absurd rfl hk
  marked := ⟨fun j hj => if_pos (.inl hj), if_pos (.inr rfl)⟩

theorem start_sound {net : Net α} (hboot : net.Boot) (h0 : (Net.pkInit heap net).1 = 0) :
    ∃ l, (System.start (Net.pkInit heap net).2).Sound (packets heap) l fun _ => 0 := by
  have hends := Net.pkInit_ends heap hboot.queue
  obtain ⟨l, hfill⟩ := hends.filled h0
  have hrcvd : l .rcvdq = [] := by
    rw [← List.length_eq_zero_iff, hfill.length, Net.slots]
  have hin : ∀ p, p ∈ packets heap ↔ ∃ k, p ∈ l k := fun p => by rw [mem_packets, hfill.packets]
  refine ⟨l, ⟨hfill.holds, fun p => ⟨fun hnot => ?_, fun hp => ?_, fun hp hnot => ?_, fun k hk hmem => ?_, fun hp hnot => ?_⟩⟩,
    by simp [System.start], fun hd => absurd hd Bool.false_ne_true, rfl, fun e _ => ?_, ?_⟩
  · exact ⟨fun k hk => hnot ((hin p).mpr ⟨k, hk⟩), rfl, rfl⟩
  · obtain ⟨k, hk⟩ := (hin p).mp hp
    show ((Net.pkInit heap net).2.bufs p).Intact
    rw [hfill.fresh k p hk]
    refine intact_newBuf k fun hkr => ?_
    rw [hkr, hrcvd] at hk
    cases hk
  · obtain ⟨k, hk⟩ := (hin p).mp hp
    exact absurd hk (hnot k)
  · show Net.home ((Net.pkInit heap net).2.bufs p) = some k ∧ ((Net.pkInit heap net).2.bufs p).inuse.toNat = 0 ∧ _
    rw [hfill.fresh k p hmem]
    refine ⟨?_, rfl, rfl, rfl⟩
    cases k with
    | bigfreeq => rfl
    | lilfreeq => rfl
    | rcvdq => exact absurd rfl hk
  · obtain ⟨k, hk⟩ := (hin p).mp hp
    by_cases hkr : k = .rcvdq
    · rw [hkr, hrcvd] at hk
      cases hk
    · exact absurd hk (hnot k hkr)
  · show (Net.pkInit heap net).2.memestats e = 0
    rw [hends.quiet, hboot.memestats]
  · show (Net.pkInit heap net).2.memestats _ = _
    rw [hends.quiet, hboot.memestats, Finset.sum_const_zero]
    rfl

theorem Reachable.sound (h : Reachable heap s) : ∃ l lost, s.Sound (packets heap) l lost := by
  obtain ⟨net, hboot, h0, hrun⟩ := h
  obtain ⟨l, hstart⟩ := start_sound hboot h0
  obtain ⟨l', lost', hs, -⟩ := run_sound hrun hstart
  exact ⟨l', lost', hs⟩

end

end

/-! ## A heap with room for everything -/

def plenty : Net.Heap Nat where
  netbuf := some
  area _ _ := true
  distinct hi hj := Option.some_inj.mp (hi.trans hj.symm)

def loaded : Net Nat where
  links _ := none
  queue _ := .zero Nat
  bufs _ := ⟨fun _ => 0, 0, 0, 0, 0, none, 0, 0⟩
  memestats _ := 0
  maxLnh := 16

theorem pkInit_plenty : (Net.pkInit plenty loaded).1 = 0 :=
  (Net.pkInit_ends plenty rfl).success.mpr fun _ _ _ => ⟨rfl, rfl⟩

theorem reachable_start : Reachable plenty (.start (Net.pkInit plenty loaded).2) :=
  ⟨loaded, ⟨rfl, rfl⟩, pkInit_plenty, .refl⟩

/-- There is a packet of any length. -/
theorem alloc_plenty {len : Nat} (hlen : len ≤ bigbufsiz) :
    ∃ p ∈ packets plenty, ((Net.pkInit plenty loaded).2.pkAlloc len).1 = some p := by
  obtain ⟨l, hfill⟩ := (Net.pkInit_ends plenty rfl : Net.Ends plenty 0 loaded _).filled pkInit_plenty
  obtain ⟨k, hk⟩ : ∃ k, (Net.pkInit plenty loaded).2.chooseq len = some k := by
    unfold Net.chooseq
    rw [if_neg (by omega)]
    split <;> exact ⟨_, rfl⟩
  have hcount : 0 < (l k).length := by
    have hkr := (chooseq_fits hk).1
    rw [hfill.length, Net.slots]
    cases k with
    | bigfreeq => decide
    | lilfreeq => decide
    | rcvdq => exact absurd rfl hkr
  obtain ⟨p, r, hl⟩ := List.exists_cons_of_length_pos hcount
  obtain ⟨q, hget, -⟩ := Net.getq_cons hfill.holds hl
  refine ⟨p, mem_packets.mpr ((hfill.packets p).mp ⟨k, by simp [hl]⟩), ?_⟩
  rw [Net.pkAlloc_eq hk, hget]

/-- A task has got a packet. -/
theorem exists_owned : ∃ s p, Reachable plenty s ∧ p ∈ packets plenty ∧ ⟨.owned, 1000, true⟩ ∈ s.refs p := by
  obtain ⟨p, hp, halloc⟩ := alloc_plenty (by decide : 1000 ≤ bigbufsiz)
  have hrun := alloc_run (s := .start (Net.pkInit plenty loaded).2) (Prod.ext halloc rfl)
  refine ⟨_, p, ⟨loaded, ⟨rfl, rfl⟩, pkInit_plenty, hrun⟩, hp, ?_⟩
  show (⟨.owned, 1000, true⟩ : Ref) ∈ update (fun _ => (0 : Multiset Ref)) p (⟨.owned, 1000, true⟩ ::ₘ 0) p
  rw [Function.update_self]
  exact Multiset.mem_cons_self _ _

section
variable {α : Type} [DecidableEq α] {heap : Net.Heap α} {s : System α} {l : Name → List α} {lost : α → Nat} {p : α} {r : Ref}

/-! ## The books -/

/-- How many tasks have a packet that is neither on its way in nor out. -/
def owners (rs : Multiset Ref) : Nat := rs.countP fun r => r.Settled

theorem Held.account {b : Netbuf} {w n : Nat} {rs : Multiset Ref} (h : Held b w rs n) :
    b.inuse.toNat = owners rs + w + n ∧ b.inuse.toNat ≤ 2 := by
  rcases h.count with ⟨r, rfl, hr, hb, rfl, rfl⟩ | ⟨hall, hcount, -, hle⟩
  · have hnone : owners {r} = 0 := by
      unfold owners
      rw [Multiset.countP_eq_zero]
      rintro r' hr' ⟨htaken, hdropped⟩
      rw [Multiset.mem_singleton] at hr'
      subst hr'
      exact hr.elim htaken hdropped
    omega
  · have hevery : owners rs = rs.card := Multiset.countP_eq_card.mpr hall
    omega

namespace System.Sound

theorem account {pool : Finset α} (hs : s.Sound pool l lost) (hp : p ∈ pool) :
    (s.net.bufs p).inuse.toNat = owners (s.refs p) + (if p ∈ l .rcvdq then 1 else 0) + lost p ∧
      (s.net.bufs p).inuse.toNat ≤ 2 := by
  by_cases hfree : ∀ k ≠ Name.rcvdq, p ∉ l k
  · exact ((hs.ledger.each p).held hp hfree).account
  · push Not at hfree
    obtain ⟨k, hk, hmem⟩ := hfree
    obtain ⟨-, huse, hrefs, hlost⟩ := (hs.ledger.each p).free k hk hmem
    have hnot : p ∉ l .rcvdq := fun hin => hs.ledger.holds.disjoint k _ hk hmem hin
    rw [huse, hrefs, hlost, if_neg hnot]
    exact ⟨rfl, by omega⟩

/-- In a free queue there is what nobody has. -/
theorem free_iff {pool : Finset α} (hs : s.Sound pool l lost) (hp : p ∈ pool) :
    (p ∈ l .bigfreeq ∨ p ∈ l .lilfreeq) ↔ (s.net.bufs p).inuse.toNat = 0 ∧ s.refs p = 0 := by
  constructor
  · rintro (hmem | hmem)
    · obtain ⟨-, huse, hrefs, -⟩ := (hs.ledger.each p).free _ (by decide) hmem
      exact ⟨huse, hrefs⟩
    · obtain ⟨-, huse, hrefs, -⟩ := (hs.ledger.each p).free _ (by decide) hmem
      exact ⟨huse, hrefs⟩
  · rintro ⟨huse, hrefs⟩
    by_contra hnot
    have hfree : ∀ k ≠ Name.rcvdq, p ∉ l k := by
      intro k hk hmem
      cases k with
      | bigfreeq => exact hnot (.inl hmem)
      | lilfreeq => exact hnot (.inr hmem)
      | rcvdq => exact hk rfl
    rcases ((hs.ledger.each p).held hp hfree).count with ⟨r, hr, -⟩ | ⟨-, -, hge, -⟩
    · rw [hrefs] at hr
      exact Multiset.singleton_ne_zero r hr.symm
    · omega

/-- The packets of a queue. -/
theorem card_queue {pool : Finset α} (hs : s.Sound pool l lost) (k : Name) :
    (pool.filter (· ∈ l k)).card = (s.net.queue k).qLen.toNat := by
  have hq := hs.ledger.holds.queue k
  have hset : pool.filter (· ∈ l k) = (l k).toFinset := by
    ext p
    rw [Finset.mem_filter, List.mem_toFinset, and_iff_right_iff_imp]
    intro hmem
    by_contra hnot
    exact ((hs.ledger.each p).known hnot).1 k hmem
  rw [hset, List.toFinset_card_of_nodup hq.linked.nodup, hq.len]
  rfl

/-- Every packet is in a free queue or in use. -/
theorem partition {pool : Finset α} (hs : s.Sound pool l lost) :
    (s.net.queue .bigfreeq).qLen.toNat + (s.net.queue .lilfreeq).qLen.toNat +
      (pool.filter fun p => ¬ ((s.net.bufs p).inuse.toNat = 0 ∧ s.refs p = 0)).card = pool.card := by
  have hdisj : Disjoint (pool.filter (· ∈ l .bigfreeq)) (pool.filter (· ∈ l .lilfreeq)) := by
    rw [Finset.disjoint_filter]
    intro p _ hbig hlil
    exact hs.ledger.holds.disjoint .bigfreeq .lilfreeq (by decide) hbig hlil
  have hfree : pool.filter (fun p => (s.net.bufs p).inuse.toNat = 0 ∧ s.refs p = 0) =
      pool.filter (· ∈ l .bigfreeq) ∪ pool.filter (· ∈ l .lilfreeq) := by
    rw [← Finset.filter_or]
    exact Finset.filter_congr fun p hp => (hs.free_iff hp).symm
  rw [← hs.card_queue .bigfreeq, ← hs.card_queue .lilfreeq, ← Finset.card_union_of_disjoint hdisj, ← hfree]
  exact Finset.card_filter_add_card_filter_not _

end System.Sound

theorem card_packets {net : Net α} (hboot : net.Boot) (h0 : (Net.pkInit heap net).1 = 0) :
    (packets heap).card = numbigbufs + numlilbufs := by
  obtain ⟨l, hfill⟩ := (Net.pkInit_ends heap hboot.queue).filled h0
  have hrcvd : l .rcvdq = [] := by
    rw [← List.length_eq_zero_iff, hfill.length, Net.slots]
  have hset : packets heap = (l .bigfreeq ++ l .lilfreeq).toFinset := by
    ext p
    rw [mem_packets, ← hfill.packets, List.mem_toFinset, List.mem_append]
    constructor
    · rintro ⟨k, hk⟩
      cases k with
      | bigfreeq => exact .inl hk
      | lilfreeq => exact .inr hk
      | rcvdq =>
        rw [hrcvd] at hk
        cases hk
    · rintro (hk | hk)
      · exact ⟨_, hk⟩
      · exact ⟨_, hk⟩
  have hnodup : (l .bigfreeq ++ l .lilfreeq).Nodup :=
    (hfill.holds.queue _).linked.nodup.append (hfill.holds.queue _).linked.nodup
      (hfill.holds.disjoint _ _ (by decide))
  rw [hset, List.toFinset_card_of_nodup hnodup, List.length_append, hfill.length, hfill.length, Net.slots, Net.slots]

/-- The invariant, and the counter in full. -/
theorem Reachable.books (h : Reachable heap s) : ∃ l lost, s.Sound (packets heap) l lost ∧
    (packets heap).card = numbigbufs + numlilbufs ∧
      (s.net.memestats .inconsistentLocation).toNat = ∑ p ∈ packets heap, lost p := by
  obtain ⟨l, lost, hs⟩ := h.sound
  obtain ⟨net, hboot, h0, -⟩ := h
  have hcard := card_packets hboot h0
  have hlost : ∑ p ∈ packets heap, lost p ≤ (packets heap).card * 2 := by
    refine Finset.sum_le_card_nsmul _ _ 2 fun p hp => ?_
    obtain ⟨hsum, hle⟩ := hs.account hp
    omega
  refine ⟨l, lost, hs, hcard, ?_⟩
  rw [hs.lost, BitVec.toNat_ofNat]
  refine Nat.mod_eq_of_lt (hlost.trans_lt ?_)
  rw [hcard]
  decide

/-- **The use counts** of all packets together are the tasks that have one, the packets that wait in `rcvdq`, and the
`pk_free`s that were refused. -/
theorem Reachable.use_counts (h : Reachable heap s) :
    ∑ p ∈ packets heap, (s.net.bufs p).inuse.toNat =
      ∑ p ∈ packets heap, owners (s.refs p) + (s.net.queue .rcvdq).qLen.toNat +
        (s.net.memestats .inconsistentLocation).toNat := by
  obtain ⟨l, lost, hs, -, hstats⟩ := h.books
  rw [hstats, ← hs.card_queue .rcvdq, Finset.card_filter, ← Finset.sum_add_distrib, ← Finset.sum_add_distrib]
  exact Finset.sum_congr rfl fun p hp => (hs.account hp).1

theorem use_counts_owned : ∃ s, Reachable plenty s ∧ (∃ p, s.refs p ≠ 0) ∧
    ∑ p ∈ packets plenty, (s.net.bufs p).inuse.toNat =
      ∑ p ∈ packets plenty, owners (s.refs p) + (s.net.queue .rcvdq).qLen.toNat +
        (s.net.memestats .inconsistentLocation).toNat := by
  obtain ⟨s, p, hs, -, hr⟩ := exists_owned
  exact ⟨s, hs, ⟨p, fun h0 => by simp [h0] at hr⟩, hs.use_counts⟩

/-- **No packet gets lost or is there twice**: the free ones and those in use add up. -/
theorem Reachable.packets_add_up (h : Reachable heap s) :
    (s.net.queue .bigfreeq).qLen.toNat + (s.net.queue .lilfreeq).qLen.toNat +
      ((packets heap).filter fun p => ¬ ((s.net.bufs p).inuse.toNat = 0 ∧ s.refs p = 0)).card =
        numbigbufs + numlilbufs := by
  obtain ⟨l, lost, hs, hcard, -⟩ := h.books
  rw [hs.partition, hcard]

theorem packets_add_up_owned : ∃ s, Reachable plenty s ∧ (∃ p, s.refs p ≠ 0) ∧
    (s.net.queue .bigfreeq).qLen.toNat + (s.net.queue .lilfreeq).qLen.toNat +
      ((packets plenty).filter fun p => ¬ ((s.net.bufs p).inuse.toNat = 0 ∧ s.refs p = 0)).card = 60 := by
  obtain ⟨s, p, hs, -, hr⟩ := exists_owned
  exact ⟨s, hs, ⟨p, fun h0 => by simp [h0] at hr⟩, hs.packets_add_up⟩

/-- **When all is done**, all packets are free again if and only if no `pk_free` was refused. -/
theorem Reachable.all_free_iff (h : Reachable heap s) (hrefs : ∀ p, s.refs p = 0) (hq : (s.net.queue .rcvdq).qLen = 0) :
    (s.net.queue .bigfreeq).qLen.toNat + (s.net.queue .lilfreeq).qLen.toNat = numbigbufs + numlilbufs ↔
      s.net.memestats .inconsistentLocation = 0 := by
  obtain ⟨l, lost, hs, hcard, hstats⟩ := h.books
  have hrcvd : l .rcvdq = [] := (Net.qLen_eq_zero hs.ledger.holds).mp hq
  have huse : ∀ p ∈ packets heap, (s.net.bufs p).inuse.toNat = lost p := by
    intro p hp
    rw [(hs.account hp).1, hrefs p, hrcvd, if_neg List.not_mem_nil]
    show 0 + 0 + lost p = lost p
    omega
  have hzero : s.net.memestats .inconsistentLocation = 0 ↔ (s.net.memestats .inconsistentLocation).toNat = 0 :=
    ⟨fun h => by rw [h]; rfl, fun h => BitVec.eq_of_toNat_eq h⟩
  have hpart := hs.partition
  rw [hcard] at hpart
  rw [hzero, hstats, Finset.sum_eq_zero_iff, ← hpart, left_eq_add, Finset.card_eq_zero, Finset.filter_eq_empty_iff]
  refine forall₂_congr fun p hp => ?_
  rw [not_not, huse p hp, and_iff_left (hrefs p)]

theorem rcvdq_start : ((Net.pkInit plenty loaded).2.queue .rcvdq).qLen = 0 := by
  obtain ⟨l, hfill⟩ := (Net.pkInit_ends plenty rfl : Net.Ends plenty 0 loaded _).filled pkInit_plenty
  rw [(hfill.holds.queue .rcvdq).len, hfill.length, Net.slots]
  rfl

theorem all_free_start : ((Net.pkInit plenty loaded).2.queue .bigfreeq).qLen.toNat +
      ((Net.pkInit plenty loaded).2.queue .lilfreeq).qLen.toNat = 60 ↔
    (Net.pkInit plenty loaded).2.memestats .inconsistentLocation = 0 :=
  reachable_start.all_free_iff (fun _ => rfl) rcvdq_start

/-- **What a task has in its hands** is as long as it asked for, is in no free queue, and keeps its markers; in
`pk_alloc` nobody else has it. -/
theorem Reachable.in_hands (h : Reachable heap s) (hr : r ∈ s.refs p) :
    r.len ≤ (s.net.bufs p).nbBlen ∧ (s.net.bufs p).Intact ∧ (r.stage = .taken → s.refs p = {r}) ∧
      ∃ l, s.net.Holds l ∧ ∀ k ≠ Name.rcvdq, p ∉ l k := by
  obtain ⟨l, lost, hs⟩ := h.sound
  have hne : s.refs p ≠ 0 := fun h0 => by simp [h0] at hr
  obtain ⟨-, hfree, hb, hheld⟩ := hs.ledger.of_refs hne
  refine ⟨hheld.room r hr, hb, fun htaken => ?_, l, hs.ledger.holds, hfree⟩
  obtain ⟨rs, hrs⟩ := Multiset.exists_cons_of_mem hr
  rw [hrs] at hheld
  rw [hrs, (hheld.of_bare (.inl htaken)).1]
  rfl

theorem in_hands_owned : ∃ s p, Reachable plenty s ∧ 1000 ≤ (s.net.bufs p).nbBlen ∧ (s.net.bufs p).Intact ∧
    ∃ l, s.net.Holds l ∧ ∀ k ≠ Name.rcvdq, p ∉ l k := by
  obtain ⟨s, p, hs, -, hr⟩ := exists_owned
  obtain ⟨hlen, hb, -, hfree⟩ := hs.in_hands hr
  exact ⟨s, p, hs, hlen, hb, hfree⟩

/-- **`pktdemux` never panics**, and the errors that `pk_free` finds are all of one kind. -/
theorem Reachable.quiet (h : Reachable heap s) :
    s.panicked = false ∧ ∀ e ≠ Memerr.inconsistentLocation, s.net.memestats e = 0 := by
  obtain ⟨l, lost, hs⟩ := h.sound
  exact ⟨hs.calm, hs.stats⟩

theorem quiet_owned : ∃ s, Reachable plenty s ∧ (∃ p, s.refs p ≠ 0) ∧ s.panicked = false ∧
    ∀ e ≠ Memerr.inconsistentLocation, s.net.memestats e = 0 := by
  obtain ⟨s, p, hs, -, hr⟩ := exists_owned
  exact ⟨s, hs, ⟨p, fun h0 => by simp [h0] at hr⟩, hs.quiet⟩

end

end FpgaQuat.Iniche
