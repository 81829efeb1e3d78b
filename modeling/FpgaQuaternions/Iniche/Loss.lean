import FpgaQuaternions.Iniche.Conservation

/-!
# Packets that are lost

A packet is cloned and its clone sent to an address of one's own, another packet arrives behind it in
`rcvdq`, and the original is freed before `pktdemux` has taken the clone: `pk_free` refuses, and the
reference is lost (`Stands.loses`).  Nothing brings it back.

    free_antitone   at rest there are never more free packets than at rest before
    drains          from any state at rest it can go on until at most one packet is free
-/

namespace FpgaQuat.Iniche

open Function (update)
open Relation (ReflTransGen)

variable {α : Type} [DecidableEq α]

namespace System

/-- Nobody has a packet, and none waits. -/
structure AtRest (s : System α) : Prop where
  refs : ∀ p, s.refs p = 0
  rcvdq : (s.net.queue .rcvdq).qLen = 0

def free (s : System α) : Nat := (s.net.queue .bigfreeq).qLen.toNat + (s.net.queue .lilfreeq).qLen.toNat

end System

/-- Who has what, what waits in `rcvdq`, and how many references to each packet are lost. -/
structure Stands (pool : Finset α) (refs : α → Multiset Ref) (w : List α) (lost : α → Nat) (s : System α) :
    Prop where
  refs : s.refs = refs
  demux : s.demux = false
  sound : ∃ l, l .rcvdq = w ∧ s.Sound pool l lost

variable {pool : Finset α} {refs : α → Multiset Ref} {w : List α} {lost : α → Nat} {s s' : System α} {p : α} {r : Ref}

/-! ## Counting -/

/-- What is in a free queue. -/
def Spare (refs : α → Multiset Ref) (w : List α) (lost : α → Nat) (p : α) : Prop := refs p = 0 ∧ p ∉ w ∧ lost p = 0

instance : DecidablePred (Spare refs w lost) := fun _ => inferInstanceAs (Decidable (_ ∧ _))

theorem Stands.free_eq (h : Stands pool refs w lost s) : s.free = (pool.filter (Spare refs w lost)).card := by
  obtain ⟨l, hl, hs⟩ := h.sound
  have hpart := hs.partition
  have hsplit := Finset.card_filter_add_card_filter_not (s := pool) fun p => (s.net.bufs p).inuse.toNat = 0 ∧ s.refs p = 0
  have hspare : pool.filter (fun p => (s.net.bufs p).inuse.toNat = 0 ∧ s.refs p = 0) =
      pool.filter (Spare refs w lost) := by
    refine Finset.filter_congr fun p hp => ?_
    have huse := (hs.account hp).1
    rw [hl, h.refs] at huse
    rw [h.refs, huse]
    unfold Spare
    constructor
    · rintro ⟨hsum, h0⟩
      refine ⟨h0, fun hin => ?_, by omega⟩
      rw [if_pos hin] at hsum
      omega
    · rintro ⟨h0, hnot, hlost⟩
      rw [h0, if_neg hnot, hlost]
      exact ⟨rfl, rfl⟩
  rw [hspare] at hsplit
  unfold System.free
  omega

/-- At rest. -/
theorem System.AtRest.stands (h : s.AtRest) {l : Name → List α} (hs : s.Sound pool l lost) :
    Stands pool (fun _ => 0) [] lost s := by
  have hrcvd : l .rcvdq = [] := (Net.qLen_eq_zero hs.ledger.holds).mp h.rcvdq
  refine ⟨funext h.refs, ?_, l, hrcvd, hs⟩
  cases hd : s.demux with
  | false => rfl
  | true => exact absurd hrcvd (hs.demux hd)

theorem Stands.atRest (h : Stands pool (fun _ => 0) [] lost s) : s.AtRest := by
  obtain ⟨l, hl, hs⟩ := h.sound
  exact ⟨fun p => by rw [h.refs], (Net.qLen_eq_zero hs.ledger.holds).mpr hl⟩

theorem card_filter_without {P P' : α → Prop} [DecidablePred P] [DecidablePred P'] (hp : p ∈ pool) (h : P p)
    (hP : ∀ a, P' a ↔ a ≠ p ∧ P a) : (pool.filter P').card + 1 = (pool.filter P).card := by
  have hset : pool.filter P' = (pool.filter P).erase p := by
    ext a
    rw [Finset.mem_erase, Finset.mem_filter, Finset.mem_filter, hP]
    tauto
  rw [hset]
  exact Finset.card_erase_add_one (Finset.mem_filter.mpr ⟨hp, h⟩)

/-! ## What a task can do -/

/-- It gets a packet, if one is free. -/
theorem Stands.alloc (h : Stands pool refs w lost s) (hfree : 0 < s.free) :
    ∃ p ∈ pool, Spare refs w lost p ∧
      ∃ s', ReflTransGen Step s s' ∧ Stands pool (update refs p {⟨.owned, 0, true⟩}) w lost s' := by
  obtain ⟨l, hl, hs⟩ := h.sound
  obtain ⟨k, hk, hlen⟩ : ∃ k, s.net.chooseq 0 = some k ∧ (s.net.queue k).qLen ≠ 0 := by
    unfold System.free at hfree
    unfold Net.chooseq
    rw [if_neg (by omega)]
    split
    · next hlil => exact ⟨_, rfl, by omega⟩
    · next hlil => exact ⟨_, rfl, by omega⟩
  obtain ⟨p, t, hcons⟩ : ∃ p t, l k = p :: t := by
    refine List.exists_cons_of_ne_nil fun hnil => hlen ?_
    exact (Net.qLen_eq_zero hs.ledger.holds).mpr hnil
  obtain ⟨queue, hget, -⟩ := Net.getq_cons hs.ledger.holds hcons
  have hmem : p ∈ l k := by simp [hcons]
  obtain ⟨-, -, hrefs, hlost⟩ := (hs.ledger.each p).free k (chooseq_fits hk).1 hmem
  have hpool : p ∈ pool := by
    by_contra hnot
    exact ((hs.ledger.each p).known hnot).1 k hmem
  have hnot : p ∉ w := by
    rw [← hl]
    exact fun hin => hs.ledger.holds.disjoint k _ (chooseq_fits hk).1 hmem hin
  let s1 : System α := { s with asked := (0, k) ::ₘ s.asked }
  have t1 : Step s s1 := .choose hk
  have h1 : s1.Sound pool l lost := hs.choose hk
  let s2 : System α :=
    ({ s1 with net := (s.net.getq k).2, asked := s.asked }).withRefs p (⟨.taken, 0, true⟩ ::ₘ s.refs p)
  have hget1 : s1.net.getq k = (some p, (s.net.getq k).2) := by rw [show s1.net = s.net from rfl, hget]
  have t2 : Step s1 s2 := .take rfl hget1
  have h2 : s2.Sound pool (update l k (l k).tail) lost := (h1.take rfl hget1).2
  have hr2 : s2.refs p = ⟨.taken, 0, true⟩ ::ₘ s.refs p := Function.update_self _ _ _
  have t3 := Step.prepare hr2 rfl
  have h3 := h2.prepare hr2 rfl
  have hrefs' : refs p = 0 := by rw [← h.refs, hrefs]
  refine ⟨p, hpool, ⟨hrefs', hnot, hlost⟩, _, ((ReflTransGen.single t1).tail t2).tail t3, ?_, h.demux, _, ?_, h3⟩
  · show update (update s.refs p _) p (⟨.owned, 0, true⟩ ::ₘ s.refs p) = _
    rw [Function.update_idem, hrefs, h.refs]
    rfl
  · rw [Function.update_of_ne (chooseq_fits hk).1.symm, hl]

section
variable {rs : Multiset Ref}

/-- It clones what it has alone. -/
theorem Stands.clone (h : Stands pool refs w lost s) (hp : refs p = {r}) (hr : r.stage = .owned) (hw : p ∉ w)
    (hlost : lost p = 0) :
    ∃ s', Step s s' ∧ Stands pool (update refs p {{ r with sends := false }, { r with sends := true }}) w lost s' := by
  obtain ⟨l, hl, hs⟩ := h.sound
  have hp' : s.refs p = r ::ₘ 0 := by rw [h.refs, hp]; rfl
  have huse : (s.net.bufs p).inuse = 1 := by
    obtain ⟨hpool, -, -, hheld⟩ := hs.ledger.of_refs (System.Sound.refs_ne_zero hp')
    rw [hp', hl, if_neg hw, hlost] at hheld
    have hsum := (hheld.of_settled (by simp [Ref.Settled, hr])).2.1
    exact BitVec.eq_of_toNat_eq hsum
  refine ⟨_, .clone hp' hr huse, ?_, h.demux, l, hl, hs.clone hp' hr huse⟩
  show update s.refs p _ = _
  rw [h.refs]
  rfl

/-- It sends to an address of its own. -/
theorem Stands.loop (h : Stands pool refs w lost s) (hp : refs p = r ::ₘ rs) (hr : r.stage = .owned)
    (hsend : r.sends = true) : ∃ s', Step s s' ∧ Stands pool (update refs p rs) (w ++ [p]) lost s' := by
  obtain ⟨l, hl, hs⟩ := h.sound
  have hp' : s.refs p = r ::ₘ rs := by rw [h.refs, hp]
  refine ⟨_, .loop hp' hr hsend, ?_, h.demux, _, ?_, hs.loop hp' hr hsend⟩
  · show update s.refs p rs = _
    rw [h.refs]
  · rw [Function.update_self, hl]

/-- Its `pk_free` is refused where the packet waits in front of others. -/
theorem Stands.refused (h : Stands pool refs w lost s) (hp : refs p = r ::ₘ rs) (hr : r.stage = .owned) (hw : p ∈ w)
    (hlast : w.getLast? ≠ some p) :
    ∃ s', Step s s' ∧ Stands pool (update refs p rs) w (update lost p (lost p + 1)) s' := by
  obtain ⟨l, hl, hs⟩ := h.sound
  have hp' : s.refs p = r ::ₘ rs := by rw [h.refs, hp]
  have hpool := (hs.ledger.of_refs (System.Sound.refs_ne_zero hp')).1
  have hmem : p ∈ l .rcvdq := by rwa [hl]
  have hlink : s.net.links p ≠ none := by
    have hqueue := (hs.ledger.holds.queue .rcvdq).linked
    rwa [Ne, hqueue.link_eq_none hmem, hqueue.tail, hl]
  have huse : 1 ≤ (s.net.bufs p).inuse.toNat := by
    have hsum := (hs.account hpool).1
    rw [if_pos hmem] at hsum
    omega
  have hcheck : s.net.check 0 p r.stage = some (.linked, some .inconsistentLocation) := by
    rw [hr, Net.check, Net.checkLink, if_pos ⟨hlink, huse⟩]
  refine ⟨_, .fault hp' hcheck, ?_, h.demux, l, hl, hs.fault hp' hcheck⟩
  show update s.refs p rs = _
  rw [h.refs]

/-- `pktdemux` takes the first. -/
theorem Stands.demuxed (h : Stands pool refs (p :: w) lost s) :
    ∃ s', ReflTransGen Step s s' ∧ Stands pool (update refs p (⟨.owned, 0, true⟩ ::ₘ refs p)) w lost s' := by
  obtain ⟨l, hl, hs⟩ := h.sound
  have hlen : (s.net.queue .rcvdq).qLen ≠ 0 := by
    rw [Ne, Net.qLen_eq_zero hs.ledger.holds, hl]
    exact List.cons_ne_nil _ _
  obtain ⟨queue, hget, -⟩ := Net.getq_cons hs.ledger.holds hl
  let s1 : System α := { s with demux := true }
  have t1 : Step s s1 := .look h.demux hlen
  have h1 : s1.Sound pool l lost := hs.look hlen
  have t2 := Step.demux (s := s1) rfl hget (h1.not_corrupt hget)
  refine ⟨_, (ReflTransGen.single t1).tail t2, ?_, rfl, _, ?_, h1.deq hget⟩
  · show update s.refs p (_ ::ₘ s.refs p) = _
    rw [h.refs]
  · rw [Function.update_self, hl]
    rfl

/-- A check of `pk_free` finds nothing. -/
theorem Stands.passed (h : Stands pool refs w lost s) (hp : refs p = {r}) (hw : p ∉ w) (st : Stage)
    (hst : (r.stage, st) = (.owned, .linked) ∨ (r.stage, st) = (.linked, .searched) ∨
      (r.stage, st) = (.searched, .valid)) :
    ∃ s', Step s s' ∧ Stands pool (update refs p {{ r with stage := st }}) w lost s' := by
  obtain ⟨l, hl, hs⟩ := h.sound
  have hp' : s.refs p = r ::ₘ 0 := by rw [h.refs, hp]; rfl
  obtain ⟨fuel, e, hcheck⟩ : ∃ fuel e, s.net.check fuel p r.stage = some (st, e) := by
    rcases hst with hst | hst | hst
    · obtain ⟨hr, rfl⟩ := Prod.mk.inj hst
      exact ⟨0, _, by rw [hr]; rfl⟩
    · obtain ⟨hr, rfl⟩ := Prod.mk.inj hst
      let fuel := (l .bigfreeq).length + (l .lilfreeq).length + (l .rcvdq).length + 1
      have hfuel : ∀ k, (l k).length < fuel := by
        intro k
        cases k <;> omega
      refine ⟨fuel, s.net.searched l p, ?_⟩
      rw [hr, Net.check, Net.checkFreeq_eq hs.ledger.holds hfuel]
      rfl
    · obtain ⟨hr, rfl⟩ := Prod.mk.inj hst
      exact ⟨0, _, by rw [hr]; rfl⟩
  cases e with
  | some e => exact absurd (hs.ledger.fault (System.Sound.refs_ne_zero hp') hcheck).2.2 (by rwa [hl])
  | none =>
    refine ⟨_, .pass hp' hcheck, ?_, h.demux, l, hl, hs.pass hp' hcheck⟩
    show update s.refs p _ = _
    rw [h.refs]
    rfl

/-- It frees what does not wait. -/
theorem Stands.freed (h : Stands pool refs w lost s) (hp : refs p = {r}) (hr : r.stage = .owned) (hw : p ∉ w) :
    ∃ s', ReflTransGen Step s s' ∧ Stands pool (update refs p 0) w lost s' := by
  obtain ⟨s1, t1, h1⟩ := h.passed hp hw .linked (by simp [hr])
  obtain ⟨s2, t2, h2⟩ := h1.passed (Function.update_self _ _ _) hw .searched (by simp)
  obtain ⟨s3, t3, h3⟩ := h2.passed (Function.update_self _ _ _) hw .valid (by simp)
  rw [Function.update_idem, Function.update_idem] at h3
  have hrun := ((ReflTransGen.single t1).tail t2).tail t3
  obtain ⟨l, hl, hs⟩ := h3.sound
  have hp3 : s3.refs p = { r with stage := .valid } ::ₘ 0 := by
    rw [h3.refs, Function.update_self]
    rfl
  have hrel : s3.net.release p = (decide (1 < (s3.net.bufs p).inuse.toNat), (s3.net.release p).2) := rfl
  by_cases hone : 1 < (s3.net.bufs p).inuse.toNat
  · rw [decide_eq_true hone] at hrel
    refine ⟨_, hrun.tail (.share hp3 rfl hrel), ?_, h3.demux, l, hl, hs.share hp3 rfl hrel⟩
    show update s3.refs p 0 = _
    rw [h3.refs, Function.update_idem]
  · rw [decide_eq_false hone] at hrel
    have hdrop := hs.drop hp3 rfl hrel
    have hp4 : ((s3.withNet (s3.net.release p).2).withRefs p ({ r with stage := .dropped } ::ₘ 0)).refs p =
        { r with stage := .dropped } ::ₘ 0 := Function.update_self _ _ _
    obtain ⟨l', hl', hback⟩ := hdrop.giveBack hp4 rfl
    refine ⟨_, (hrun.tail (.drop hp3 rfl hrel)).tail (.giveBack hp4 rfl), ?_, h3.demux, l', hl'.trans hl, hback⟩
    show update (update s3.refs p _) p 0 = _
    rw [Function.update_idem, h3.refs, Function.update_idem]

end

/-! ## The loss -/

/-- A packet that is spare no longer. -/
theorem Stands.free_taken (h : Stands pool refs w lost s) (h' : Stands pool (update refs p {r}) w lost s') (hp : p ∈ pool)
    (hspare : Spare refs w lost p) : s'.free + 1 = s.free := by
  rw [h.free_eq, h'.free_eq]
  refine card_filter_without hp hspare fun a => ?_
  by_cases ha : a = p
  · subst ha
    simp [Spare]
  · simp [Spare, ha]

/-- **A clone overtaken.** -/
theorem Stands.loses (h : Stands pool (fun _ => 0) [] lost s) (hfree : 2 ≤ s.free) :
    ∃ p ∈ pool, lost p = 0 ∧ ∃ s', ReflTransGen Step s s' ∧ Stands pool (fun _ => 0) [] (update lost p 1) s' := by
  obtain ⟨p, hp, hspare, s1, t1, h1⟩ := h.alloc (by omega)
  have hfree1 := h.free_taken h1 hp hspare
  obtain ⟨q, -, hspare', s2, t2, h2⟩ := h1.alloc (by omega)
  have hqp : q ≠ p := by
    rintro rfl
    have h0 := hspare'.1
    rw [Function.update_self] at h0
    exact Multiset.singleton_ne_zero _ h0
  -- the packet is cloned, the clone sent, and another one arrives behind it
  obtain ⟨s3, t3, h3⟩ := h2.clone (p := p) (r := ⟨.owned, 0, true⟩) (by simp [hqp.symm]) rfl (by simp) hspare.2.2
  obtain ⟨s4, t4, h4⟩ := h3.loop (p := p) (r := ⟨.owned, 0, true⟩)
    (by rw [Function.update_self]; exact Multiset.pair_comm _ _) rfl rfl
  obtain ⟨s5, t5, h5⟩ := h4.loop (p := q) (r := ⟨.owned, 0, true⟩) (by simp [hqp]; rfl) rfl rfl
  -- the original is not freed
  obtain ⟨s6, t6, h6⟩ := h5.refused (p := p) (r := ⟨.owned, 0, false⟩) (by simp [hqp.symm]; rfl) rfl (by simp)
    (by simp [hqp])
  obtain ⟨s7, t7, h7⟩ := h6.demuxed
  obtain ⟨s8, t8, h8⟩ := h7.freed (p := p) (r := ⟨.owned, 0, true⟩) (by simp) rfl (by simp [hqp.symm])
  obtain ⟨s9, t9, h9⟩ := h8.demuxed
  obtain ⟨s10, t10, h10⟩ := h9.freed (p := q) (r := ⟨.owned, 0, true⟩) (by simp [hqp]) rfl (by simp)
  have hrun := (((((((t1.trans t2).tail t3).tail t4).tail t5).tail t6).trans t7).trans t8).trans (t9.trans t10)
  refine ⟨p, hp, hspare.2.2, s10, hrun, ?_⟩
  rw [hspare.2.2] at h10
  convert h10 using 1
  ext1 a
  by_cases hap : a = p
  · subst hap
    simp [hqp.symm]
  · by_cases haq : a = q
    · subst haq
      simp
    · simp [hap, haq]

/-- At rest the free packets are those of which nothing was lost. -/
theorem Stands.free_rest (h : Stands pool (fun _ => 0) [] lost s) : s.free = (pool.filter (lost · = 0)).card := by
  rw [h.free_eq]
  congr 1
  exact Finset.filter_congr fun p _ => by simp [Spare]

theorem Stands.free_lost (h : Stands pool (fun _ => 0) [] lost s) (h' : Stands pool (fun _ => 0) [] (update lost p 1) s')
    (hp : p ∈ pool) (hlost : lost p = 0) : s'.free + 1 = s.free := by
  rw [h.free_rest, h'.free_rest]
  refine card_filter_without hp hlost fun a => ?_
  by_cases ha : a = p
  · subst ha
    simp
  · simp [ha]

/-- It can happen again. -/
theorem Stands.drained (h : Stands pool (fun _ => 0) [] lost s) :
    ∃ lost' s', ReflTransGen Step s s' ∧ Stands pool (fun _ => 0) [] lost' s' ∧ s'.free ≤ 1 := by
  induction hn : s.free generalizing s lost with
  | zero => exact ⟨lost, s, .refl, h, by omega⟩
  | succ n ih =>
    by_cases hone : s.free ≤ 1
    · exact ⟨lost, s, .refl, h, hone⟩
    · obtain ⟨p, hp, hlost, s1, hrun, h1⟩ := h.loses (by omega)
      have hfree := h.free_lost h1 hp hlost
      obtain ⟨lost', s', hrun', h', hle⟩ := ih h1 (by omega)
      exact ⟨lost', s', hrun.trans hrun', h', hle⟩

section
variable {heap : Net.Heap α}

/-- **What is lost stays lost**: whatever happens, at rest there are never more free packets again. -/
theorem Reachable.free_antitone (h : Reachable heap s) (hrest : s.AtRest) (hrun : ReflTransGen Step s s')
    (hrest' : s'.AtRest) : s'.free ≤ s.free := by
  obtain ⟨l, lost, hs⟩ := h.sound
  obtain ⟨l', lost', hs', hle⟩ := run_sound hrun hs
  rw [(hrest.stands hs).free_rest, (hrest'.stands hs').free_rest]
  refine Finset.card_le_card (Finset.monotone_filter_right _ fun p _ h0 => ?_)
  have hp := hle p
  omega

/-- **The pool runs dry**: from any state at rest there is a run to one with at most one free packet,
though every task has freed what it had. -/
theorem Reachable.drains (h : Reachable heap s) (hrest : s.AtRest) :
    ∃ s', ReflTransGen Step s s' ∧ s'.AtRest ∧ s'.free ≤ 1 := by
  obtain ⟨l, lost, hs⟩ := h.sound
  obtain ⟨lost', s', hrun, h', hle⟩ := (hrest.stands hs).drained
  exact ⟨s', hrun, h'.atRest, hle⟩

end

/-! ## From the first packet on -/

theorem atRest_start : (System.start (Net.pkInit plenty loaded).2).AtRest := ⟨fun _ => rfl, rcvdq_start⟩

theorem drains_start :
    ∃ s', ReflTransGen Step (System.start (Net.pkInit plenty loaded).2) s' ∧ s'.AtRest ∧ s'.free ≤ 1 :=
  reachable_start.drains atRest_start

/-- One packet is lost, and 59 are left for good. -/
theorem free_antitone_lost : ∃ s, Reachable plenty s ∧ s.AtRest ∧ s.free = 59 ∧
    ∀ s', ReflTransGen Step s s' → s'.AtRest → s'.free ≤ 59 := by
  obtain ⟨l, hs⟩ := start_sound ⟨rfl, rfl⟩ pkInit_plenty
  have hstart := atRest_start.stands hs
  have hcard : (packets plenty).card = 60 := card_packets ⟨rfl, rfl⟩ pkInit_plenty
  have hfree : (System.start (Net.pkInit plenty loaded).2).free = 60 := by
    rw [hstart.free_rest, Finset.filter_true_of_mem fun _ _ => rfl, hcard]
  obtain ⟨p, hp, hlost, s, hrun, h⟩ := hstart.loses (by omega)
  have hleft := hstart.free_lost h hp hlost
  have hrest := h.atRest
  have hreach : Reachable plenty s := ⟨loaded, ⟨rfl, rfl⟩, pkInit_plenty, hrun⟩
  refine ⟨s, hreach, hrest, by omega, fun s' hrun' hrest' => ?_⟩
  have hle := hreach.free_antitone hrest hrun' hrest'
  omega

end FpgaQuat.Iniche
