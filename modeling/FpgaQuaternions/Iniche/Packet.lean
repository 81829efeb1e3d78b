import FpgaQuaternions.Iniche.Queue
import FpgaQuaternions.Nic.Descriptor

/-!
# The packet buffers of the network stack

`pk_init`, `pk_alloc`, `pk_validate` and `pk_free` of `pktalloc.c`, built with `NPDEBUG` and
without `HEAPBUFS`, `LINKED_PKTS` and `ALIGN_BUFS`.  A packet is its `struct netbuf`; the link is kept with
those of the queues, and what points into the data area counts from `nb_buff`.

`pk_alloc` and `pk_free` are given in the pieces that an interrupt can come between: the queue
operations are critical sections of their own.
-/

namespace FpgaQuat.Iniche

open LinkedList
open Function (update)
open Nic (lilbufsiz bigbufsiz)

def alignType : Nat := 4
def numlilbufs : Nat := 30
def numbigbufs : Nat := 30
def maxpackets : Nat := 60

/-- `'M'`. -/
def marker : UInt8 := 0x4D

/-- `struct netbuf`. -/
structure Netbuf where
  /-- What was allocated for the data, the memory markers included; `nb_buff` is `ALIGN_TYPE` behind
  its start. -/
  area : Nat → UInt8
  nbBlen : Nat
  nbProt : Nat
  nbPlen : BitVec 32
  nbTstamp : BitVec 32
  net : Option Nat
  type : BitVec 16
  inuse : BitVec 32

/-- The queues of packets. -/
inductive Name where
  | bigfreeq
  | lilfreeq
  | rcvdq
deriving DecidableEq, Repr

/-- The length of the packets in a free queue. -/
def Name.size : Name → Nat
  | .bigfreeq => bigbufsiz
  | .lilfreeq => lilbufsiz
  | .rcvdq => 0

/-- The indices of `memestats`. -/
inductive Memerr where
  | badRegularBufLen
  | guardBandViolated
  | multipleFree
  | inconsistentLocation
deriving DecidableEq, Repr

structure Net (α : Type) extends Queues Name α where
  bufs : α → Netbuf
  memestats : Memerr → BitVec 32
  maxLnh : Nat

namespace Net

variable {α : Type} [DecidableEq α]

def incrSharedVar (s : Net α) (e : Memerr) : Net α :=
  { s with memestats := update s.memestats e (s.memestats e + 1) }

def withBuf (s : Net α) (p : α) (b : Netbuf) : Net α := { s with bufs := update s.bufs p b }

def getq (s : Net α) (k : Name) : Option α × Net α :=
  let (r, links, q) := Iniche.getq s.links (s.queue k)
  (r, { s with links, queue := update s.queue k q })

def putq (s : Net α) (k : Name) (p : α) : Net α :=
  let (links, q) := Iniche.putq s.links (s.queue k) p
  { s with links, queue := update s.queue k q }

/-! ## pk_alloc -/

/-- The queue that a buffer is taken from, if the length is not out of question. -/
def chooseq (s : Net α) (len : Nat) : Option Name :=
  if len > bigbufsiz then none
  else if len > lilbufsiz ∨ (s.queue .lilfreeq).qLen = 0 then some .bigfreeq
  else some .lilfreeq

/-- The fields that are set in the buffer taken. -/
def prepare (s : Net α) (p : α) : Net α :=
  s.withBuf p { s.bufs p with nbProt := s.maxLnh, nbPlen := 0, net := none, inuse := 1 }

def pkAlloc (s : Net α) (len : Nat) : Option α × Net α :=
  match s.chooseq len with
  | none => (none, s)
  | some k =>
    match s.getq k with
    | (none, s) => (none, s)
    | (some p, s) => (some p, s.prepare p)

/-! ## pk_free -/

/-- A packet with a link is part of a queue. -/
def checkLink (s : Net α) (pkt : α) : Option Memerr :=
  if s.links pkt ≠ none ∧ 1 ≤ (s.bufs pkt).inuse.toNat then some .inconsistentLocation else none

/-- `for (p = q_head; p; p = p->next) if (p == pkt)`; `none` when the fuel is gone first. -/
def inFreeq (h : Links α) (pkt : α) : Nat → Option α → Option Bool
  | 0, _ => none
  | _ + 1, none => some false
  | fuel + 1, some p => if p = pkt then some true else inFreeq h pkt fuel (h p)

/-- Whether the packet is already in the free queue that its length sends it to. -/
def checkFreeq (fuel : Nat) (s : Net α) (pkt : α) : Option (Option Memerr) :=
  let report : Bool → Option Memerr := fun found => if found then some .multipleFree else none
  if (s.bufs pkt).nbBlen = bigbufsiz then (inFreeq s.links pkt fuel (s.queue .bigfreeq).qHead).map report
  else if (s.bufs pkt).nbBlen = lilbufsiz then (inFreeq s.links pkt fuel (s.queue .lilfreeq).qHead).map report
  else some (some .badRegularBufLen)

/-- The memory markers. -/
def Marked (b : Netbuf) : Prop := (∀ j < alignType, b.area j = marker) ∧ b.area (alignType + b.nbBlen) = marker

instance : DecidablePred Marked := fun _ => inferInstanceAs (Decidable (_ ∧ _))

def checkMarkers (s : Net α) (pkt : α) : Option Memerr :=
  if Marked (s.bufs pkt) then none else some .guardBandViolated

/-- The first check that fails is recorded. -/
def pkValidate (fuel : Nat) (s : Net α) (pkt : α) : Option (Int × Net α) :=
  match s.checkLink pkt with
  | some e => some (-1, s.incrSharedVar e)
  | none =>
    match s.checkFreeq fuel pkt with
    | none => none
    | some (some e) => some (-1, s.incrSharedVar e)
    | some none =>
      match s.checkMarkers pkt with
      | some e => some (-1, s.incrSharedVar e)
      | none => some (0, s)

/-- `pkt->inuse-- > 1`. -/
def release (s : Net α) (pkt : α) : Bool × Net α :=
  (1 < (s.bufs pkt).inuse.toNat, s.withBuf pkt { s.bufs pkt with inuse := (s.bufs pkt).inuse - 1 })

/-- Back into its free queue. -/
def giveBack (s : Net α) (pkt : α) : Net α :=
  if (s.bufs pkt).nbBlen = bigbufsiz then s.putq .bigfreeq pkt
  else if (s.bufs pkt).nbBlen = lilbufsiz then s.putq .lilfreeq pkt
  else s

def pkFree (fuel : Nat) (s : Net α) (pkt : α) : Option (Net α) :=
  match s.pkValidate fuel pkt with
  | none => none
  | some (e, s) =>
    if e ≠ 0 then some s
    else
      match s.release pkt with
      | (true, s) => some s
      | (false, s) => some (s.giveBack pkt)

/-! ## pk_init -/

/-- What `npalloc` returns for the `i`th packet: the structure, and the area of so many bytes, both
filled with zeros. -/
structure Heap (α : Type) where
  netbuf : Nat → Option α
  area : Nat → Nat → Bool
  distinct : ∀ {i j p}, netbuf i = some p → netbuf j = some p → i = j

/-- The area with its markers. -/
def markedArea (size : Nat) (j : Nat) : UInt8 := if j < alignType ∨ j = alignType + size then marker else 0

/-- A packet of `pk_init`. -/
def newBuf (size : Nat) : Netbuf where
  area := markedArea size
  nbBlen := size
  nbProt := 0
  nbPlen := 0
  nbTstamp := 0
  net := none
  type := 0
  inuse := 0

/-- The first packets are the big ones. -/
def slot (i : Nat) : Nat × Name := if i < numbigbufs then (bigbufsiz, .bigfreeq) else (lilbufsiz, .lilfreeq)

/-- The loop of `pk_init`, from some `i` on. -/
def pkInitLoop (heap : Heap α) (i : Nat) (s : Net α) : Int × Net α :=
  if i < numbigbufs + numlilbufs then
    match heap.netbuf i with
    | none => (-1, s)
    | some packet =>
      if maxpackets ≤ i then (-1, s)
      else
        let (size, k) := slot i
        if heap.area i (size + alignType + 1) then
          pkInitLoop heap (i + 1) ((s.withBuf packet (newBuf size)).putq k packet)
        else (-1, s)
  else
    -- `q_min` starts from what there is
    (0, { s with queue := fun k =>
      match k with
      | .bigfreeq => { s.queue .bigfreeq with qMin := numbigbufs }
      | .lilfreeq => { s.queue .lilfreeq with qMin := numlilbufs }
      | .rcvdq => s.queue .rcvdq })
termination_by numbigbufs + numlilbufs - i

def pkInit (heap : Heap α) (s : Net α) : Int × Net α := pkInitLoop heap 0 s

/-! ## The operations on queues that hold lists -/

section
variable {s : Net α} {l : Name → List α} {k : Name} {p : α} {r : List α}

/-- What has nothing to do with the queues. -/
theorem getq_rest {s' : Net α} {o : Option α} (h : s.getq k = (o, s')) :
    s'.bufs = s.bufs ∧ s'.memestats = s.memestats := by
  obtain rfl : (s.getq k).2 = s' := by rw [h]
  exact ⟨rfl, rfl⟩

theorem getq_nil (hs : s.Holds l) (hk : l k = []) : s.getq k = (none, s) := by
  have hq := hs.queue k
  rw [hk] at hq
  unfold getq
  rw [Iniche.getq_nil hq]
  show (none, { s with queue := update s.queue k (s.queue k) }) = (none, s)
  rw [Function.update_eq_self]

theorem getq_cons (hs : s.Holds l) (hk : l k = p :: r) : ∃ q,
    s.getq k = (some p, { s with links := update s.links p none, queue := update s.queue k q }) ∧
      Queues.Holds ⟨update s.links p none, update s.queue k q⟩ (update l k r) := by
  have hq := hs.queue k
  rw [hk] at hq
  obtain ⟨q, hget, hq'⟩ := Iniche.getq_cons hq
  have hmem : p ∈ l k := by simp [hk]
  refine ⟨q, ?_, hs.update hq' (fun k' hk' a ha => ?_) fun k' hk' => ?_⟩
  · unfold getq
    rw [hget]
  · refine Function.update_of_ne (fun he => hs.disjoint k' k hk' ha ?_) _ _
    rwa [he]
  · refine List.disjoint_of_subset_left (fun a ha => ?_) (hs.disjoint k k' hk'.symm)
    rw [hk]
    exact List.mem_cons_of_mem _ ha

theorem getq_eq_some {s' : Net α} (hs : s.Holds l) (h : s.getq k = (some p, s')) : ∃ r, l k = p :: r := by
  cases hk : l k with
  | nil =>
    rw [getq_nil hs hk] at h
    cases h
  | cons a r =>
    obtain ⟨q, hget, -⟩ := getq_cons hs hk
    rw [hget] at h
    cases h
    exact ⟨r, rfl⟩

theorem getq_eq_none {s' : Net α} (hs : s.Holds l) (h : s.getq k = (none, s')) : l k = [] ∧ s' = s := by
  cases hk : l k with
  | nil =>
    rw [getq_nil hs hk] at h
    exact ⟨rfl, by cases h; rfl⟩
  | cons a r =>
    obtain ⟨q, hget, -⟩ := getq_cons hs hk
    rw [hget] at h
    cases h

theorem putq_holds (hs : s.Holds l) (hp : ∀ k, p ∉ l k) : (s.putq k p).Holds (update l k (l k ++ [p])) := by
  refine hs.update (putq_isQueue (hs.queue k) (hp k)) (fun k' hk a ha => ?_) fun k' hk => ?_
  · exact Iniche.putq_links (hs.queue k) (fun he => hp k' (he ▸ ha)) (hs.disjoint k' k hk ha)
  · rw [List.disjoint_append_left, List.singleton_disjoint]
    exact ⟨hs.disjoint k k' hk.symm, hp k'⟩

theorem putq_links (hs : s.Holds l) {q : α} (hqp : q ≠ p) (hq : q ∉ l k) : (s.putq k p).links q = s.links q :=
  Iniche.putq_links (hs.queue k) hqp hq

omit [DecidableEq α] in
theorem qLen_eq_zero (hs : s.Holds l) : (s.queue k).qLen = 0 ↔ l k = [] := by
  rw [(hs.queue k).len]
  simp

theorem inFreeq_eq_some {h : Links α} {fuel : Nat} {q : Option α} {found : Bool} (hseg : Seg h q r none)
    (hrun : inFreeq h p fuel q = some found) : found = decide (p ∈ r) := by
  induction fuel generalizing q r with
  | zero => cases hrun
  | succ fuel ih =>
    cases r with
    | nil =>
      have hq : q = none := hseg
      rw [hq] at hrun
      cases hrun
      rfl
    | cons a r =>
      rw [hseg.1, inFreeq] at hrun
      by_cases ha : a = p
      · rw [if_pos ha] at hrun
        cases hrun
        simp [ha]
      · rw [if_neg ha] at hrun
        rw [ih hseg.2 hrun]
        simp [Ne.symm ha]

theorem exists_inFreeq {h : Links α} {fuel : Nat} {q : Option α} (hseg : Seg h q r none) (hfuel : r.length < fuel) :
    ∃ found, inFreeq h p fuel q = some found := by
  induction r generalizing fuel q with
  | nil =>
    obtain ⟨fuel, rfl⟩ : ∃ f, fuel = f + 1 := ⟨fuel - 1, by simp at hfuel; omega⟩
    have hq : q = none := hseg
    rw [hq]
    exact ⟨false, rfl⟩
  | cons a r ih =>
    obtain ⟨fuel, rfl⟩ : ∃ f, fuel = f + 1 := ⟨fuel - 1, by omega⟩
    rw [hseg.1, inFreeq]
    by_cases ha : a = p
    · exact ⟨true, if_pos ha⟩
    · rw [if_neg ha]
      exact ih hseg.2 (by simp at hfuel; omega)

/-- The free queue that a length sends a packet to. -/
def home (b : Netbuf) : Option Name :=
  if b.nbBlen = bigbufsiz then some .bigfreeq
  else if b.nbBlen = lilbufsiz then some .lilfreeq
  else none

/-- What the search for the packet comes to. -/
def searched (s : Net α) (l : Name → List α) (p : α) : Option Memerr :=
  match home (s.bufs p) with
  | none => some .badRegularBufLen
  | some k => if p ∈ l k then some .multipleFree else none

theorem checkFreeq_eq_some {fuel : Nat} {e : Option Memerr} (hs : s.Holds l) (h : s.checkFreeq fuel p = some e) :
    e = s.searched l p := by
  have hfound : ∀ {k : Name}, (inFreeq s.links p fuel (s.queue k).qHead).map
      (fun found => if found then some Memerr.multipleFree else none) = some e →
      e = if p ∈ l k then some .multipleFree else none := by
    intro k h
    obtain ⟨found, hrun, rfl⟩ := Option.map_eq_some_iff.mp h
    rw [inFreeq_eq_some (hs.queue k).linked.seg hrun]
    simp
  unfold checkFreeq at h
  unfold searched home
  split at h
  · next hbig => rw [if_pos hbig]; exact hfound h
  · next hbig =>
    rw [if_neg hbig]
    split at h
    · next hlil => rw [if_pos hlil]; exact hfound h
    · next hlil => rw [if_neg hlil]; exact (Option.some_inj.mp h).symm

theorem checkFreeq_eq {fuel : Nat} (hs : s.Holds l) (hfuel : ∀ k, (l k).length < fuel) :
    s.checkFreeq fuel p = some (s.searched l p) := by
  have hrun : ∃ e, s.checkFreeq fuel p = some e := by
    have hfound : ∀ k, ∃ found, inFreeq s.links p fuel (s.queue k).qHead = some found := fun k =>
      exists_inFreeq (hs.queue k).linked.seg (hfuel k)
    obtain ⟨big, hbig⟩ := hfound .bigfreeq
    obtain ⟨lil, hlil⟩ := hfound .lilfreeq
    unfold checkFreeq
    rw [hbig, hlil]
    split
    · exact ⟨_, rfl⟩
    · split <;> exact ⟨_, rfl⟩
  obtain ⟨e, he⟩ := hrun
  rw [he, checkFreeq_eq_some hs he]

omit [DecidableEq α] in
theorem home_ne_rcvdq (b : Netbuf) : home b ≠ some .rcvdq := by
  unfold home
  split
  · exact fun h => by cases h
  · split <;> exact fun h => by cases h

theorem giveBack_eq (h : home (s.bufs p) = some k) : s.giveBack p = s.putq k p := by
  unfold home at h
  unfold giveBack
  split at h
  · next hbig =>
    cases h
    rw [if_pos hbig]
  · next hbig =>
    rw [if_neg hbig]
    split at h
    · next hlil =>
      cases h
      rw [if_pos hlil]
    · cases h

/-- The first of the checks that finds fault with the packet. -/
def fault (s : Net α) (l : Name → List α) (p : α) : Option Memerr :=
  s.checkLink p <|> s.searched l p <|> s.checkMarkers p

end

/-- Behind the checks. -/
theorem pkFree_accepted {s : Net α} {fuel : Nat} {p : α} (h : s.pkValidate fuel p = some (0, s)) :
    s.pkFree fuel p = some (if 1 < (s.bufs p).inuse.toNat then (s.release p).2 else (s.release p).2.giveBack p) := by
  unfold pkFree
  rw [h]
  by_cases hone : 1 < (s.bufs p).inuse.toNat
  · simp [release, hone]
  · simp [release, hone]

/-! ## The pool that the driver sees -/

section
variable {s : Net α} {l : Name → List α}

def block (b : Netbuf) : Nic.Block := ⟨fun j => b.area (alignType + j), b.nbBlen⟩

/-- The packets in the free queues have the length that sent them there. -/
def Sorted (s : Net α) (l : Name → List α) : Prop := ∀ k ≠ Name.rcvdq, ∀ p ∈ l k, home (s.bufs p) = some k

omit [DecidableEq α] in
theorem home_eq_big {b : Netbuf} : home b = some .bigfreeq ↔ b.nbBlen = bigbufsiz := by
  unfold home
  split
  · next h => exact iff_of_true rfl h
  · next h => split <;> simp [h]

omit [DecidableEq α] in
theorem home_eq_lil {b : Netbuf} : home b = some .lilfreeq ↔ b.nbBlen = lilbufsiz := by
  unfold home
  split
  · next h => simp [h, bigbufsiz, lilbufsiz]
  · next h => split <;> simp_all

def pool (s : Net α) (l : Name → List α) (h : s.Sorted l) : Nic.Pool where
  lilfreeq := (l .lilfreeq).map fun p => block (s.bufs p)
  bigfreeq := (l .bigfreeq).map fun p => block (s.bufs p)
  lil_size := by
    intro b hb
    obtain ⟨p, hp, rfl⟩ := List.mem_map.mp hb
    exact home_eq_lil.mp (h .lilfreeq (by decide) p hp)
  big_size := by
    intro b hb
    obtain ⟨p, hp, rfl⟩ := List.mem_map.mp hb
    exact home_eq_big.mp (h .bigfreeq (by decide) p hp)

omit [DecidableEq α] in
theorem pool_congr {s' : Net α} {l' : Name → List α} (h' : s'.Sorted l') {lil big : List Nic.Block}
    {hlil : ∀ b ∈ lil, b.nbBlen = lilbufsiz} {hbig : ∀ b ∈ big, b.nbBlen = bigbufsiz}
    (hblock : ∀ p, block (s'.bufs p) = block (s.bufs p))
    (h1 : (l' .lilfreeq).map (fun p => block (s.bufs p)) = lil)
    (h2 : (l' .bigfreeq).map (fun p => block (s.bufs p)) = big) : s'.pool l' h' = ⟨lil, big, hlil, hbig⟩ := by
  subst h1 h2
  unfold pool
  simp only [hblock]

theorem prepare_block (s : Net α) (p q : α) : block ((s.prepare p).bufs q) = block (s.bufs q) := by
  by_cases hq : q = p
  · subst hq
    simp [prepare, withBuf, block]
  · simp [prepare, withBuf, Function.update_of_ne hq]

theorem prepare_home (s : Net α) (p q : α) : home ((s.prepare p).bufs q) = home (s.bufs q) := by
  have h : ((s.prepare p).bufs q).nbBlen = (s.bufs q).nbBlen := congrArg Nic.Block.nbBlen (prepare_block s p q)
  unfold home
  rw [h]

theorem pkAlloc_eq {len : Nat} {k : Name} (hk : s.chooseq len = some k) :
    s.pkAlloc len = ((s.getq k).1, match (s.getq k).1 with
      | none => (s.getq k).2
      | some p => (s.getq k).2.prepare p) := by
  simp only [pkAlloc, hk]
  split <;> simp_all

/-- One of the free queues gives its first packet. -/
theorem pkAlloc_taken {len : Nat} {k : Name} {s : Net α} (hs : s.Holds l) (hsort : s.Sorted l)
    (hk : s.chooseq len = some k) :
    (s.pkAlloc len).2.Sorted (update l k (l k).tail) ∧ (s.pkAlloc len).2.Holds (update l k (l k).tail) ∧
      (s.pkAlloc len).1 = (l k).head? ∧ ∀ p, block ((s.pkAlloc len).2.bufs p) = block (s.bufs p) := by
  have hsort' : ∀ {s' : Net α}, (∀ p, home (s'.bufs p) = home (s.bufs p)) → s'.Sorted (update l k (l k).tail) := by
    intro s' hhome k' hk' p hp
    rw [hhome]
    by_cases hkk : k' = k
    · subst hkk
      rw [Function.update_self] at hp
      exact hsort k' hk' p (List.mem_of_mem_tail hp)
    · rw [Function.update_of_ne hkk] at hp
      exact hsort k' hk' p hp
  cases hl : l k with
  | nil =>
    have hrun : s.pkAlloc len = (none, s) := by rw [pkAlloc_eq hk, getq_nil hs hl]
    have hupd : update l k [] = l := by rw [← hl, Function.update_eq_self]
    have hs' : s.Holds (update l k []) := by rwa [hupd]
    rw [hl] at hsort'
    rw [hrun]
    exact ⟨hsort' fun _ => rfl, hs', rfl, fun _ => rfl⟩
  | cons p r =>
    obtain ⟨q, hget, hs'⟩ := getq_cons hs hl
    have hrun := pkAlloc_eq hk
    rw [hget] at hrun
    rw [hl] at hsort'
    rw [hrun]
    exact ⟨hsort' (prepare_home _ p), hs', rfl, prepare_block _ p⟩

/-- **pk_alloc answers as the pool does.** -/
theorem pkAlloc_pool (hs : s.Holds l) (hsort : s.Sorted l) (len : Nat) :
    ∃ l', (s.pkAlloc len).2.Holds l' ∧ ∃ hsort' : (s.pkAlloc len).2.Sorted l',
      (s.pool l hsort).pkAlloc len =
        ((s.pkAlloc len).1.map fun p => block (s.bufs p), (s.pkAlloc len).2.pool l' hsort') := by
  unfold Nic.Pool.pkAlloc
  by_cases hlen : len > bigbufsiz
  · have hnone : s.pkAlloc len = (none, s) := by
      unfold pkAlloc chooseq
      rw [if_pos hlen]
    rw [if_pos hlen, hnone]
    exact ⟨l, hs, hsort, rfl⟩
  · rw [if_neg hlen]
    have hempty : (s.pool l hsort).lilfreeq.length = 0 ↔ (s.queue .lilfreeq).qLen = 0 := by
      rw [qLen_eq_zero hs]
      simp [pool]
    by_cases hlil : len > lilbufsiz ∨ (s.queue .lilfreeq).qLen = 0
    · have hk : s.chooseq len = some .bigfreeq := by
        unfold chooseq
        rw [if_neg hlen, if_pos hlil]
      obtain ⟨hsort', hs', hhead, hblock⟩ := pkAlloc_taken hs hsort hk
      rw [if_pos (by rwa [hempty])]
      refine ⟨_, hs', hsort', Prod.ext ?_ (pool_congr hsort' hblock ?_ ?_).symm⟩
      · rw [hhead]
        exact List.head?_map
      · rw [Function.update_of_ne (by decide)]
        rfl
      · rw [Function.update_self]
        exact List.map_tail
    · have hk : s.chooseq len = some .lilfreeq := by
        unfold chooseq
        rw [if_neg hlen, if_neg hlil]
      obtain ⟨hsort', hs', hhead, hblock⟩ := pkAlloc_taken hs hsort hk
      rw [if_neg (by rwa [hempty])]
      refine ⟨_, hs', hsort', Prod.ext ?_ (pool_congr hsort' hblock ?_ ?_).symm⟩
      · rw [hhead]
        exact List.head?_map
      · rw [Function.update_self]
        exact List.map_tail
      · rw [Function.update_of_ne (by decide)]
        rfl

end

/-! ## After pk_init -/

section
variable {heap : Heap α} {s : Net α} {l : Name → List α} {i : Nat}

/-- The allocations for the `i`th packet succeed. -/
def Serves (heap : Heap α) (i : Nat) : Prop :=
  (heap.netbuf i).isSome ∧ heap.area i ((slot i).1 + alignType + 1) = true

/-- The queues hold the first `i` packets. -/
structure Filled (heap : Heap α) (i : Nat) (s : Net α) (l : Name → List α) : Prop where
  holds : s.Holds l
  length : ∀ k, (l k).length = ((List.range i).filter fun j => (slot j).2 = k).length
  fresh : ∀ k, ∀ p ∈ l k, s.bufs p = newBuf k.size
  packets : ∀ p, (∃ k, p ∈ l k) ↔ ∃ j < i, heap.netbuf j = some p

omit [DecidableEq α] in
theorem slot_size (i : Nat) : (slot i).1 = (slot i).2.size := by
  unfold slot
  split <;> rfl

omit [DecidableEq α] in
theorem filled_zero (heap : Heap α) (hs : s.queue = fun _ => .zero α) : Filled heap 0 s fun _ => [] where
  holds := by
    have h : s.toQueues = ⟨s.links, fun _ => .zero α⟩ := by rw [← hs]
    rw [h]
    exact Queues.holds_zero _
  length _ := rfl
  fresh := by simp
  packets := by simp

/-- **One packet more.** -/
theorem Filled.succ (h : Filled heap i s l) {p : α} (hp : heap.netbuf i = some p) :
    Filled heap (i + 1) ((s.withBuf p (newBuf (slot i).1)).putq (slot i).2 p)
      (update l (slot i).2 (l (slot i).2 ++ [p])) := by
  have hnew : ∀ k, p ∉ l k := by
    intro k hk
    obtain ⟨j, hj, hpj⟩ := (h.packets p).mp ⟨k, hk⟩
    have := heap.distinct hp hpj
    omega
  have hmem : ∀ k q, q ∈ update l (slot i).2 (l (slot i).2 ++ [p]) k ↔ q ∈ l k ∨ q = p ∧ k = (slot i).2 := by
    intro k q
    by_cases hk : k = (slot i).2
    · subst hk
      simp
    · simp [hk]
  refine ⟨putq_holds h.holds hnew, fun k => ?_, fun k q hq => ?_, fun q => ?_⟩
  · rw [List.range_succ, List.filter_append, List.length_append, ← h.length k]
    by_cases hk : k = (slot i).2
    · subst hk
      simp
    · rw [Function.update_of_ne hk]
      simp [Ne.symm hk]
  · show update s.bufs p (newBuf (slot i).1) q = _
    rcases (hmem k q).mp hq with hq | ⟨rfl, rfl⟩
    · have hqp : q ≠ p := fun he => hnew k (by rwa [← he])
      rw [Function.update_of_ne hqp]
      exact h.fresh k q hq
    · rw [Function.update_self, slot_size]
  · simp only [hmem, exists_or, exists_and_left, exists_eq, and_true, h.packets q, Nat.lt_succ_iff_lt_or_eq, or_and_right]
    refine or_congr Iff.rfl ?_
    constructor
    · rintro rfl
      exact ⟨i, rfl, hp⟩
    · rintro ⟨j, rfl, hj⟩
      exact Option.some_inj.mp (hj.symm.trans hp)

theorem slots (k : Name) : ((List.range (numbigbufs + numlilbufs)).filter fun j => (slot j).2 = k).length =
    match k with
    | .bigfreeq => numbigbufs
    | .lilfreeq => numlilbufs
    | .rcvdq => 0 := by
  cases k <;> decide

/-- How the loop of `pk_init` ends from some `i` on. -/
structure Ends (heap : Heap α) (i : Nat) (s : Net α) (r : Int × Net α) : Prop where
  success : r.1 = 0 ↔ ∀ j, i ≤ j → j < numbigbufs + numlilbufs → Serves heap j
  filled : r.1 = 0 → ∃ l, Filled heap (numbigbufs + numlilbufs) r.2 l
  quiet : r.2.memestats = s.memestats

omit [DecidableEq α] in
theorem Ends.fail (s : Net α) (hi : i < numbigbufs + numlilbufs) (h : ¬ Serves heap i) : Ends heap i s (-1, s) where
  success := iff_of_false (by show ¬ (-1 : Int) = 0; decide) fun hall => h (hall i le_rfl hi)
  filled := fun h0 => absurd h0 (by show ¬ (-1 : Int) = 0; decide)
  quiet := rfl

omit [DecidableEq α] in
theorem Ends.step {r : Int × Net α} {s' : Net α} (h : Ends heap (i + 1) s' r) (hi : Serves heap i)
    (hs : s'.memestats = s.memestats) : Ends heap i s r where
  success := by
    rw [h.success]
    constructor
    · intro hall j hij hj
      rcases Nat.eq_or_lt_of_le hij with rfl | hlt
      · exact hi
      · exact hall j hlt hj
    · intro hall j hij hj
      exact hall j (by omega) hj
  filled := h.filled
  quiet := h.quiet.trans hs

omit [DecidableEq α] in
/-- `q_min` is set at the end. -/
theorem Filled.finish (h : Filled heap (numbigbufs + numlilbufs) s l) : Filled heap (numbigbufs + numlilbufs)
    { s with queue := fun k => match k with
      | .bigfreeq => { s.queue .bigfreeq with qMin := numbigbufs }
      | .lilfreeq => { s.queue .lilfreeq with qMin := numlilbufs }
      | .rcvdq => s.queue .rcvdq } l where
  holds.queue k := by
    have hq := h.holds.queue k
    have hlen := hq.len
    rw [h.length k, slots k] at hlen
    cases k with
    | bigfreeq => exact ⟨hq.linked, hq.len, hlen.ge, hq.max⟩
    | lilfreeq => exact ⟨hq.linked, hq.len, hlen.ge, hq.max⟩
    | rcvdq => exact hq
  holds.disjoint := h.holds.disjoint
  length := h.length
  fresh := h.fresh
  packets := h.packets

theorem pkInitLoop_ends (h : Filled heap i s l) (hi : i ≤ numbigbufs + numlilbufs) :
    Ends heap i s (pkInitLoop heap i s) := by
  fun_induction pkInitLoop heap i s generalizing l with
  | case1 i s hlt hnone => exact .fail s hlt fun hserve => by simp [Serves, hnone] at hserve
  | case2 i s hlt packet hp hmax =>
    -- `MAXPACKETS` is enough
    simp only [maxpackets, numbigbufs, numlilbufs] at hmax hlt
    omega
  | case3 i s hlt packet hp hmax size k hslot harea ih =>
    have hnext := h.succ hp
    rw [hslot] at hnext
    exact (ih hnext hlt).step ⟨by rw [hp]; rfl, by rw [hslot]; exact harea⟩ rfl
  | case4 i s hlt packet hp hmax size k hslot harea =>
    exact .fail s hlt fun hserve => harea (by simpa [hslot] using hserve.2)
  | case5 i s hge =>
    obtain rfl : i = numbigbufs + numlilbufs := by omega
    exact ⟨iff_of_true rfl fun j hj hlt => absurd hlt (by omega), fun _ => ⟨l, h.finish⟩, rfl⟩

/-- **pk_init** returns 0 if and only if there was memory for everything; then all packets are in
their free queues. -/
theorem pkInit_ends (heap : Heap α) (hs : s.queue = fun _ => .zero α) : Ends heap 0 s (pkInit heap s) :=
  pkInitLoop_ends (filled_zero heap hs) (by decide)

end

end Net

end FpgaQuat.Iniche
