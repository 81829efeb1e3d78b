import FpgaQuaternions.Nic.Handler

/-!
# What the packets handed to the stack describe

Of every frame that a block is found for, the calls of a run show the status and the length
that were read, the block, the addresses stored to and the packet put into `rcvdq`.

    the stores stay inside a block of even size that has room for the length     (stores_in_block)
    the packet describes bytes stored just before, if the length is 14 or more   (packet_described_iff)

For a shorter one `rx_len - 14` wraps around.
-/

namespace FpgaQuat.Nic

open Effects

/-! ## The blocks of pk_alloc -/

def lilbufsiz : Nat := 128
def bigbufsiz : Nat := 1536

/-- The free queues, with the blocks `pk_init` puts there. -/
structure Pool where
  lilfreeq : List Block
  bigfreeq : List Block
  lil_size : ∀ b ∈ lilfreeq, b.nbBlen = lilbufsiz
  big_size : ∀ b ∈ bigfreeq, b.nbBlen = bigbufsiz

/-- Built without `HEAPBUFS`. -/
def Pool.pkAlloc (pool : Pool) (len : Nat) : Option Block × Pool :=
  if len > bigbufsiz then (none, pool)
  else if len > lilbufsiz ∨ pool.lilfreeq.length = 0 then
    (pool.bigfreeq.head?, { pool with
      bigfreeq := pool.bigfreeq.tail
      big_size := fun b hb => pool.big_size b (List.mem_of_mem_tail hb) })
  else
    (pool.lilfreeq.head?, { pool with
      lilfreeq := pool.lilfreeq.tail
      lil_size := fun b hb => pool.lil_size b (List.mem_of_mem_tail hb) })

/-- What the handler needs of a block it asked for. -/
structure Block.Fits (b : Block) (len : Nat) : Prop where
  even : b.nbBlen % 2 = 0
  room : len ≤ b.nbBlen

theorem Pool.pkAlloc_fits {pool : Pool} {len : Nat} {b : Block} (h : (pool.pkAlloc len).1 = some b) :
    b.Fits len := by
  rw [Pool.pkAlloc] at h
  split at h
  · cases h
  · next hlen =>
    split at h
    · have hb := pool.big_size b (List.mem_of_mem_head? h)
      exact ⟨by rw [hb]; rfl, by omega⟩
    · next hlil =>
      have hb := pool.lil_size b (List.mem_of_mem_head? h)
      exact ⟨by rw [hb]; rfl, by omega⟩

/-- `pk_alloc` is answered from some pool; other tasks take and free blocks in between. -/
def FromPool : Event Io → Prop
  | ⟨.pkAlloc len, r⟩ => ∃ pool : Pool, r = (pool.pkAlloc len).1
  | _ => True

/-! ## What the calls of a run show -/

/-- A frame that a block was found for. -/
structure Accepted where
  rxSts : BitVec 16
  rxLen : BitVec 16
  block : Block
  /-- Where bytes were stored. -/
  stored : List Nat
  /-- What was put into `rcvdq`. -/
  packets : List Packet

structure Watch where
  /-- The last two words read. -/
  rxSts : BitVec 16
  rxLen : BitVec 16
  /-- The latest first. -/
  accepted : List Accepted

namespace Watch

def observe (g : Watch) : Event Io → Watch
  | ⟨.iord _, w⟩ => { g with rxSts := g.rxLen, rxLen := w }
  | ⟨.pkAlloc _, some block⟩ => { g with accepted := ⟨g.rxSts, g.rxLen, block, [], []⟩ :: g.accepted }
  | ⟨.store addr _, _⟩ =>
    { g with accepted := g.accepted.modifyHead fun a => { a with stored := a.stored ++ [addr] } }
  | ⟨.putq pkt, _⟩ =>
    { g with accepted := g.accepted.modifyHead fun a => { a with packets := a.packets ++ [pkt] } }
  | _ => g

end Watch

/-- The frames accepted in a run. -/
def accepted (t : List (Event Io)) : List Accepted := (t.foldl Watch.observe ⟨0, 0, []⟩).accepted

/-- The stores stay inside the block, and one packet is handed over, which describes bytes
stored. -/
def Accepted.Described (a : Accepted) : Prop :=
  (∀ addr ∈ a.stored, addr < a.block.nbBlen) ∧
    ∃ pkt, a.packets = [pkt] ∧ pkt.nbPlen.toNat + 14 = a.rxLen.toNat ∧
      ∀ addr, pkt.nbProt ≤ addr → addr < pkt.nbProt + pkt.nbPlen.toNat → addr ∈ a.stored

/-! ## One frame -/

/-- How the handler has dealt with a frame at its end. -/
structure Accepted.Done (allowed : Event Io → Prop) (a : Accepted) : Prop where
  good : a.rxSts &&& 0xBF00 = 0 ∧ a.rxLen.toNat < maxPacketSize
  alloc : allowed ⟨.pkAlloc (a.rxLen.toNat + ethhdrBias), some a.block⟩
  stored : a.stored = List.range' ethhdrBias (2 * ((a.rxLen.toNat + 1) / 2))
  packet : ∃ pkt, a.packets = [pkt] ∧ pkt.nbProt = ethhdrSize ∧
    pkt.nbPlen = BitVec.ofNat 32 a.rxLen.toNat - 14

section
variable (allowed : Event Io → Prop)

/-- `Q` will hold of the watch. -/
abbrev Ends {α : Type} (p : Prog Io α) (Q : α → Watch → Prop) (g : Watch) : Prop :=
  wp allowed Watch.observe (fun _ => True) p Q g

variable {allowed}

theorem ends_rxReady {Q : BitVec 8 → Watch → Prop} {g : Watch}
    (h : ∀ rxRdy g', g'.accepted = g.accepted → Q rxRdy g') : Ends allowed dm9000aRxReady Q g :=
  wp_call fun _ _ => wp_call fun _ _ => wp_call fun _ _ => h _ _ rfl

theorem ends_dump (rxLen i : Nat) {Q : Unit → Watch → Prop} {g : Watch}
    (h : ∀ g', g'.accepted = g.accepted → Q () g') : Ends allowed (dump rxLen i) Q g := by
  fun_induction dump rxLen i generalizing g with
  | case1 i hi ih => exact wp_call fun _ _ => ih fun g' hg => h g' hg
  | case2 i hi => exact h g rfl

theorem ends_copy (rxLen i dataPtr : Nat) (buff : Nat → UInt8) {Q : (Nat → UInt8) → Watch → Prop} {g : Watch}
    (h : ∀ buff g', g'.accepted = g.accepted.modifyHead (fun a =>
        { a with stored := a.stored ++ List.range' dataPtr (2 * ((rxLen - i + 1) / 2)) }) → Q buff g') :
    Ends allowed (copy rxLen i dataPtr buff) Q g := by
  fun_induction copy rxLen i dataPtr buff generalizing g with
  | case1 i dataPtr buff hi ih =>
    refine wp_call fun _ _ => wp_call fun _ _ => wp_call fun _ _ => ih _ fun buff g' hg => h buff g' ?_
    have hlen : 2 * ((rxLen - i + 1) / 2) = 2 * ((rxLen - (i + 2) + 1) / 2) + 2 := by omega
    rw [hg, hlen]
    simp [Watch.observe, List.range'_succ, Function.comp_def]
  | case2 i dataPtr buff hi =>
    have hlen : (rxLen - i + 1) / 2 = 0 := by omega
    refine h buff g ?_
    rw [hlen]
    cases g.accepted <;> simp

/-- A pass of the loop is done with its frame. -/
theorem ends_receive (iface : Nat) {Q : Unit → Watch → Prop} {g : Watch}
    (hskip : ∀ g', g'.accepted = g.accepted → Q () g')
    (hdone : ∀ a g', a.Done allowed → g'.accepted = a :: g.accepted → Q () g') :
    Ends allowed (receive iface) Q g := by
  refine wp_call fun _ _ => wp_call fun rxSts _ => wp_call fun rxLen _ => ?_
  show Ends allowed (checkStatus iface rxSts rxLen) Q { g with rxSts := rxSts, rxLen := rxLen }
  unfold checkStatus
  split
  · next hgood =>
    refine wp_call fun r hr => ?_
    cases r with
    | none => exact wp_call fun _ _ => ends_dump _ _ fun g' hg => hskip g' hg
    | some block =>
      unfold accept
      refine (wp_bind _ _ _ _).mpr (ends_copy _ _ _ _ fun buff g' hg => ?_)
      refine wp_call fun now _ => wp_call fun _ _ => wp_call fun _ _ => ?_
      obtain ⟨pkt, hpkt⟩ : ∃ pkt : Packet, pkt = {
        nbBuff := buff
        nbProt := ethhdrSize
        nbPlen := BitVec.ofNat 32 rxLen.toNat - 14
        nbTstamp := now
        net := iface
        type := Driver.eType buff } := ⟨_, rfl⟩
      refine hdone ⟨rxSts, rxLen, block, List.range' ethhdrBias (2 * ((rxLen.toNat + 1) / 2)), [pkt]⟩ _
        ⟨hgood, hr, rfl, pkt, rfl, by rw [hpkt], by rw [hpkt]⟩ ?_
      show g'.accepted.modifyHead _ = _
      rw [hg, hpkt]
      rfl
  · exact ends_dump _ _ hskip

/-- At the head of the loop the handler is done with every frame accepted so far. -/
def AllDone (allowed : Event Io → Prop) (g : Watch) : Prop := ∀ a ∈ g.accepted, a.Done allowed

theorem AllDone.congr {g g' : Watch} (hg : AllDone allowed g) (h : g'.accepted = g.accepted) :
    AllDone allowed g' := by
  intro a ha
  rw [h] at ha
  exact hg a ha

theorem ends_turn (iface : Nat) {g : Watch} (hg : AllDone allowed g) :
    Ends allowed (turn iface) (fun _ => AllDone allowed) g := by
  refine (wp_bind _ _ _ _).mpr (ends_receive iface ?_ ?_)
  · intro g1 h1
    exact ends_rxReady fun _ g2 h2 => hg.congr (h2.trans h1)
  · intro a g1 ha h1
    have hall : AllDone allowed { g with accepted := a :: g.accepted } := List.forall_mem_cons.mpr ⟨ha, hg⟩
    exact ends_rxReady fun _ g2 h2 => hall.congr (h2.trans h1)

theorem ends_enter {g : Watch} (hg : AllDone allowed g) :
    Ends allowed enter (fun _ => AllDone allowed) g := by
  refine wp_call fun _ _ => wp_call fun _ _ => wp_call fun _ _ => wp_call fun _ _ => ?_
  exact ends_rxReady fun _ g1 h1 => hg.congr h1

theorem ends_writeAll (ws : List (BitVec 32 × BitVec 32)) {Q : Unit → Watch → Prop} {g : Watch} (h : Q () g) :
    Ends allowed (writeAll ws) Q g := by
  induction ws with
  | nil => exact h
  | cons w ws ih => exact wp_call fun _ _ => wp_call fun _ _ => ih

theorem ends_leave (rxRdy : BitVec 8) {g : Watch} (hg : AllDone allowed g) :
    Ends allowed (leave rxRdy) (fun _ => AllDone allowed) g := by
  have hrest : Ends allowed (do dm9000aIow isr 0x3F; dm9000aIow imr intrSet) (fun _ => AllDone allowed) g :=
    wp_call fun _ _ => wp_call fun _ _ => wp_call fun _ _ => wp_call fun _ _ => hg
  unfold leave
  split
  · exact (wp_bind _ _ _ _).mpr (wp_call fun _ _ => ends_writeAll _ hrest)
  · exact hrest

/-- The handler is done with every frame accepted in a run. -/
theorem isr_done {iface : Nat} {t : List (Event Io)} (h : dm9000aIsr iface t ()) (ha : ∀ e ∈ t, allowed e) :
    ∀ a ∈ accepted t, a.Done allowed := by
  have hrun : Triple allowed Watch.observe (AllDone allowed) (dm9000aIsr iface) fun _ => AllDone allowed :=
    triple_bind (triple_of_wp fun g hg => ends_enter hg) fun _ =>
      triple_bind (triple_loop (L := fun _ => AllDone allowed) (fun _ _ => triple_of_wp fun g hg => ends_turn iface hg) _)
        fun rxRdy => triple_of_wp fun g hg => ends_leave rxRdy hg.2
  exact hrun ⟨0, 0, []⟩ t () (List.forall_mem_nil _) h ha

end

/-! ## What is described -/

theorem Accepted.Done.mem_stored {allowed : Event Io → Prop} {a : Accepted} (h : a.Done allowed) {addr : Nat} :
    addr ∈ a.stored ↔ 2 ≤ addr ∧ addr < 2 + 2 * ((a.rxLen.toNat + 1) / 2) := by
  rw [h.stored, List.mem_range'_1]
  rfl

/-- Two bytes at a time, also for an odd length. -/
theorem Accepted.Done.in_block {allowed : Event Io → Prop} {a : Accepted} (h : a.Done allowed)
    (hfits : a.block.Fits (a.rxLen.toNat + ethhdrBias)) : ∀ addr ∈ a.stored, addr < a.block.nbBlen := by
  intro addr haddr
  have hend := (h.mem_stored.mp haddr).2
  have hroom : a.rxLen.toNat + 2 ≤ a.block.nbBlen := hfits.room
  have heven := hfits.even
  omega

theorem Accepted.Done.described_iff {allowed : Event Io → Prop} {a : Accepted} (h : a.Done allowed)
    (hfits : a.block.Fits (a.rxLen.toNat + ethhdrBias)) : a.Described ↔ 14 ≤ a.rxLen.toNat := by
  obtain ⟨pkt, hpkts, hprot, hplen⟩ := h.packet
  have hlen := a.rxLen.isLt
  have hwrap : pkt.nbPlen.toNat = (2 ^ 32 - 14 + a.rxLen.toNat) % 2 ^ 32 := by
    rw [hplen, BitVec.toNat_sub, BitVec.toNat_ofNat, Nat.mod_eq_of_lt (by omega : a.rxLen.toNat < 2 ^ 32)]
    rfl
  constructor
  · rintro ⟨-, pkt', hpkts', hplen', -⟩
    obtain rfl : pkt = pkt' := List.singleton_inj.mp (hpkts.symm.trans hpkts')
    omega
  · intro hlong
    have hplen' : pkt.nbPlen.toNat = a.rxLen.toNat - 14 := by omega
    refine ⟨h.in_block hfits, pkt, hpkts, by omega, fun addr hfrom hto => h.mem_stored.mpr ?_⟩
    have hprot16 : pkt.nbProt = 16 := hprot
    omega

theorem accepted_done {iface : Nat} {t : List (Event Io)} (h : dm9000aIsr iface t ()) :
    ∀ a ∈ accepted t, a.Done fun _ => True := isr_done h fun _ _ => trivial

/-- Only frames that the test lets through are accepted. -/
theorem accepted_good {iface : Nat} {t : List (Event Io)} (h : dm9000aIsr iface t ()) :
    ∀ a ∈ accepted t, a.rxSts &&& 0xBF00 = 0 ∧ a.rxLen.toNat < maxPacketSize := by
  intro a ha
  exact (accepted_done h a ha).good

/-- **With the blocks of `pk_alloc` no store leaves its block**, whatever the NIC reports. -/
theorem stores_in_block {iface : Nat} {t : List (Event Io)} (h : dm9000aIsr iface t ())
    (hpool : ∀ e ∈ t, FromPool e) : ∀ a ∈ accepted t, ∀ addr ∈ a.stored, addr < a.block.nbBlen := by
  intro a ha
  have hdone := isr_done h hpool a ha
  obtain ⟨pool, hblock⟩ := hdone.alloc
  exact hdone.in_block (Pool.pkAlloc_fits hblock.symm)

/-- **The packet describes what was stored, from 14 bytes on.** -/
theorem packet_described_iff {iface : Nat} {t : List (Event Io)} (h : dm9000aIsr iface t ()) {a : Accepted}
    (ha : a ∈ accepted t) (hfits : a.block.Fits (a.rxLen.toNat + ethhdrBias)) :
    a.Described ↔ 14 ≤ a.rxLen.toNat :=
  (accepted_done h a ha).described_iff hfits

/-! A run for every good frame, alone in the SRAM. -/

def copied (ws : List (BitVec 16)) (ptr : Nat) : List (Event Io) :=
  match ws with
  | [] => []
  | w :: ws => ⟨.iord .ioData, w⟩ :: ⟨.store ptr (lowByte w), ()⟩ :: ⟨.store (ptr + 1) (highByte w), ()⟩ ::
      copied ws (ptr + 2)

theorem returns_copy (rxLen i ptr : Nat) (buff : Nat → UInt8) {ws : List (BitVec 16)}
    (hlen : ws.length = (rxLen - i + 1) / 2) :
    Returns (copy rxLen i ptr buff) (copied ws ptr) (store ws ptr buff) := by
  induction ws generalizing i ptr buff with
  | nil =>
    rw [List.length_nil] at hlen
    rw [copy, if_neg (by omega)]
    exact .pure _
  | cons w ws ih =>
    rw [List.length_cons] at hlen
    rw [copy, if_pos (by omega)]
    exact .call (.call (.call (ih (i + 2) (ptr + 2) _ (by omega))))

def filled (f : Frame) (block : Block) : List (Event Io) :=
  copied f.payload ethhdrBias ++
    [⟨.cticks, 0⟩, ⟨.putq (Driver.packet 0 f block.nbBuff 0), ()⟩, ⟨.signalPktDemux, ()⟩]

def takenIn (f : Frame) (block : Block) : List (Event Io) :=
  [⟨.iowr .ioAddr mrcmd, ()⟩, ⟨.iord .ioData, f.status⟩, ⟨.iord .ioData, f.length⟩,
    ⟨.pkAlloc (f.length.toNat + ethhdrBias), some block⟩] ++ filled f block

def lone (f : Frame) (block : Block) : List (Event Io) := entered ++ (takenIn f block ++ poll 0 0 ++ left)

theorem isr_lone {f : Frame} (hf : f.Good) (block : Block) : dm9000aIsr 0 (lone f block) () := by
  have hlen : f.payload.length = (f.length.toNat - 0 + 1) / 2 := f.payload_length
  have hgood : f.status &&& 0xBF00 = 0 ∧ f.length.toNat < maxPacketSize := hf
  have haccept : Returns (accept 0 f.length.toNat block) (filled f block) () :=
    returns_bind.mpr ⟨_, _, _, rfl, returns_copy _ 0 _ _ hlen, .call (.call (.call (.pure ())))⟩
  have hcheck : Returns (checkStatus 0 f.status f.length)
      (⟨.pkAlloc (f.length.toNat + ethhdrBias), some block⟩ :: filled f block) () := by
    rw [checkStatus, if_pos hgood]
    exact .call haccept
  exact isr_one (.call (.call (.call hcheck)))

def lilBlock : Block := ⟨fun _ => 0, lilbufsiz⟩

def shortest : Frame where
  status := 0x0001
  length := 14
  payload := List.replicate 7 0
  payload_length := rfl

/-- With 14 bytes the packet is empty. -/
theorem shortest_described : ∃ a ∈ accepted (lone shortest lilBlock), a.Described := by
  have hgood : shortest.Good := by decide
  have hmem : accepted (lone shortest lilBlock) = [⟨0x0001, 14, lilBlock, List.range' 2 14,
    [Driver.packet 0 shortest lilBlock.nbBuff 0]⟩] := rfl
  refine ⟨_, by rw [hmem]; exact List.mem_singleton_self _, ?_⟩
  exact (packet_described_iff (isr_lone hgood lilBlock) (by rw [hmem]; exact List.mem_singleton_self _)
    ⟨rfl, by decide⟩).mpr (by decide)

def tooShort : Frame where
  status := 0x0001
  length := 4
  payload := [0x1211, 0x1413]
  payload_length := rfl

/-- A good status with a length of 4 hands over a packet of `2 ^ 32 - 10` bytes. -/
theorem short_packet_wraps : ¬ ∀ (iface : Nat) (t : List (Event Io)) (a : Accepted), dm9000aIsr iface t () →
    a ∈ accepted t → a.block.Fits (a.rxLen.toNat + ethhdrBias) → a.Described := by
  intro hall
  have hmem : accepted (lone tooShort lilBlock) = [⟨0x0001, 4, lilBlock, [2, 3, 4, 5],
    [Driver.packet 0 tooShort lilBlock.nbBuff 0]⟩] := rfl
  obtain ⟨-, pkt, hpkt, hlen, -⟩ := hall 0 _ _ (isr_lone (f := tooShort) (by decide) lilBlock)
    (by rw [hmem]; exact List.mem_singleton_self _) ⟨rfl, by decide⟩
  obtain rfl : Driver.packet 0 tooShort lilBlock.nbBuff 0 = pkt := List.singleton_inj.mp hpkt
  revert hlen
  decide

end FpgaQuat.Nic
