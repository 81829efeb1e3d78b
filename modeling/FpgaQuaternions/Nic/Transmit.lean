import FpgaQuaternions.Nic.Handler

/-!
# What a packet puts on the wire

`dm9ka_pkt_send` gives the packet without its two bytes of bias to `TransmitPacket`, which
writes the length to two registers and the bytes, two by two, to the transmit SRAM.

    the bytes handed over are those from nb_prot + 2 on, slen many               (send_hands)
    they depend on the packet alone if it needs no padding                       (send_leaks_iff)

A short one is padded to 64 bytes with what stands behind it in the buffer.
-/

namespace FpgaQuat.Nic

open Effects

/-! ## Registers -/

def nsr : BitVec 32 := 0x01
def tcr : BitVec 32 := 0x02
def mwcmd : BitVec 32 := 0xF8
def txplh : BitVec 32 := 0xFD
def txpll : BitVec 32 := 0xFC

def tcrSet : BitVec 32 := 0x00
def txRequest : BitVec 32 := 0x01

def dmfeSuccess : BitVec 32 := 0

/-! ## TransmitPacket -/

section
variable (dataPtr : BitVec 32 → UInt8) (txLen : BitVec 32)

def txWord (i : BitVec 32) : BitVec 32 :=
  (dataPtr (i + 1)).toBitVec.setWidth 32 <<< 8 ||| (dataPtr i).toBitVec.setWidth 32

/-- Up to the loop that writes the data. -/
def prepare : Prog Io Unit := do
  dm9000aIow imr parSet
  dm9000aIow txplh ((txLen >>> 8) &&& 0xFF)
  dm9000aIow txpll (txLen &&& 0xFF)
  iowr .ioAddr mwcmd

/-- The condition of the loop. -/
def more (i : BitVec 32) : Bool := i < txLen

def writeWord (i : BitVec 32) : Prog Io (BitVec 32) := do
  iowr .ioData (txWord dataPtr i)
  return i + 2

/-- The transmit command and the first look whether it is done. -/
def request : Prog Io (BitVec 16) := do
  dm9000aIow tcr (tcrSet ||| txRequest)
  dm9000aIor nsr

/-- Neither transmit-complete bit is set. -/
def busy (status : BitVec 16) : Bool := status &&& 0x0C == 0

def finish : Prog Io (BitVec 32) := do
  dm9000aIow nsr 0x00
  dm9000aIow imr intrSet
  return dmfeSuccess

/-- The finished runs. -/
def transmitPacket : Runs Io (BitVec 32) := do
  prepare txLen
  let _i ← Runs.loop (more txLen) (writeWord dataPtr) 0
  let status ← request
  let _status ← Runs.loop busy (fun _ => dm9000aIor nsr) status
  finish

end

/-! ## dm9ka_pkt_send -/

def slen (nbPlen : BitVec 32) : BitVec 32 :=
  let slen := nbPlen - BitVec.ofNat 32 ethhdrBias
  if slen < 64 then 64 else slen

/-- `pkt->nb_prot + ETHHDR_BIAS` as an array. -/
def Packet.data (pkt : Packet) (i : BitVec 32) : UInt8 := pkt.nbBuff (pkt.nbProt + ethhdrBias + i.toNat)

def afterSend (pkt : Packet) (rv : BitVec 32) : Prog Io Unit := do
  if rv = dmfeSuccess then
    perform (E := Io) (.sent pkt.nbPlen (pkt.nbBuff pkt.nbProt &&& 0x80 == 0))
  perform (E := Io) .pkFree

def dm9kaPktSend (pkt : Packet) : Runs Io Unit := do
  let rv ← transmitPacket pkt.data (slen pkt.nbPlen)
  afterSend pkt rv

/-! ## What the chip is handed -/

structure Handed where
  index : BitVec 32
  lengthHigh : BitVec 32
  lengthLow : BitVec 32
  words : List (BitVec 16)

namespace Handed

def observe (g : Handed) : Event Io → Handed
  | ⟨.iowr .ioAddr reg, _⟩ => { g with index := reg }
  | ⟨.iowr .ioData data, _⟩ =>
    if g.index = txplh then { g with lengthHigh := data }
    else if g.index = txpll then { g with lengthLow := data }
    else if g.index = mwcmd then { g with words := g.words ++ [data.setWidth 16] }
    else g
  | _ => g

def bytes (g : Handed) : List UInt8 := g.words.flatMap fun w => [lowByte w, highByte w]

end Handed

/-- What a run has handed over. -/
def handed (t : List (Event Io)) : Handed := t.foldl Handed.observe ⟨0, 0, 0, []⟩

/-! ## The copy loop -/

/-- The two bytes of a word. -/
theorem word_low (a b : BitVec 8) :
    (((b.setWidth 32 <<< 8 ||| a.setWidth 32).setWidth 16) &&& 0xFF#16).setWidth 8 = a := by
  ext i hi
  simp only [BitVec.setWidth_or, Nat.reduceLeDiff, BitVec.setWidth_shiftLeft_of_le,
    BitVec.setWidth_setWidth_of_le, BitVec.setWidth_and, BitVec.setWidth_eq, Std.le_refl, BitVec.shiftLeft_eq_zero,
    BitVec.zero_or, BitVec.setWidth_ofNat_of_le, BitVec.getElem_and, Bool.and_eq_left_iff_imp]
  interval_cases i <;> simp

theorem word_high (a b : BitVec 8) :
    ((((b.setWidth 32 <<< 8 ||| a.setWidth 32).setWidth 16) >>> 8) &&& 0xFF#16).setWidth 8 = b := by
  ext i hi
  simp only [BitVec.setWidth_or, Nat.reduceLeDiff, BitVec.setWidth_shiftLeft_of_le,
    BitVec.setWidth_setWidth_of_le, BitVec.setWidth_and, BitVec.setWidth_ofNat_of_le, BitVec.getElem_and,
    BitVec.getElem_setWidth, BitVec.getLsbD_ushiftRight, BitVec.getLsbD_or, BitVec.getLsbD_shiftLeft,
    add_tsub_cancel_left, BitVec.getLsbD_setWidth]
  interval_cases i <;> simp

section
variable (dataPtr : BitVec 32 → UInt8)

theorem lowByte_txWord (i : BitVec 32) : lowByte ((txWord dataPtr i).setWidth 16) = dataPtr i :=
  congrArg UInt8.ofBitVec (word_low _ _)

theorem highByte_txWord (i : BitVec 32) : highByte ((txWord dataPtr i).setWidth 16) = dataPtr (i + 1) :=
  congrArg UInt8.ofBitVec (word_high _ _)

/-- The words of the first `2 * n` bytes. -/
def txWords (n : Nat) : List (BitVec 16) :=
  (List.range n).map fun k => (txWord dataPtr (BitVec.ofNat 32 (2 * k))).setWidth 16

theorem txWords_succ (n : Nat) : txWords dataPtr (n + 1) =
    txWords dataPtr n ++ [(txWord dataPtr (BitVec.ofNat 32 (2 * n))).setWidth 16] := by
  simp [txWords, List.range_succ]

theorem txWords_bytes (n : Nat) : ((txWords dataPtr n).flatMap fun w => [lowByte w, highByte w]) =
    (List.range (2 * n)).map fun k => dataPtr (BitVec.ofNat 32 k) := by
  induction n with
  | zero => rfl
  | succ n ih =>
    have hsucc : BitVec.ofNat 32 (2 * n) + 1#32 = BitVec.ofNat 32 (2 * n + 1) := (BitVec.ofNat_add _ _).symm
    rw [txWords_succ, List.flatMap_append, ih, Nat.mul_succ, List.range_succ, List.range_succ]
    simp [lowByte_txWord, highByte_txWord, hsucc]

variable {txLen : BitVec 32}

/-- At the head of the loop, with `i` even. -/
structure Copying (txLen i : BitVec 32) (g : Handed) : Prop where
  even : i.toNat % 2 = 0
  bound : i.toNat ≤ txLen.toNat + 1
  select : g.index = mwcmd
  high : g.lengthHigh = (txLen >>> 8) &&& 0xFF
  low : g.lengthLow = txLen &&& 0xFF
  words : g.words = txWords dataPtr (i.toNat / 2)

/-- The counter does not wrap around. -/
theorem toNat_add_two (hlen : txLen.toNat + 3 ≤ 2 ^ 32) {i : BitVec 32} (heven : i.toNat % 2 = 0)
    (hi : i.toNat < txLen.toNat) : (i + 2).toNat = i.toNat + 2 := by
  rw [BitVec.toNat_add]
  exact Nat.mod_eq_of_lt (by change i.toNat + 2 < 2 ^ 32; omega)

theorem copying_step (hlen : txLen.toNat + 3 ≤ 2 ^ 32) {i : BitVec 32} {g : Handed} (h : Copying dataPtr txLen i g)
    (hi : i.toNat < txLen.toNat) :
    Copying dataPtr txLen (i + 2) (Handed.observe g ⟨.iowr .ioData (txWord dataPtr i), ()⟩) := by
  have hnext := toNat_add_two hlen h.even hi
  have heven := h.even
  have hobs : Handed.observe g ⟨.iowr .ioData (txWord dataPtr i), ()⟩ =
      { g with words := g.words ++ [(txWord dataPtr i).setWidth 16] } := by
    have hh : ¬ g.index = txplh := by rw [h.select]; decide
    have hl : ¬ g.index = txpll := by rw [h.select]; decide
    rw [Handed.observe, if_neg hh, if_neg hl, if_pos h.select]
  rw [hobs]
  refine ⟨by omega, by omega, h.select, h.high, h.low, ?_⟩
  have hhalf : (i + 2).toNat / 2 = i.toNat / 2 + 1 := by omega
  have hi2 : BitVec.ofNat 32 (2 * (i.toNat / 2)) = i := by
    rw [Nat.mul_div_cancel' (Nat.dvd_of_mod_eq_zero h.even)]
    exact (BitVec.ofNat_toNat 32 i).trans (BitVec.setWidth_eq i)
  rw [hhalf, txWords_succ, hi2, ← h.words]

/-- All that is handed over, whatever register is selected. -/
structure Copied (txLen : BitVec 32) (g : Handed) : Prop where
  high : g.lengthHigh = (txLen >>> 8) &&& 0xFF
  low : g.lengthLow = txLen &&& 0xFF
  words : g.words = txWords dataPtr ((txLen.toNat + 1) / 2)

variable {dataPtr}

theorem Copying.copied {i : BitVec 32} {g : Handed} (h : Copying dataPtr txLen i g) (hi : txLen.toNat ≤ i.toNat) :
    Copied dataPtr txLen g := by
  have heven := h.even
  have hbound := h.bound
  have hhalf : i.toNat / 2 = (txLen.toNat + 1) / 2 := by omega
  exact ⟨h.high, h.low, hhalf ▸ h.words⟩

theorem Copied.select {g : Handed} (h : Copied dataPtr txLen g) (reg : BitVec 32) :
    Copied dataPtr txLen (Handed.observe g ⟨.iowr .ioAddr reg, ()⟩) := ⟨h.high, h.low, h.words⟩

/-- Other registers are of no account. -/
theorem Copied.write {g : Handed} (h : Copied dataPtr txLen g) (reg data : BitVec 32)
    (hreg : reg ≠ txplh ∧ reg ≠ txpll ∧ reg ≠ mwcmd) : Copied dataPtr txLen
      (Handed.observe (Handed.observe g ⟨.iowr .ioAddr reg, ()⟩) ⟨.iowr .ioData data, ()⟩) := by
  obtain ⟨hh, hl, hw⟩ := hreg
  have hobs : Handed.observe (Handed.observe g ⟨.iowr .ioAddr reg, ()⟩) ⟨.iowr .ioData data, ()⟩ =
      { g with index := reg } := by
    simp only [Handed.observe, hh, hl, hw, if_false]
  rw [hobs]
  exact ⟨h.high, h.low, h.words⟩

/-! ## A run of TransmitPacket -/

/-- The observer after a run, whatever was answered. -/
abbrev Ensures {α : Type} (P : Handed → Prop) (R : Runs Io α) (Q : α → Handed → Prop) : Prop :=
  Triple (fun _ => True) Handed.observe P R Q

theorem ensures_prepare : Ensures (fun g => g.words = []) (Runs.of (prepare txLen))
    fun _ => Copying dataPtr txLen 0 := by
  refine triple_of_wp fun g hg => ?_
  refine wp_call fun _ _ => wp_call fun _ _ => wp_call fun _ _ => wp_call fun _ _ => wp_call fun _ _ => wp_call fun _ _ => wp_call fun _ _ => ?_
  exact ⟨rfl, Nat.zero_le _, rfl, rfl, rfl, hg⟩

theorem ensures_copy (hlen : txLen.toNat + 3 ≤ 2 ^ 32) :
    Ensures (Copying dataPtr txLen 0) (Runs.loop (more txLen) (writeWord dataPtr) 0)
      fun _ => Copied dataPtr txLen := by
  have hround : ∀ i, more txLen i = true →
      Ensures (Copying dataPtr txLen i) (Runs.of (writeWord dataPtr i)) (Copying dataPtr txLen) := by
    intro i hi
    have hlt : i.toNat < txLen.toNat := BitVec.lt_def.mp (of_decide_eq_true hi)
    exact triple_of_wp fun g hg => wp_call fun _ _ => copying_step dataPtr hlen hg hlt
  intro g t i hg ht ha
  obtain ⟨hleft, hcopying⟩ := triple_loop hround 0 g t i hg ht ha
  have hge : ¬ i.toNat < txLen.toNat := fun h => of_decide_eq_false hleft (BitVec.lt_def.mpr h)
  exact hcopying.copied (Nat.not_lt.mp hge)

theorem ensures_request : Ensures (Copied dataPtr txLen) (Runs.of request) fun _ => Copied dataPtr txLen := by
  refine triple_of_wp fun g hg => ?_
  have hcopied := (hg.write tcr (tcrSet ||| txRequest) (by decide)).select nsr
  exact wp_call fun _ _ => wp_call fun _ _ => wp_call fun _ _ => wp_call fun _ _ => hcopied

theorem ensures_wait (status : BitVec 16) : Ensures (Copied dataPtr txLen)
    (Runs.loop busy (fun _ => dm9000aIor nsr) status)
    fun _ => Copied dataPtr txLen := by
  have hround : ∀ s, busy s = true → Ensures (Copied dataPtr txLen)
      (Runs.of (dm9000aIor nsr)) fun _ => Copied dataPtr txLen := fun _ _ =>
    triple_of_wp fun _ hg => wp_call fun _ _ => wp_call fun _ _ => hg.select nsr
  intro g t s hg ht ha
  exact (triple_loop (L := fun _ => Copied dataPtr txLen) hround status g t s hg ht ha).2

theorem ensures_finish : Ensures (Copied dataPtr txLen) (Runs.of finish) fun _ => Copied dataPtr txLen := by
  refine triple_of_wp fun g hg => ?_
  have hcopied := (hg.write nsr 0x00 (by decide)).write imr intrSet (by decide)
  exact wp_call fun _ _ => wp_call fun _ _ => wp_call fun _ _ => wp_call fun _ _ => hcopied

theorem ensures_transmitPacket (hlen : txLen.toNat + 3 ≤ 2 ^ 32) :
    Ensures (fun g => g.words = []) (transmitPacket dataPtr txLen) fun _ => Copied dataPtr txLen :=
  triple_bind ensures_prepare fun _ => triple_bind (ensures_copy hlen) fun _ =>
    triple_bind ensures_request fun status => triple_bind (ensures_wait status) fun _ => ensures_finish

end

/-! ## A packet on the wire -/

theorem ensures_afterSend (pkt : Packet) (rv txLen : BitVec 32) {dataPtr : BitVec 32 → UInt8} :
    Ensures (Copied dataPtr txLen) (Runs.of (afterSend pkt rv)) fun _ => Copied dataPtr txLen := by
  refine triple_of_wp fun g hg => ?_
  unfold afterSend
  split
  · exact wp_call fun _ _ => wp_call fun _ _ => hg
  · exact wp_call fun _ _ => hg

theorem toNat_slen {nbPlen : BitVec 32} (h : 2 ≤ nbPlen.toNat) :
    (slen nbPlen).toNat = max 64 (nbPlen.toNat - 2) := by
  have hbias : (BitVec.ofNat 32 ethhdrBias).toNat = 2 := rfl
  have hle : BitVec.ofNat 32 ethhdrBias ≤ nbPlen := BitVec.le_def.mpr (hbias.trans_le h)
  have hsub : (nbPlen - BitVec.ofNat 32 ethhdrBias).toNat = nbPlen.toNat - 2 := by
    rw [BitVec.toNat_sub_of_le hle, hbias]
  unfold slen
  dsimp only
  split
  · next hlt =>
    have hlt' : nbPlen.toNat - 2 < 64 := hsub ▸ BitVec.lt_def.mp hlt
    exact (max_eq_left hlt'.le).symm
  · next hge =>
    have hge' : ¬ nbPlen.toNat - 2 < 64 := fun hlt => hge (BitVec.lt_def.mpr (hsub.symm ▸ hlt))
    rw [hsub, max_eq_right (Nat.not_lt.mp hge')]

/-- Far enough from the end of the range for the counter of the loop. -/
theorem slen_bound {nbPlen : BitVec 32} (h : 2 ≤ nbPlen.toNat) : (slen nbPlen).toNat + 3 ≤ 2 ^ 32 := by
  have hmax := nbPlen.isLt
  rw [toNat_slen h]
  omega

/-- **What a run hands over**: the length, and that many bytes from behind the bias on. -/
theorem send_hands {pkt : Packet} (hplen : 2 ≤ pkt.nbPlen.toNat) {t : List (Event Io)}
    (h : dm9kaPktSend pkt t ()) :
    (handed t).lengthHigh = (slen pkt.nbPlen >>> 8) &&& 0xFF ∧
    (handed t).lengthLow = slen pkt.nbPlen &&& 0xFF ∧
    (handed t).bytes.take (slen pkt.nbPlen).toNat =
      (List.range (slen pkt.nbPlen).toNat).map fun k => pkt.nbBuff (pkt.nbProt + 2 + k) := by
  have hlen := slen_bound hplen
  have hsend : Ensures (fun g => g.words = []) (dm9kaPktSend pkt)
      fun _ => Copied pkt.data (slen pkt.nbPlen) :=
    triple_bind (ensures_transmitPacket hlen) fun rv => ensures_afterSend pkt rv _
  obtain ⟨hhigh, hlow, hwords⟩ := hsend ⟨0, 0, 0, []⟩ t () rfl h fun _ _ => trivial
  refine ⟨hhigh, hlow, ?_⟩
  obtain ⟨n, hn⟩ : ∃ n, n = (slen pkt.nbPlen).toNat := ⟨_, rfl⟩
  have hmin : min n (2 * ((n + 1) / 2)) = n := by omega
  have hbytes : (handed t).bytes = (List.range (2 * ((n + 1) / 2))).map fun k => pkt.data (BitVec.ofNat 32 k) := by
    rw [Handed.bytes, hn, ← txWords_bytes]
    exact congrArg _ hwords
  rw [hbytes, ← hn, ← List.map_take, List.take_range, hmin]
  refine List.map_congr_left fun k hk => ?_
  have hk32 : k < 2 ^ 32 := by
    have := List.mem_range.mp hk
    omega
  rw [Packet.data, BitVec.toNat_ofNat, Nat.mod_eq_of_lt hk32]
  rfl

/-! ## Every packet can be sent -/

/-- A chip that has always sent the last packet. -/
def idle (_ : Unit) : (op : Call) → Call.Ans op × Unit
  | .iowr _ _ => ((), ())
  | .iord _ => (0x0C, ())
  | .store _ _ => ((), ())
  | .pkAlloc _ => (none, ())
  | .cticks => (0, ())
  | .putq _ => ((), ())
  | .signalPktDemux => ((), ())
  | .discard => ((), ())
  | .autoReset => ((), ())
  | .sent _ _ => ((), ())
  | .pkFree => ((), ())

theorem returns_of_idle {α : Type} {p : Prog Io α} {a : α} (h : p.exec (E := Io) idle () = some (a, ())) :
    ∃ t, Returns p t a := by
  obtain ⟨t, ht, -⟩ := does_iff_exec.mpr h
  exact ⟨t, ht⟩

/-- The loop that writes the data ends. -/
theorem copy_runs (dataPtr : BitVec 32 → UInt8) {txLen : BitVec 32} (hlen : txLen.toNat + 3 ≤ 2 ^ 32) (n : Nat)
    {i : BitVec 32} (heven : i.toNat % 2 = 0) (hn : txLen.toNat - i.toNat ≤ n) :
    ∃ t i', Runs.loop (more txLen) (writeWord dataPtr) i t i' := by
  induction n generalizing i with
  | zero =>
    have hdone : more txLen i = false := decide_eq_false fun h => by
      have := BitVec.lt_def.mp h
      omega
    exact ⟨[], i, (Runs.loop_of_false hdone).mpr ⟨rfl, rfl⟩⟩
  | succ n ih =>
    by_cases hi : i < txLen
    · have hlt := BitVec.lt_def.mp hi
      have hnext := toNat_add_two hlen heven hlt
      have hmore : more txLen i = true := decide_eq_true hi
      obtain ⟨t, i', ht⟩ := ih (i := i + 2) (by omega) (by omega)
      obtain ⟨u, hu⟩ := returns_of_idle (p := writeWord dataPtr i) rfl
      exact ⟨u ++ t, i', (Runs.loop_of_true hmore).mpr ⟨u, i + 2, t, rfl, hu, ht⟩⟩
    · have hdone : more txLen i = false := decide_eq_false hi
      exact ⟨[], i, (Runs.loop_of_false hdone).mpr ⟨rfl, rfl⟩⟩

theorem send_runs {pkt : Packet} (hplen : 2 ≤ pkt.nbPlen.toNat) : ∃ t, dm9kaPktSend pkt t () := by
  have hlen := slen_bound hplen
  have hwait : Runs.loop busy (fun _ => dm9000aIor nsr) 0x0C [] 0x0C := (Runs.loop_of_false rfl).mpr ⟨rfl, rfl⟩
  obtain ⟨t1, h1⟩ := returns_of_idle (p := prepare (slen pkt.nbPlen)) rfl
  obtain ⟨t2, i, h2⟩ := copy_runs pkt.data hlen _ (i := 0) rfl le_rfl
  obtain ⟨t3, h3⟩ := returns_of_idle (p := request) rfl
  obtain ⟨t4, h4⟩ := returns_of_idle (p := finish) rfl
  obtain ⟨t5, h5⟩ := returns_of_idle (p := afterSend pkt dmfeSuccess) rfl
  exact ⟨_, _, dmfeSuccess, _, rfl, ⟨_, _, _, rfl, h1, _, _, _, rfl, h2, _, _, _, rfl, h3, _, _, _, rfl, hwait, h4⟩, h5⟩

/-! ## Leaks -/

/-- Nothing but the packet decides what is put on the wire. -/
def NoLeak (pkt : Packet) : Prop :=
  ∀ pkt' : Packet, pkt'.nbPlen = pkt.nbPlen →
    (∀ i < pkt.nbPlen.toNat, pkt'.nbBuff (pkt'.nbProt + i) = pkt.nbBuff (pkt.nbProt + i)) →
    ∀ t t', dm9kaPktSend pkt t () → dm9kaPktSend pkt' t' () →
      (handed t').lengthHigh = (handed t).lengthHigh ∧ (handed t').lengthLow = (handed t).lengthLow ∧
      (handed t').bytes.take (slen pkt.nbPlen).toNat = (handed t).bytes.take (slen pkt.nbPlen).toNat

theorem noLeak_of_long {pkt : Packet} (hlong : 66 ≤ pkt.nbPlen.toNat) : NoLeak pkt := by
  intro pkt' hplen hbytes t t' ht ht'
  have hslen : (slen pkt.nbPlen).toNat = pkt.nbPlen.toNat - 2 := by
    rw [toNat_slen (by omega)]
    omega
  obtain ⟨hhigh, hlow, hdata⟩ := send_hands (by omega) ht
  obtain ⟨hhigh', hlow', hdata'⟩ := send_hands (by rw [hplen]; omega) ht'
  rw [hplen] at hhigh' hlow' hdata'
  refine ⟨hhigh'.trans hhigh.symm, hlow'.trans hlow.symm, ?_⟩
  rw [hdata', hdata, hslen]
  refine List.map_congr_left fun k hk => ?_
  have hlt := List.mem_range.mp hk
  rw [Nat.add_assoc, Nat.add_assoc]
  exact hbytes (2 + k) (by omega)

/-- The byte behind a short packet is put on the wire. -/
theorem leak_of_short {pkt : Packet} (hplen : 2 ≤ pkt.nbPlen.toNat) (hshort : pkt.nbPlen.toNat < 66) :
    ¬ NoLeak pkt := by
  intro hleak
  obtain ⟨behind, hb⟩ : ∃ behind, behind = pkt.nbProt + pkt.nbPlen.toNat := ⟨_, rfl⟩
  obtain ⟨pkt', hp⟩ : ∃ pkt' : Packet, pkt' =
    { pkt with nbBuff := Function.update pkt.nbBuff behind (pkt.nbBuff behind + 1) } := ⟨_, rfl⟩
  have heq : pkt'.nbPlen = pkt.nbPlen := by rw [hp]
  have hplen' : 2 ≤ pkt'.nbPlen.toNat := by rw [heq]; exact hplen
  have hprot : pkt'.nbProt = pkt.nbProt := by rw [hp]
  have hsame : ∀ i < pkt.nbPlen.toNat, pkt'.nbBuff (pkt'.nbProt + i) = pkt.nbBuff (pkt.nbProt + i) := by
    intro i hi
    have hne : pkt.nbProt + i ≠ behind := by omega
    rw [hp]
    exact Function.update_of_ne hne _ _
  have hother : pkt'.nbBuff behind ≠ pkt.nbBuff behind := by
    rw [hp]
    simp
  obtain ⟨t, ht⟩ := send_runs hplen
  obtain ⟨t', ht'⟩ := send_runs hplen'
  have hslen : (slen pkt.nbPlen).toNat = 64 := by
    rw [toNat_slen hplen]
    omega
  obtain ⟨-, -, hwire⟩ := hleak pkt' heq hsame t t' ht ht'
  obtain ⟨-, -, hdata⟩ := send_hands hplen ht
  obtain ⟨-, -, hdata'⟩ := send_hands hplen' ht'
  rw [heq] at hdata'
  rw [hdata, hdata', hslen, hprot] at hwire
  have hk : pkt.nbPlen.toNat - 2 ∈ List.range 64 := List.mem_range.mpr (by omega)
  have hbyte := List.map_inj_left.mp hwire _ hk
  have haddr : pkt.nbProt + 2 + (pkt.nbPlen.toNat - 2) = behind := by omega
  rw [haddr] at hbyte
  exact hother hbyte

/-- **A packet leaks no memory if and only if it needs no padding.** -/
theorem send_leaks_iff (pkt : Packet) (hplen : 2 ≤ pkt.nbPlen.toNat) : NoLeak pkt ↔ 66 ≤ pkt.nbPlen.toNat :=
  ⟨fun h => Nat.not_lt.mp fun hshort => leak_of_short hplen hshort h, noLeak_of_long⟩

def blank (nbPlen : BitVec 32) : Packet := ⟨fun _ => 0, ethhdrSize, nbPlen, 0, 0, 0⟩

/-- The shortest packet that is not padded. -/
theorem sixty_four_bytes_keep : NoLeak (blank 66) := (send_leaks_iff (blank 66) (by decide)).mpr (by decide)

/-- An ARP request of 42 bytes goes out with the 22 that stand behind it. -/
theorem arp_leaks : 2 ≤ (blank 44).nbPlen.toNat ∧ ¬ NoLeak (blank 44) :=
  ⟨by decide, leak_of_short (by decide) (by decide)⟩

end FpgaQuat.Nic
