import FpgaQuaternions.Lib.Effects
import FpgaQuaternions.Nic.Receive

/-!
# The driver as a program

`dm9000a_isr` once more, as the calls it makes one by one: the accesses to the two ports,
the stores through `data_ptr` and what it asks of the network stack.  Between two calls
anything may happen to the chip.

    where nothing else happens, a run of the handler is `Driver.dm9000aIsr`     (does_isr_iff)
    whatever happens, it ends with a look into the SRAM, the acknowledgement
    and the enabling of the interrupts                                            (isr_tail)
-/

namespace FpgaQuat.Nic

open Effects

/-! ## Calls -/

/-- What `pk_alloc` returns: `nb_buff`, with anything in it, and `nb_blen`. -/
structure Block where
  nbBuff : Nat → UInt8
  nbBlen : Nat

inductive Call where
  | iowr (port : Port) (data : BitVec 32)
  | iord (port : Port)
  /-- `*data_ptr++ = byte`, the address counted from `nb_buff`. -/
  | store (addr : Nat) (byte : UInt8)
  | pkAlloc (len : Nat)
  | cticks
  | putq (pkt : Packet)
  | signalPktDemux
  | discard
  | autoReset
  /-- The statistics of a packet sent. -/
  | sent (octets : BitVec 32) (unicast : Bool)
  | pkFree

abbrev Call.Ans : Call → Type
  | .iord _ => BitVec 16
  | .pkAlloc _ => Option Block
  | .cticks => BitVec 32
  | _ => Unit

abbrev Io : Sig := ⟨Call, Call.Ans⟩

def iowr (port : Port) (data : BitVec 32) : Prog Io Unit := perform (E := Io) (.iowr port data)

def iord (port : Port) : Prog Io (BitVec 16) := perform (E := Io) (.iord port)

def dm9000aIow (reg data : BitVec 32) : Prog Io Unit := do
  iowr .ioAddr reg
  iowr .ioData data

def dm9000aIor (reg : BitVec 32) : Prog Io (BitVec 16) := do
  iowr .ioAddr reg
  iord .ioData

def dm9000aRxReady : Prog Io (BitVec 8) := do
  let _ ← dm9000aIor mrcmdx
  let rv ← iord .ioData
  return (rv &&& 0x03).setWidth 8

/-! ## dm9000a_isr -/

def dump (rxLen i : Nat) : Prog Io Unit :=
  if i < rxLen then do
    let _ ← iord .ioData
    dump rxLen (i + 2)
  else return ()
termination_by rxLen - i

def storeByte (buff : Nat → UInt8) (addr : Nat) (byte : BitVec 16) : Prog Io (Nat → UInt8) :=
  let byte := UInt8.ofBitVec (byte.setWidth 8)
  .call (.store addr byte) fun _ => .pure (Function.update buff addr byte)

def copy (rxLen i dataPtr : Nat) (buff : Nat → UInt8) : Prog Io (Nat → UInt8) :=
  if i < rxLen then do
    let tmp ← iord .ioData
    let buff ← storeByte buff dataPtr (tmp &&& 0xFF)
    let buff ← storeByte buff (dataPtr + 1) ((tmp >>> 8) &&& 0xFF)
    copy rxLen (i + 2) (dataPtr + 2) buff
  else return buff
termination_by rxLen - i

/-- What is done with a frame that a block was found for. -/
def accept (iface rxLen : Nat) (block : Block) : Prog Io Unit := do
  let buff ← copy rxLen 0 ethhdrBias block.nbBuff
  .call .cticks fun now =>
    .call (.putq {
      nbBuff := buff
      nbProt := ethhdrSize
      nbPlen := BitVec.ofNat 32 rxLen - 14
      nbTstamp := now
      net := iface
      type := Driver.eType buff }) fun _ =>
    .call .signalPktDemux .pure

/-- `GOOD or BAD?` -/
def checkStatus (iface : Nat) (rxSts rxLen : BitVec 16) : Prog Io Unit :=
  if rxSts &&& 0xBF00 = 0 ∧ rxLen.toNat < maxPacketSize then
    .call (.pkAlloc (rxLen.toNat + ethhdrBias)) fun
      | none => .call .discard fun _ => dump rxLen.toNat 0
      | some block => accept iface rxLen.toNat block
  else dump rxLen.toNat 0

/-- The body of the loop up to the next poll. -/
def receive (iface : Nat) : Prog Io Unit := do
  iowr .ioAddr mrcmd
  let rxSts ← iord .ioData
  let rxLen ← iord .ioData
  checkStatus iface rxSts rxLen

/-- Up to the loop. -/
def enter : Prog Io (BitVec 8) := do
  dm9000aIow imr parSet
  let _istatus ← dm9000aIor isr
  dm9000aRxReady

def turn (iface : Nat) : Prog Io (BitVec 8) := do
  receive iface
  dm9000aRxReady

def writeAll : List (BitVec 32 × BitVec 32) → Prog Io Unit
  | [] => return ()
  | w :: ws => do
    dm9000aIow w.1 w.2
    writeAll ws

/-- `software-RESET NIC` -/
def softwareReset : Prog Io Unit := .call .autoReset fun _ => writeAll Driver.resetSequence

/-- From the loop on. -/
def leave (rxRdy : BitVec 8) : Prog Io Unit := do
  if rxRdy &&& 0x02 ≠ 0 then softwareReset
  dm9000aIow isr 0x3F
  dm9000aIow imr intrSet

/-- The condition of the loop. -/
def ready (rxRdy : BitVec 8) : Bool := rxRdy == dm9000PktReady

/-- The finished runs of the handler. -/
def dm9000aIsr (iface : Nat) : Runs Io Unit := do
  let rxRdy ← enter
  let rxRdy ← Runs.loop ready (fun _ => turn iface) rxRdy
  leave rxRdy

/-! ## On the chip alone -/

section
variable (stack : Stack) (nbBlen : Nat → Nat → Nat)

/-- The chip and the network stack of `Driver` as the machine that answers; a block found by
`pk_alloc` has the length `nbBlen`. -/
def Driver.answer (d : Driver) : (op : Call) → Call.Ans op × Driver
  | .iowr port data => ((), d.iowr port data)
  | .iord port => d.iord port
  | .store _ _ => ((), d)
  | .pkAlloc len => ((stack.pkAlloc d.allocs len).map fun buff => ⟨buff, nbBlen d.allocs len⟩,
      { d with allocs := d.allocs + 1 })
  | .cticks => (stack.cticks (d.allocs - 1), d)
  | .putq pkt => ((), { d with rcvdq := d.rcvdq ++ [pkt] })
  | .signalPktDemux => ((), { d with signals := d.signals + 1 })
  | .discard => ((), { d with ifInDiscards := d.ifInDiscards + 1 })
  | .autoReset => ((), { d with autoReset := d.autoReset + 1 })
  | .sent _ _ => ((), d)
  | .pkFree => ((), d)

/-- Run on the driver's machine. -/
abbrev onDriver {α : Type} (p : Prog Io α) (d : Driver) : Option (α × Driver) :=
  p.exec (E := Io) (Driver.answer stack nbBlen) d

theorem onDriver_dump (rxLen i : Nat) (d : Driver) :
    onDriver stack nbBlen (dump rxLen i) d = some ((), Driver.dump rxLen i d) := by
  fun_induction Driver.dump rxLen i d with
  | case1 i d hi ih =>
    rw [dump, if_pos hi]
    exact ih
  | case2 i d hi =>
    rw [dump, if_neg hi]
    rfl

theorem onDriver_copy (rxLen i dataPtr : Nat) (buff : Nat → UInt8) (d : Driver) :
    onDriver stack nbBlen (copy rxLen i dataPtr buff) d = some (Driver.copy rxLen i dataPtr buff d) := by
  fun_induction Driver.copy rxLen i dataPtr buff d with
  | case1 i dataPtr buff d hi tmp d' hd _ _ ih =>
    rw [copy, if_pos hi]
    have hread : (d.iord .ioData).1 = tmp ∧ (d.iord .ioData).2 = d' := by rw [hd]; exact ⟨rfl, rfl⟩
    obtain ⟨rfl, rfl⟩ := hread
    exact ih
  | case2 i dataPtr buff d hi =>
    rw [copy, if_neg hi]
    rfl

theorem copy_allocs (rxLen i dataPtr : Nat) (buff : Nat → UInt8) (d : Driver) :
    (Driver.copy rxLen i dataPtr buff d).2.allocs = d.allocs := by
  fun_induction Driver.copy rxLen i dataPtr buff d with
  | case1 i dataPtr buff d hi tmp d' hd _ _ ih =>
    have hread : (d.iord .ioData).2 = d' := by rw [hd]
    rw [ih, ← hread]
    rfl
  | case2 i dataPtr buff d hi => rfl

theorem onDriver_accept (iface rxLen : Nat) (block : Block) (d : Driver) :
    onDriver stack nbBlen (accept iface rxLen block) d =
      let r := Driver.copy rxLen 0 ethhdrBias block.nbBuff d
      some ((), { r.2 with
        rcvdq := r.2.rcvdq ++ [{
          nbBuff := r.1
          nbProt := ethhdrSize
          nbPlen := BitVec.ofNat 32 rxLen - 14
          nbTstamp := stack.cticks (d.allocs - 1)
          net := iface
          type := Driver.eType r.1 }]
        signals := r.2.signals + 1 }) := by
  have hcopy := onDriver_copy stack nbBlen rxLen 0 ethhdrBias block.nbBuff d
  rw [accept, onDriver, exec_bind, ← onDriver, hcopy, ← copy_allocs rxLen 0 ethhdrBias block.nbBuff d]
  rfl

theorem onDriver_receive (iface : Nat) (d : Driver) :
    onDriver stack nbBlen (receive iface) d = some ((), Driver.receive stack iface d) := by
  obtain ⟨d1, h1⟩ : ∃ r, r = (d.iowr .ioAddr mrcmd).iord .ioData := ⟨_, rfl⟩
  obtain ⟨d2, h2⟩ : ∃ r, r = d1.2.iord .ioData := ⟨_, rfl⟩
  have hreads : onDriver stack nbBlen (receive iface) d =
      onDriver stack nbBlen (checkStatus iface d1.1 d2.1) d2.2 := by
    rw [h2, h1]
    rfl
  rw [hreads, Driver.receive, checkStatus]
  simp only [← h1, ← h2]
  split
  · cases ha : stack.pkAlloc d2.2.allocs (d2.1.toNat + ethhdrBias) with
    | none =>
      simp only [onDriver, exec_call, Driver.answer, ha, Option.map_none]
      exact onDriver_dump stack nbBlen _ _ _
    | some buff =>
      simp only [onDriver, exec_call, Driver.answer, ha, Option.map_some]
      exact onDriver_accept stack nbBlen _ _ _ _
  · exact onDriver_dump stack nbBlen _ _ _

theorem onDriver_turn (iface : Nat) (d : Driver) :
    onDriver stack nbBlen (turn iface) d = some (Driver.receive stack iface d).dm9000aRxReady := by
  have hreceive := onDriver_receive stack nbBlen iface d
  rw [turn, onDriver, exec_bind, ← onDriver, hreceive]
  rfl

/-- `rx_rdy` before the loop and after every turn is what the loop of `Driver` asks for first. -/
theorem does_loop_iff (iface : Nat) (d : Driver) (rxRdy : BitVec 8) (d' : Driver) :
    Does (E := Io) (Driver.answer stack nbBlen)
      (Runs.loop ready (fun _ => turn iface) d.dm9000aRxReady.1)
      d.dm9000aRxReady.2 rxRdy d' ↔ (rxRdy, d') = Driver.receiveLoop stack iface d := by
  fun_induction Driver.receiveLoop stack iface d with
  | case1 d r hr ih =>
    have hready : ready d.dm9000aRxReady.1 = true := beq_iff_eq.mpr hr
    rw [does_loop_of_true hready, ← ih]
    constructor
    · rintro ⟨x1, d1, hturn, hloop⟩
      rw [does_iff_exec, ← onDriver, onDriver_turn] at hturn
      obtain ⟨rfl, rfl⟩ := Prod.mk.inj (Option.some.inj hturn)
      exact hloop
    · intro hloop
      exact ⟨_, _, does_iff_exec.mpr (onDriver_turn stack nbBlen iface _), hloop⟩
  | case2 d r hr =>
    have hready : ready d.dm9000aRxReady.1 = false := beq_eq_false_iff_ne.mpr hr
    rw [does_loop_of_false hready]
    exact Prod.mk_inj.symm

theorem onDriver_writeAll (ws : List (BitVec 32 × BitVec 32)) (d : Driver) :
    onDriver stack nbBlen (writeAll ws) d = some ((), ws.foldl (fun d w => d.dm9000aIow w.1 w.2) d) := by
  induction ws generalizing d with
  | nil => rfl
  | cons w ws ih => exact ih _

theorem onDriver_leave (rxRdy : BitVec 8) (d : Driver) :
    onDriver stack nbBlen (leave rxRdy) d = some ((),
      ((if rxRdy &&& 0x02 ≠ 0 then
          Driver.resetSequence.foldl (fun d w => d.dm9000aIow w.1 w.2) { d with autoReset := d.autoReset + 1 }
        else d).dm9000aIow isr 0x3F).dm9000aIow imr intrSet) := by
  unfold leave
  split
  · have hreset : onDriver stack nbBlen softwareReset d = some ((), _) :=
      onDriver_writeAll stack nbBlen Driver.resetSequence { d with autoReset := d.autoReset + 1 }
    rw [onDriver, exec_bind, ← onDriver, hreset]
    rfl
  · rfl

/-- **The function is the program**: on the chip alone the handler has one run, and it does what
`Driver.dm9000aIsr` says. -/
theorem does_isr_iff (iface : Nat) (d d' : Driver) :
    Does (E := Io) (Driver.answer stack nbBlen) (dm9000aIsr iface) d () d' ↔
      d' = Driver.dm9000aIsr stack iface d := by
  obtain ⟨start, hstart⟩ : ∃ start, start = ((d.dm9000aIow imr parSet).dm9000aIor isr).2 := ⟨_, rfl⟩
  obtain ⟨last, hlast⟩ : ∃ last, last = Driver.receiveLoop stack iface start := ⟨_, rfl⟩
  have henter : onDriver stack nbBlen enter d = some start.dm9000aRxReady := hstart ▸ rfl
  have hisr : onDriver stack nbBlen (leave last.1) last.2 = some ((), Driver.dm9000aIsr stack iface d) := by
    rw [onDriver_leave, hlast, hstart]
    rfl
  rw [dm9000aIsr, does_bind]
  constructor
  · rintro ⟨rxRdy, d1, h1, h⟩
    obtain ⟨rxRdy', d2, h2, h3⟩ := does_bind.mp h
    obtain ⟨rfl, rfl⟩ := Prod.mk.inj (Option.some.inj (henter.symm.trans (does_iff_exec.mp h1)))
    have hloop := (does_loop_iff stack nbBlen iface start rxRdy' d2).mp h2
    rw [← hlast] at hloop
    obtain ⟨rfl, rfl⟩ : rxRdy' = last.1 ∧ d2 = last.2 := ⟨congrArg Prod.fst hloop, congrArg Prod.snd hloop⟩
    exact (Prod.mk.inj (Option.some.inj ((does_iff_exec.mp h3).symm.trans hisr))).2
  · rintro rfl
    refine ⟨_, _, does_iff_exec.mpr henter, does_bind.mpr ⟨last.1, last.2, ?_, does_iff_exec.mpr hisr⟩⟩
    exact (does_loop_iff stack nbBlen iface start last.1 last.2).mpr hlast

end

/-! ## How a run ends -/

/-- A poll of the SRAM: the dummy read and the one that counts. -/
def poll (w0 w : BitVec 16) : List (Event Io) :=
  [⟨.iowr .ioAddr mrcmdx, ()⟩, ⟨.iord .ioData, w0⟩, ⟨.iord .ioData, w⟩]

/-- The run ends with a poll, of which `rxRdy` is the outcome. -/
def Polled (rxRdy : BitVec 8) (t : List (Event Io)) : Prop :=
  ∃ u w0 w, t = u ++ poll w0 w ∧ rxRdy = (w &&& 0x03).setWidth 8

theorem polled_rxReady {t u : List (Event Io)} {rxRdy : BitVec 8} (h : Returns dm9000aRxReady t rxRdy) :
    Polled rxRdy (u ++ t) := by
  obtain ⟨_, _, rfl, h1⟩ := returns_call.mp h
  obtain ⟨w0, _, rfl, h2⟩ := returns_call.mp h1
  obtain ⟨w, _, rfl, h3⟩ := returns_call.mp h2
  obtain ⟨rfl, rfl⟩ := returns_pure.mp h3
  exact ⟨u, w0, w, rfl, rfl⟩

theorem polled_enter {t : List (Event Io)} {rxRdy : BitVec 8} (h : Returns enter t rxRdy) : Polled rxRdy t := by
  obtain ⟨u, _, _, rfl, -, h⟩ := returns_bind.mp h
  obtain ⟨v, _, w, rfl, -, h⟩ := returns_bind.mp h
  rw [← List.append_assoc]
  exact polled_rxReady h

theorem polled_turn {iface : Nat} {t : List (Event Io)} {rxRdy : BitVec 8} (h : Returns (turn iface) t rxRdy) :
    Polled rxRdy t := by
  obtain ⟨u, _, _, rfl, -, h⟩ := returns_bind.mp h
  exact polled_rxReady h

theorem Polled.append {t : List (Event Io)} {rxRdy : BitVec 8} (h : Polled rxRdy t) (u : List (Event Io)) :
    Polled rxRdy (u ++ t) := by
  obtain ⟨v, w0, w, rfl, hw⟩ := h
  exact ⟨u ++ v, w0, w, (List.append_assoc _ _ _).symm, hw⟩

/-- **After the last poll**, which found no frame ready, the handler only leaves. -/
theorem isr_tail {iface : Nat} {t : List (Event Io)} (h : dm9000aIsr iface t ()) :
    ∃ u rxRdy v, t = u ++ v ∧ Polled rxRdy u ∧ ready rxRdy = false ∧ Returns (leave rxRdy) v () := by
  obtain ⟨t1, rx1, _, rfl, h1, t2, rx2, t3, rfl, h2, h3⟩ := h
  have hloop : ∀ t, Polled rx1 t → Polled rx2 (t ++ t2) ∧ ready rx2 = false := by
    refine Runs.loop_induct (P := fun rx v => ∀ t, Polled rx t → Polled rx2 (t ++ v) ∧ ready rx2 = false)
      ?_ ?_ h2
    · intro hready t ht
      rw [List.append_nil]
      exact ⟨ht, hready⟩
    · intro rx u rx1 v _ hu hv t _
      rw [← List.append_assoc]
      exact hv _ ((polled_turn hu).append t)
  obtain ⟨hpoll, hready⟩ := hloop t1 (polled_enter h1)
  exact ⟨t1 ++ t2, rx2, t3, (List.append_assoc _ _ _).symm, hpoll, hready, h3⟩

/-! ## A run with one frame -/

/-- The words behind are read and left. -/
theorem returns_dump (rxLen i : Nat) {ws : List (BitVec 16)} (hlen : ws.length = (rxLen - i + 1) / 2) :
    Returns (dump rxLen i) (ws.map fun w => ⟨.iord .ioData, w⟩) () := by
  induction ws generalizing i with
  | nil =>
    rw [List.length_nil] at hlen
    rw [dump, if_neg (by omega)]
    exact .pure ()
  | cons w ws ih =>
    rw [List.length_cons] at hlen
    rw [dump, if_pos (by omega)]
    exact .call (ih (i + 2) (by omega))

theorem returns_rxReady (w0 w : BitVec 16) : Returns dm9000aRxReady (poll w0 w) ((w &&& 0x03).setWidth 8) := by
  refine returns_call.mpr ⟨(), _, rfl, returns_call.mpr ⟨w0, _, rfl, returns_call.mpr ⟨w, _, rfl, ?_⟩⟩⟩
  exact .pure _

/-- The calls up to the loop, with a frame waiting. -/
def entered : List (Event Io) :=
  [⟨.iowr .ioAddr imr, ()⟩, ⟨.iowr .ioData parSet, ()⟩, ⟨.iowr .ioAddr isr, ()⟩, ⟨.iord .ioData, 0x01⟩] ++ poll 1 1

/-- The calls after the loop. -/
def left : List (Event Io) :=
  [⟨.iowr .ioAddr isr, ()⟩, ⟨.iowr .ioData 0x3F, ()⟩, ⟨.iowr .ioAddr imr, ()⟩, ⟨.iowr .ioData intrSet, ()⟩]

/-- Whatever a pass makes of the frame, there is a run with that pass alone. -/
theorem isr_one {iface : Nat} {t : List (Event Io)} (h : Returns (receive iface) t ()) :
    dm9000aIsr iface (entered ++ (t ++ poll 0 0 ++ left)) () := by
  have henter : Returns enter entered 1 := .call (.call (.call (.call (returns_rxReady 1 1))))
  have hturn : Returns (turn iface) (t ++ poll 0 0) 0 :=
    returns_bind.mpr ⟨t, (), _, rfl, h, returns_rxReady 0 0⟩
  have hloop : Runs.loop ready (fun _ => turn iface) 1 (t ++ poll 0 0) 0 :=
    (Runs.loop_of_true rfl).mpr ⟨_, 0, [], (List.append_nil _).symm, hturn, (Runs.loop_of_false rfl).mpr ⟨rfl, rfl⟩⟩
  exact ⟨entered, 1, _, rfl, henter, _, 0, left, rfl, hloop, .call (.call (.call (.call (.pure ()))))⟩

end FpgaQuat.Nic
