import FpgaQuaternions.Lib.Interleaving
import FpgaQuaternions.Nic.Handler

/-!
# Frames that arrive while the handler runs

A frame goes to the end of the SRAM and sets the packet-received bit, between any two calls
of `dm9000a_isr`.  The handler polls the SRAM until nothing waits and then clears all bits,
also the one of a frame that came in between:

    poll finds nothing ── a ── ISR := 0x3F ── b ── return

A frame that arrives at `a` is stranded unless one at `b` sets the bit again
(isr_strands_iff).
-/

namespace FpgaQuat.Nic

open Effects Interleaving

/-! ## The chip with arrivals -/

structure Dm9000a where
  chip : Chip
  /-- The interrupt status. -/
  status : BitVec 16

namespace Dm9000a

/-- Ones written to `ISR` clear the bits. -/
def iowr (n : Dm9000a) (port : Port) (data : BitVec 32) : Dm9000a :=
  if port = .ioData ∧ n.chip.index = isr then { n with status := n.status &&& ~~~ data.setWidth 16 }
  else { n with chip := n.chip.iowr port data }

def iord (n : Dm9000a) (port : Port) : BitVec 16 × Dm9000a :=
  if port = .ioData ∧ n.chip.index = isr then (n.status, n)
  else ((n.chip.iord port).1, { n with chip := (n.chip.iord port).2 })

def packetReceived : BitVec 16 := 0x01

def arrive (n : Dm9000a) (f : Frame) : Dm9000a :=
  { chip := { n.chip with rxSram := n.chip.rxSram ++ f.words }
    status := n.status ||| packetReceived }

def Received (n : Dm9000a) : Prop := n.status &&& packetReceived ≠ 0

/-- The bit is set and enabled. -/
def Interrupt (n : Dm9000a) : Prop := n.status &&& n.chip.regs imr &&& packetReceived ≠ 0

instance (n : Dm9000a) : Decidable n.Received := inferInstanceAs (Decidable (_ ≠ _))
instance (n : Dm9000a) : Decidable n.Interrupt := inferInstanceAs (Decidable (_ ≠ _))

/-- The chip answers the reads; the network stack may answer anything. -/
def machine : Machine Io Dm9000a Frame where
  allows n
    | ⟨.iord port, r⟩ => r = (n.iord port).1
    | _ => True
  after n
    | ⟨.iowr port data, _⟩ => n.iowr port data
    | ⟨.iord port, _⟩ => (n.iord port).2
    | _ => n
  disturb := arrive

/-! What arrivals and writes change. -/

section
variable (n : Dm9000a) (fs : List Frame)

theorem arrivals_rxSram : (fs.foldl arrive n).chip.rxSram = n.chip.rxSram ++ fs.flatMap Frame.words := by
  induction fs generalizing n with
  | nil => simp
  | cons f fs ih => simp [ih, arrive]

theorem arrivals_index : (fs.foldl arrive n).chip.index = n.chip.index := by
  induction fs generalizing n with
  | nil => rfl
  | cons f fs ih => exact ih _

theorem arrivals_regs : (fs.foldl arrive n).chip.regs = n.chip.regs := by
  induction fs generalizing n with
  | nil => rfl
  | cons f fs ih => exact ih _

theorem arrive_received (f : Frame) : (n.arrive f).Received := by
  have hbits : (n.status ||| packetReceived) &&& packetReceived = packetReceived := by
    ext i hi
    simp only [BitVec.getElem_and, BitVec.getElem_or]
    cases packetReceived[i] <;> simp
  rw [Received, arrive, hbits]
  decide

theorem arrivals_received : (fs.foldl arrive n).Received ↔ n.Received ∨ fs ≠ [] := by
  induction fs generalizing n with
  | nil => simp
  | cons f fs ih => simp [ih, arrive_received]

theorem select_rxSram (reg : BitVec 32) : (n.iowr .ioAddr reg).chip.rxSram = n.chip.rxSram := rfl

theorem select_index (reg : BitVec 32) : (n.iowr .ioAddr reg).chip.index = reg := rfl

theorem select_received (reg : BitVec 32) : (n.iowr .ioAddr reg).Received ↔ n.Received := Iff.rfl

variable {n} {data : BitVec 32}

/-- The outcome of a poll. -/
theorem iord_mrcmdx (h : n.chip.index = mrcmdx) :
    n.iord .ioData = (if n.chip.rxSram = [] then 0 else 1, n) := by
  rw [iord, if_neg fun hi => absurd (h.symm.trans hi.2) (by decide), Chip.iord, if_pos h]

theorem iowr_isr (h : n.chip.index = isr) :
    n.iowr .ioData data = { n with status := n.status &&& ~~~ data.setWidth 16 } := by
  rw [iowr, if_pos ⟨rfl, h⟩]

theorem iowr_imr (h : n.chip.index = imr) :
    n.iowr .ioData data = { n with chip := n.chip.iowr .ioData data } := by
  rw [iowr, if_neg fun hi => absurd (h.symm.trans hi.2) (by decide)]

theorem acknowledge_rxSram (h : n.chip.index = isr) : (n.iowr .ioData data).chip.rxSram = n.chip.rxSram := by
  rw [iowr_isr h]

/-- `0x3F` clears the bit, whatever set it. -/
theorem acknowledge_received (h : n.chip.index = isr) : ¬ (n.iowr .ioData 0x3F).Received := by
  have hbits : n.status &&& ~~~ (0x3F : BitVec 32).setWidth 16 &&& packetReceived = 0 := by
    rw [BitVec.and_assoc]
    exact BitVec.and_zero
  rw [iowr_isr h]
  exact not_not_intro hbits

theorem enable_rxSram (h : n.chip.index = imr) : (n.iowr .ioData data).chip.rxSram = n.chip.rxSram := by
  rw [iowr_imr h]
  rfl

theorem enable_regs (h : n.chip.index = imr) : (n.iowr .ioData data).chip.regs imr = data.setWidth 16 := by
  rw [iowr_imr h]
  simp [Chip.iowr, h]

theorem enable_received (h : n.chip.index = imr) : (n.iowr .ioData data).Received ↔ n.Received := by
  rw [iowr_imr h]
  rfl

end

end Dm9000a

/-! ## What happens after the last look -/

def write (port : Port) (data : BitVec 32) : Item Io Frame := .call ⟨Call.iowr port data, ()⟩

/-- What the handler does when nothing waits any more, with the frames that arrive. -/
def tail (as bs cs ds es : List Frame) : List (Item Io Frame) :=
  others as ++ write .ioAddr isr :: (others bs ++ write .ioData 0x3F ::
    (others cs ++ write .ioAddr imr :: (others ds ++ write .ioData intrSet :: others es)))

theorem calls_tail (as bs cs ds es : List Frame) : calls (tail as bs cs ds es) = left := by
  have hwrite : ∀ (fs : List Frame) port data l, calls (others fs ++ write port data :: l) =
      ⟨.iowr port data, ()⟩ :: calls l := by
    intro fs port data l
    rw [calls_append, calls_others]
    rfl
  simp only [tail, hwrite, calls_others]
  rfl

theorem tail_of_calls {l : List (Item Io Frame)} (h : Returns (leave 0) (calls l) ()) :
    ∃ as bs cs ds es, l = tail as bs cs ds es := by
  obtain ⟨_, u1, h1, hr1⟩ := returns_call.mp h
  obtain ⟨_, u2, rfl, hr2⟩ := returns_call.mp hr1
  obtain ⟨_, u3, rfl, hr3⟩ := returns_call.mp hr2
  obtain ⟨_, u4, rfl, hr4⟩ := returns_call.mp hr3
  obtain ⟨rfl, -⟩ := returns_pure.mp hr4
  obtain ⟨as, l1, rfl, h2⟩ := first_of_calls h1
  obtain ⟨bs, l2, rfl, h3⟩ := first_of_calls h2
  obtain ⟨cs, l3, rfl, h4⟩ := first_of_calls h3
  obtain ⟨ds, l4, rfl, h5⟩ := first_of_calls h4
  obtain ⟨es, rfl⟩ := others_of_calls h5
  exact ⟨as, bs, cs, ds, es, rfl⟩

theorem path_write {n n' : Dm9000a} {fs : List Frame} {port : Port} {data : BitVec 32} {l : List (Item Io Frame)} :
    Path Dm9000a.machine n (others fs ++ write port data :: l) n' ↔
      Path Dm9000a.machine ((fs.foldl Dm9000a.arrive n).iowr port data) l n' :=
  path_first.trans (and_iff_right trivial)

/-- Only what arrives behind the acknowledgement sets the bit again. -/
theorem path_tail {n n' : Dm9000a} {as bs cs ds es : List Frame}
    (h : Path Dm9000a.machine n (tail as bs cs ds es) n') :
    n'.chip.rxSram = n.chip.rxSram ++ (as ++ bs ++ (cs ++ ds ++ es)).flatMap Frame.words ∧
    n'.chip.regs imr = 0x81 ∧ (n'.Received ↔ cs ++ ds ++ es ≠ []) := by
  obtain ⟨n1, h1⟩ : ∃ n1, n1 = (as.foldl Dm9000a.arrive n).iowr .ioAddr isr := ⟨_, rfl⟩
  obtain ⟨n2, h2⟩ : ∃ n2, n2 = (bs.foldl Dm9000a.arrive n1).iowr .ioData 0x3F := ⟨_, rfl⟩
  obtain ⟨n3, h3⟩ : ∃ n3, n3 = (cs.foldl Dm9000a.arrive n2).iowr .ioAddr imr := ⟨_, rfl⟩
  obtain ⟨n4, h4⟩ : ∃ n4, n4 = (ds.foldl Dm9000a.arrive n3).iowr .ioData intrSet := ⟨_, rfl⟩
  rw [tail, path_write, ← h1, path_write, ← h2, path_write, ← h3, path_write, ← h4, path_others] at h
  change n' = es.foldl Dm9000a.arrive n4 at h
  have hisr : (bs.foldl Dm9000a.arrive n1).chip.index = isr := by
    rw [Dm9000a.arrivals_index, h1, Dm9000a.select_index]
  have himr : (ds.foldl Dm9000a.arrive n3).chip.index = imr := by
    rw [Dm9000a.arrivals_index, h3, Dm9000a.select_index]
  refine ⟨?_, ?_, ?_⟩
  · rw [h, Dm9000a.arrivals_rxSram, h4, Dm9000a.enable_rxSram himr, Dm9000a.arrivals_rxSram,
      h3, Dm9000a.select_rxSram, Dm9000a.arrivals_rxSram, h2, Dm9000a.acknowledge_rxSram hisr,
      Dm9000a.arrivals_rxSram, h1, Dm9000a.select_rxSram, Dm9000a.arrivals_rxSram]
    simp only [List.flatMap_append, List.append_assoc]
  · rw [h, Dm9000a.arrivals_regs, h4, Dm9000a.enable_regs himr]
    rfl
  · have hack : ¬ n2.Received := h2 ▸ Dm9000a.acknowledge_received hisr
    rw [h, Dm9000a.arrivals_received, h4, Dm9000a.enable_received himr, Dm9000a.arrivals_received,
      h3, Dm9000a.select_received, Dm9000a.arrivals_received]
    simp only [hack, false_or, ne_eq, List.append_eq_nil_iff]
    tauto

/-! ## The last look -/

theorem polling_index {n n' : Dm9000a} {w0 : BitVec 16} {l : List (Item Io Frame)}
    (hl : calls l = [⟨.iowr .ioAddr mrcmdx, ()⟩, ⟨.iord .ioData, w0⟩]) (h : Path Dm9000a.machine n l n') :
    n'.chip.index = mrcmdx := by
  obtain ⟨fs, l1, rfl, hl1⟩ := first_of_calls hl
  obtain ⟨gs, l2, rfl, hl2⟩ := first_of_calls hl1
  obtain ⟨hs, rfl⟩ := others_of_calls hl2
  obtain ⟨-, h1⟩ := path_first.mp h
  obtain ⟨-, h2⟩ := path_first.mp h1
  obtain ⟨m, hm⟩ : ∃ m, m = gs.foldl Dm9000a.arrive ((fs.foldl Dm9000a.arrive n).iowr .ioAddr mrcmdx) := ⟨_, rfl⟩
  have hindex : m.chip.index = mrcmdx := by rw [hm, Dm9000a.arrivals_index, Dm9000a.select_index]
  have hread : (m.iord .ioData).2 = m := by rw [Dm9000a.iord_mrcmdx hindex]
  have hend : n' = hs.foldl Dm9000a.arrive (m.iord .ioData).2 := hm ▸ path_others.mp h2
  rw [hend, hread, Dm9000a.arrivals_index, hindex]

/-- At the last look into the SRAM it is empty. -/
theorem last_look {iface : Nat} {n n' : Dm9000a} {l : List (Item Io Frame)} (hrun : dm9000aIsr iface (calls l) ())
    (h : Path Dm9000a.machine n l n') :
    ∃ before as bs cs ds es last, l = before ++ .call ⟨Call.iord .ioData, 0⟩ :: tail as bs cs ds es ∧
      last.chip.rxSram = [] ∧ Path Dm9000a.machine last (tail as bs cs ds es) n' := by
  obtain ⟨_, rxRdy, v, hl, ⟨u, w0, w, rfl, rfl⟩, hready, hleave⟩ := isr_tail hrun
  have hl' : calls l = u ++ ([⟨.iowr .ioAddr mrcmdx, ()⟩, ⟨.iord .ioData, w0⟩] ++ ⟨.iord .ioData, w⟩ :: v) := by
    rw [hl, List.append_assoc]
    rfl
  obtain ⟨xs, ys, rfl, -, hys⟩ := split_of_calls hl'
  obtain ⟨ys, zs, rfl, hy, hzs⟩ := split_of_calls hys
  obtain ⟨fs, ts, rfl, rfl⟩ := first_of_calls hzs
  obtain ⟨n1, -, h1⟩ := path_append.mp h
  obtain ⟨n2, hpoll, h2⟩ := path_append.mp h1
  obtain ⟨hlook, htail⟩ := path_first.mp h2
  obtain ⟨last, hlast⟩ : ∃ last, last = fs.foldl Dm9000a.arrive n2 := ⟨_, rfl⟩
  have hindex : last.chip.index = mrcmdx := by
    rw [hlast, Dm9000a.arrivals_index, polling_index hy hpoll]
  have hread : last.iord .ioData = (if last.chip.rxSram = [] then 0 else 1, last) := Dm9000a.iord_mrcmdx hindex
  have hw : w = (last.iord .ioData).1 := hlast ▸ hlook
  have hpath : Path Dm9000a.machine (last.iord .ioData).2 ts n' := hlast ▸ htail
  rw [hread] at hw hpath
  have hempty : last.chip.rxSram = [] := by
    by_contra hne
    obtain rfl : w = 1 := hw.trans (if_neg hne)
    exact absurd hready (by decide)
  obtain rfl : w = 0 := hw.trans (if_pos hempty)
  have hleave0 : Returns (leave 0) (calls ts) () := hleave
  obtain ⟨as, bs, cs, ds, es, rfl⟩ := tail_of_calls hleave0
  exact ⟨xs ++ ys ++ others fs, as, bs, cs, ds, es, last, by simp only [List.append_assoc], hempty, hpath⟩

/-! ## When the bit is lost -/

def isRead : Item Io Frame → Bool
  | .call ⟨.iord _, _⟩ => true
  | _ => false

/-- The acknowledgement, among what follows the last look. -/
def isAck : Item Io Frame → Bool
  | .call ⟨.iowr .ioData data, _⟩ => data == 0x3F
  | _ => false

def isArrival : Item Io Frame → Bool
  | .other _ => true
  | _ => false

/-- What follows the last look into the SRAM. -/
def sinceLook (l : List (Item Io Frame)) : List (Item Io Frame) := l.rtakeWhile fun i => !isRead i

/-- A frame arrives between the last look and the acknowledgement, and none after it. -/
def Missed (l : List (Item Io Frame)) : Prop :=
  ((sinceLook l).takeWhile fun i => !isAck i).any isArrival ∧
    ¬ ((sinceLook l).dropWhile fun i => !isAck i).any isArrival

instance (l : List (Item Io Frame)) : Decidable (Missed l) := inferInstanceAs (Decidable (_ ∧ _))

theorem sinceLook_eq (before : List (Item Io Frame)) {read : Item Io Frame} {after : List (Item Io Frame)}
    (hread : isRead read = true) (hafter : ∀ i ∈ after, isRead i = false) :
    sinceLook (before ++ read :: after) = after := by
  have hrev : (before ++ read :: after).reverse = after.reverse ++ read :: before.reverse := by simp
  have hall : ∀ i ∈ after.reverse, (!isRead i) = true := by
    intro i hi
    rw [hafter i (List.mem_reverse.mp hi)]
    rfl
  have hlook : ¬ (!isRead read) = true := by simp [hread]
  have hnone : (read :: before.reverse).takeWhile (fun i => !isRead i) = [] := List.takeWhile_cons_of_neg hlook
  rw [sinceLook, List.rtakeWhile, hrev, List.takeWhile_append_of_pos hall, hnone, List.append_nil,
    List.reverse_reverse]

theorem forall_others {p : Item Io Frame → Prop} (hp : ∀ f, p (.other f)) (fs : List Frame) :
    ∀ i ∈ others fs, p i := by
  intro i hi
  obtain ⟨f, -, rfl⟩ := List.mem_map.mp hi
  exact hp f

theorem any_others (fs : List Frame) : (others fs : List (Item Io Frame)).any isArrival = true ↔ fs ≠ [] := by
  cases fs <;> simp [others, isArrival]

/-- With the tail of a run cut at its calls. -/
theorem missed_iff (before : List (Item Io Frame)) (as bs cs ds es : List Frame) :
    Missed (before ++ .call ⟨Call.iord .ioData, 0⟩ :: tail as bs cs ds es) ↔
      as ++ bs ≠ [] ∧ cs ++ ds ++ es = [] := by
  have hread : ∀ i ∈ tail as bs cs ds es, isRead i = false := by
    simp only [tail, List.forall_mem_append, List.forall_mem_cons]
    exact ⟨forall_others (fun _ => rfl) _, rfl, forall_others (fun _ => rfl) _, rfl,
      forall_others (fun _ => rfl) _, rfl, forall_others (fun _ => rfl) _, rfl, forall_others (fun _ => rfl) _⟩
  obtain ⟨front, hf⟩ : ∃ front, front = others as ++ write .ioAddr isr :: others bs := ⟨_, rfl⟩
  obtain ⟨rest, hr⟩ : ∃ rest, rest =
    others cs ++ write .ioAddr imr :: (others ds ++ write .ioData intrSet :: others es) := ⟨_, rfl⟩
  have hcut : tail as bs cs ds es = front ++ write .ioData 0x3F :: rest := by
    simp only [tail, hf, hr, List.append_assoc, List.cons_append]
  have hfront : ∀ i ∈ front, (!isAck i) = true := by
    simp only [hf, List.forall_mem_append, List.forall_mem_cons]
    exact ⟨forall_others (fun _ => rfl) _, rfl, forall_others (fun _ => rfl) _⟩
  have htake : (front ++ write .ioData 0x3F :: rest).takeWhile (fun i => !isAck i) = front := by
    rw [List.takeWhile_append_of_pos hfront]
    exact List.append_nil _
  have hdrop : (front ++ write .ioData 0x3F :: rest).dropWhile (fun i => !isAck i) =
      write .ioData 0x3F :: rest := List.dropWhile_append_of_pos hfront
  have hbefore : front.any isArrival = true ↔ as ++ bs ≠ [] := by
    simp only [hf, List.any_append, List.any_cons, Bool.or_eq_true, any_others, write, isArrival,
      Bool.false_eq_true, false_or, ne_eq, List.append_eq_nil_iff, not_and_or]
  have hbehind : (write .ioData 0x3F :: rest).any isArrival = true ↔ cs ++ ds ++ es ≠ [] := by
    simp only [hr, List.any_append, List.any_cons, Bool.or_eq_true, any_others, write, isArrival,
      Bool.false_eq_true, false_or, ne_eq, List.append_eq_nil_iff, not_and_or, or_assoc]
  rw [Missed, sinceLook_eq before rfl hread, hcut, htake, hdrop, hbefore, hbehind, not_not]

/-! ## Frames left behind -/

theorem flatMap_words {fs : List Frame} : fs.flatMap Frame.words = [] ↔ fs = [] := by
  cases fs <;> simp [Frame.words]

/-- **No frame is left behind without an interrupt to come unless one is missed**: for every
run of the handler and all arrivals between its calls. -/
theorem isr_strands_iff {iface : Nat} {n n' : Dm9000a} {l : List (Item Io Frame)}
    (hrun : dm9000aIsr iface (calls l) ()) (h : Path Dm9000a.machine n l n') :
    ((n'.chip.rxSram ≠ [] → n'.Received ∧ n'.Interrupt) ↔ ¬ Missed l) := by
  obtain ⟨before, as, bs, cs, ds, es, last, rfl, hempty, htail⟩ := last_look hrun h
  obtain ⟨hsram, himr, hreceived⟩ := path_tail htail
  have hinterrupt : n'.Interrupt ↔ n'.Received := by
    rw [Dm9000a.Interrupt, himr, BitVec.and_assoc]
    rfl
  rw [hempty, List.nil_append] at hsram
  rw [hinterrupt, and_self, hreceived, hsram, missed_iff, ne_eq, flatMap_words, List.append_eq_nil_iff]
  tauto

/-! A run on a chip that holds a runt, which is dumped.  Frames arrive at the end only. -/

def runt : Frame where
  status := 0x8000
  length := 4
  payload := [0x0201, 0x0403]
  payload_length := rfl

def held : Dm9000a := ⟨⟨ncr, runt.words, fun _ => 0⟩, Dm9000a.packetReceived⟩

def runtDumped : List (Event Io) :=
  [⟨.iowr .ioAddr mrcmd, ()⟩, ⟨.iord .ioData, 0x8000⟩, ⟨.iord .ioData, 4⟩, ⟨.iord .ioData, 0x0201⟩,
    ⟨.iord .ioData, 0x0403⟩]

def runtRun (as bs cs ds es : List Frame) : List (Item Io Frame) :=
  (entered ++ (runtDumped ++ poll 0 0)).map .call ++ tail as bs cs ds es

theorem isr_runtRun (as bs cs ds es : List Frame) : dm9000aIsr 0 (calls (runtRun as bs cs ds es)) () := by
  have hdump : Returns (checkStatus 0 0x8000 4) [⟨.iord .ioData, 0x0201⟩, ⟨.iord .ioData, 0x0403⟩] () := by
    have hlen : ([0x0201, 0x0403] : List (BitVec 16)).length = (4 - 0 + 1) / 2 := rfl
    rw [checkStatus, if_neg (by decide)]
    exact returns_dump 4 0 hlen
  have hreceive : Returns (receive 0) runtDumped () := .call (.call (.call hdump))
  have hcalls : calls (runtRun as bs cs ds es) = entered ++ (runtDumped ++ poll 0 0 ++ left) := by
    rw [runtRun, calls_append, calls_tail]
    rfl
  rw [hcalls]
  exact isr_one hreceive

theorem path_runtRun (as bs cs ds es : List Frame) : ∃ n', Path Dm9000a.machine held (runtRun as bs cs ds es) n' ∧
    n'.chip.rxSram = (as ++ bs ++ (cs ++ ds ++ es)).flatMap Frame.words ∧
    (n'.Received ↔ cs ++ ds ++ es ≠ []) := by
  have hdumped : ∃ n1, Path Dm9000a.machine held
      ((entered ++ (runtDumped ++ poll 0 0)).map .call) n1 ∧ n1.chip.rxSram = [] :=
    ⟨_, ⟨trivial, trivial, trivial, rfl, trivial, rfl, rfl, trivial, rfl, rfl, rfl, rfl, trivial, rfl, rfl, rfl⟩, rfl⟩
  obtain ⟨n1, h1, hempty⟩ := hdumped
  have htail : ∃ n', Path Dm9000a.machine n1 (tail as bs cs ds es) n' := by
    simp only [tail, path_write, path_others]
    exact ⟨_, rfl⟩
  obtain ⟨n', h'⟩ := htail
  obtain ⟨hsram, -, hreceived⟩ := path_tail h'
  rw [hempty, List.nil_append] at hsram
  exact ⟨n', path_append.mpr ⟨n1, h1, h'⟩, hsram, hreceived⟩

def full : Frame where
  status := 0
  length := 64
  payload := List.replicate 32 0
  payload_length := rfl

/-- One frame comes too late for the last look, the next one brings the interrupt. -/
theorem next_frame_interrupts : ∃ n', Path Dm9000a.machine held (runtRun [full] [] [] [] [full]) n' ∧
    (n'.chip.rxSram ≠ [] → n'.Received ∧ n'.Interrupt) := by
  obtain ⟨n', h, -⟩ := path_runtRun [full] [] [] [] [full]
  exact ⟨n', h, (isr_strands_iff (isr_runtRun [full] [] [] [] [full]) h).mpr (by decide)⟩

/-- A frame that arrives between the last look and the acknowledgement stays in the SRAM with its
bit cleared. -/
theorem frame_stranded : ¬ ∀ (iface : Nat) (n n' : Dm9000a) (l : List (Item Io Frame)),
    dm9000aIsr iface (calls l) () → Path Dm9000a.machine n l n' → n'.chip.rxSram ≠ [] → n'.Received := by
  intro hall
  obtain ⟨n', h, hsram, hreceived⟩ := path_runtRun [full] [] [] [] []
  have hwaits : n'.chip.rxSram ≠ [] := by
    rw [hsram]
    exact List.cons_ne_nil _ _
  exact hreceived.mp (hall 0 held n' _ (isr_runtRun [full] [] [] [] []) h hwaits) rfl

end FpgaQuat.Nic
