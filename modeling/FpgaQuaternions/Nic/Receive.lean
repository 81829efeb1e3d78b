import FpgaQuaternions.Nic.Driver

/-!
# One run of the receive interrupt over a queue of frames

A frame is stored in the SRAM as its status word, its length in bytes and the words of its
payload.  `receive_frame` says what one pass of the loop does to the frame in front, whatever
stands behind it; `isr_decodes` follows by induction on the frames.
-/

namespace FpgaQuat.Nic

/-! ## Frames -/

structure Frame where
  status : BitVec 16
  length : BitVec 16
  payload : List (BitVec 16)
  /-- The last word of an odd frame holds one byte of it. -/
  payload_length : payload.length = (length.toNat + 1) / 2

def lowByte (w : BitVec 16) : UInt8 := UInt8.ofBitVec ((w &&& 0xFF).setWidth 8)

def highByte (w : BitVec 16) : UInt8 := UInt8.ofBitVec (((w >>> 8) &&& 0xFF).setWidth 8)

namespace Frame

/-- The words of a frame in the SRAM. -/
def words (f : Frame) : List (BitVec 16) := f.status :: f.length :: f.payload

/-- Its bytes, `length` many. -/
def bytes (f : Frame) : List UInt8 :=
  (f.payload.flatMap fun w => [lowByte w, highByte w]).take f.length.toNat

def Good (f : Frame) : Prop := f.status &&& 0xBF00 = 0 ∧ f.length.toNat < 1522

instance (f : Frame) : Decidable f.Good := inferInstanceAs (Decidable (_ ∧ _))

end Frame

section
variable (stack : Stack)

/-- The frames a buffer is asked for, when `n` were before, and whether there was one. -/
def answers (n : Nat) (frames : List Frame) : List (Frame × Bool) :=
  ((frames.filter fun f => f.Good).zipIdx n).map fun a =>
    (a.1, (stack.pkAlloc a.2 (a.1.length.toNat + 2)).isSome)

def taken (n : Nat) (frames : List Frame) : List Frame :=
  ((answers stack n frames).filter fun a => a.2).map Prod.fst

def failed (n : Nat) (frames : List Frame) : Nat := (answers stack n frames).countP fun a => !a.2

theorem answers_append (n : Nat) (frames more : List Frame) :
    answers stack n (frames ++ more) =
      answers stack n frames ++ answers stack (n + (answers stack n frames).length) more := by
  simp [answers, List.zipIdx_append]

theorem taken_append (n : Nat) (frames more : List Frame) :
    taken stack n (frames ++ more) =
      taken stack n frames ++ taken stack (n + (answers stack n frames).length) more := by
  rw [taken, answers_append, List.filter_append, List.map_append]
  rfl

theorem failed_append (n : Nat) (frames more : List Frame) :
    failed stack n (frames ++ more) =
      failed stack n frames + failed stack (n + (answers stack n frames).length) more := by
  rw [failed, answers_append, List.countP_append]
  rfl

theorem answers_good {f : Frame} (hf : f.Good) (n : Nat) (frames : List Frame) :
    answers stack n (f :: frames) =
      (f, (stack.pkAlloc n (f.length.toNat + 2)).isSome) :: answers stack (n + 1) frames := by
  simp [answers, hf]

theorem answers_bad {f : Frame} (hf : ¬ f.Good) (n : Nat) (frames : List Frame) :
    answers stack n (f :: frames) = answers stack n frames := by
  simp [answers, hf]

end

/-- The frame's bytes stand in the buffer from `nb_buff + 2` on. -/
def Carries (f : Frame) (p : Packet) : Prop :=
  (List.range f.length.toNat).map (fun i => p.nbBuff (2 + i)) = f.bytes

/-! ## The two loops over a payload -/

/-- The bytes of `ws` from `ptr` on. -/
def store (ws : List (BitVec 16)) (ptr : Nat) (buff : Nat → UInt8) : Nat → UInt8 :=
  match ws with
  | [] => buff
  | w :: ws => store ws (ptr + 2)
      (Function.update (Function.update buff ptr (lowByte w)) (ptr + 1) (highByte w))

theorem store_below (ws : List (BitVec 16)) (ptr : Nat) (buff : Nat → UInt8) {j : Nat} (h : j < ptr) :
    store ws ptr buff j = buff j := by
  induction ws generalizing ptr buff with
  | nil => rfl
  | cons w ws ih =>
    have h0 : j ≠ ptr := by omega
    have h1 : j ≠ ptr + 1 := by omega
    rw [store, ih _ _ (by omega), Function.update_of_ne h1, Function.update_of_ne h0]

theorem store_bytes (ws : List (BitVec 16)) (ptr : Nat) (buff : Nat → UInt8) :
    (List.range (2 * ws.length)).map (fun i => store ws ptr buff (ptr + i)) =
      ws.flatMap fun w => [lowByte w, highByte w] := by
  induction ws generalizing ptr buff with
  | nil => rfl
  | cons w ws ih =>
    have hlen : 2 * (w :: ws).length = 2 * ws.length + 1 + 1 := by simp only [List.length_cons]; omega
    have h0 : ptr ≠ ptr + 1 := by omega
    have hlow : store (w :: ws) ptr buff (ptr + 0) = lowByte w := by
      rw [Nat.add_zero, store, store_below _ _ _ (by omega), Function.update_of_ne h0, Function.update_self]
    have hhigh : store (w :: ws) ptr buff (ptr + 1) = highByte w := by
      rw [store, store_below _ _ _ (by omega), Function.update_self]
    rw [hlen, List.range_succ_eq_map, List.range_succ_eq_map]
    simp only [List.map_cons, List.map_map, List.flatMap_cons, List.cons_append, List.nil_append, hlow, hhigh]
    rw [← ih (ptr + 2) (Function.update (Function.update buff ptr (lowByte w)) (ptr + 1) (highByte w))]
    refine congrArg _ (congrArg _ (List.map_congr_left fun i _ => ?_))
    simp only [Function.comp_apply, store]
    exact congrArg _ (by omega)

namespace Driver

/-- The driver with `MRCMD` selected and `rest` in the SRAM. -/
def next (d : Driver) (rest : List (BitVec 16)) : Driver :=
  { d with chip := { d.chip with index := mrcmd, rxSram := rest } }

theorem select_mrcmd {f : Frame} {d : Driver} {rest : List (BitVec 16)} (hs : d.chip.rxSram = f.words ++ rest) :
    d.iowr .ioAddr mrcmd = d.next (f.status :: f.length :: (f.payload ++ rest)) := by
  have hwords : f.status :: f.length :: (f.payload ++ rest) = d.chip.rxSram := hs.symm
  rw [next, hwords]
  rfl

theorem iord_next (d : Driver) (w : BitVec 16) (ws : List (BitVec 16)) :
    (d.next (w :: ws)).iord .ioData = (w, d.next ws) :=
  iord_mrcmd rfl rfl

/-- The words behind are left, whatever they are. -/
theorem dump_words (rxLen i : Nat) (d : Driver) {ws : List (BitVec 16)} (rest : List (BitVec 16))
    (hlen : ws.length = (rxLen - i + 1) / 2) : dump rxLen i (d.next (ws ++ rest)) = d.next rest := by
  induction ws generalizing i with
  | nil =>
    rw [List.length_nil] at hlen
    rw [dump, if_neg (by omega), List.nil_append]
  | cons w ws ih =>
    rw [List.length_cons] at hlen
    rw [dump, if_pos (by omega), List.cons_append, iord_next]
    exact ih _ (by omega)

theorem copy_words (rxLen i ptr : Nat) (buff : Nat → UInt8) (d : Driver) {ws : List (BitVec 16)}
    (rest : List (BitVec 16)) (hlen : ws.length = (rxLen - i + 1) / 2) :
    copy rxLen i ptr buff (d.next (ws ++ rest)) = (store ws ptr buff, d.next rest) := by
  induction ws generalizing i ptr buff with
  | nil =>
    rw [List.length_nil] at hlen
    rw [copy, if_neg (by omega), List.nil_append]
    rfl
  | cons w ws ih =>
    rw [List.length_cons] at hlen
    rw [copy, if_pos (by omega), List.cons_append, iord_next]
    exact ih _ _ _ (by omega)

/-! ## One frame -/

section
variable (stack : Stack) (iface : Nat)

/-- The packet made of a frame. -/
def packet (f : Frame) (buff : Nat → UInt8) (now : BitVec 32) : Packet :=
  let buff := store f.payload ethhdrBias buff
  { nbBuff := buff
    nbProt := ethhdrSize
    nbPlen := BitVec.ofNat 32 f.length.toNat - 14
    nbTstamp := now
    net := iface
    type := eType buff }

theorem receive_bad {f : Frame} {d : Driver} {rest : List (BitVec 16)} (hs : d.chip.rxSram = f.words ++ rest)
    (hf : ¬ f.Good) : receive stack iface d = d.next rest := by
  have hlen : f.payload.length = (f.length.toNat - 0 + 1) / 2 := f.payload_length
  have hbad : ¬ (f.status &&& 0xBF00 = 0 ∧ f.length.toNat < maxPacketSize) := hf
  unfold receive
  simp only [select_mrcmd hs, iord_next, if_neg hbad]
  exact dump_words _ _ _ _ hlen

/-- With no buffer the frame is passed over as well, and counted. -/
theorem receive_none {f : Frame} {d : Driver} {rest : List (BitVec 16)} (hs : d.chip.rxSram = f.words ++ rest)
    (hf : f.Good) (ha : stack.pkAlloc d.allocs (f.length.toNat + 2) = none) :
    receive stack iface d =
      { d.next rest with allocs := d.allocs + 1, ifInDiscards := d.ifInDiscards + 1 } := by
  have hlen : f.payload.length = (f.length.toNat - 0 + 1) / 2 := f.payload_length
  have hgood : f.status &&& 0xBF00 = 0 ∧ f.length.toNat < maxPacketSize := hf
  have hnone : stack.pkAlloc (d.next (f.payload ++ rest)).allocs (f.length.toNat + ethhdrBias) = none := ha
  unfold receive
  simp only [select_mrcmd hs, iord_next, if_pos hgood, hnone]
  exact dump_words _ _ { d with allocs := d.allocs + 1, ifInDiscards := d.ifInDiscards + 1 } _ hlen

theorem receive_some {f : Frame} {d : Driver} {rest : List (BitVec 16)} (hs : d.chip.rxSram = f.words ++ rest)
    (hf : f.Good) {buff : Nat → UInt8} (ha : stack.pkAlloc d.allocs (f.length.toNat + 2) = some buff) :
    receive stack iface d =
      { d.next rest with
        allocs := d.allocs + 1
        rcvdq := d.rcvdq ++ [packet iface f buff (stack.cticks d.allocs)]
        signals := d.signals + 1 } := by
  have hlen : f.payload.length = (f.length.toNat - 0 + 1) / 2 := f.payload_length
  have hgood : f.status &&& 0xBF00 = 0 ∧ f.length.toNat < maxPacketSize := hf
  have hsome : stack.pkAlloc (d.next (f.payload ++ rest)).allocs (f.length.toNat + ethhdrBias) = some buff := ha
  have hcopy := copy_words f.length.toNat 0 ethhdrBias buff { d with allocs := d.allocs + 1 } rest hlen
  unfold receive
  simp only [select_mrcmd hs, iord_next, if_pos hgood, hsome]
  have hstart : { d.next (f.payload ++ rest) with allocs := (d.next (f.payload ++ rest)).allocs + 1 } =
      ({ d with allocs := d.allocs + 1 } : Driver).next (f.payload ++ rest) := rfl
  simp only [hstart, hcopy]
  rfl

end

/-! ## A queue of frames -/

theorem packet_carries (iface : Nat) (f : Frame) (buff : Nat → UInt8) (now : BitVec 32) :
    Carries f (packet iface f buff now) := by
  have hlen : min f.length.toNat (2 * f.payload.length) = f.length.toNat := by
    rw [f.payload_length]
    omega
  rw [Carries, Frame.bytes, ← store_bytes f.payload ethhdrBias buff, ← List.map_take, List.take_range, hlen]
  rfl

section
variable (stack : Stack)

/-- What happened to the driver between `d` and `d'` when `frames` were taken from the SRAM. -/
structure Outcome (d : Driver) (frames : List Frame) (d' : Driver) : Prop where
  packets : ∃ ps, d'.rcvdq = d.rcvdq ++ ps ∧ List.Forall₂ Carries (taken stack d.allocs frames) ps
  discards : d'.ifInDiscards = d.ifInDiscards + BitVec.ofNat 32 (failed stack d.allocs frames)
  allocs : d'.allocs = d.allocs + (answers stack d.allocs frames).length

theorem Outcome.trans {d d1 d2 : Driver} {frames more : List Frame} (h : Outcome stack d frames d1)
    (h' : Outcome stack d1 more d2) : Outcome stack d (frames ++ more) d2 := by
  obtain ⟨ps, hps, hc⟩ := h.packets
  obtain ⟨ps', hps', hc'⟩ := h'.packets
  rw [h.allocs] at hc'
  refine ⟨⟨ps ++ ps', ?_, ?_⟩, ?_, ?_⟩
  · rw [hps', hps, List.append_assoc]
  · rw [taken_append]
    exact List.rel_append hc hc'
  · rw [h'.discards, h.discards, failed_append, h.allocs, BitVec.add_assoc, BitVec.ofNat_add]
  · rw [h'.allocs, h.allocs, answers_append, List.length_append, Nat.add_assoc]

/-- Nothing taken, and only the chip touched. -/
theorem Outcome.chip (d : Driver) (chip : Chip) : Outcome stack d [] { d with chip := chip } :=
  ⟨⟨[], (List.append_nil _).symm, .nil⟩, (BitVec.add_zero _).symm, rfl⟩

variable (iface : Nat)

/-- One pass of the loop: one frame goes, and nothing of what is behind it. -/
theorem receive_step {f : Frame} {d : Driver} {rest : List (BitVec 16)} (hs : d.chip.rxSram = f.words ++ rest) :
    (receive stack iface d).chip.rxSram = rest ∧ Outcome stack d [f] (receive stack iface d) := by
  by_cases hf : f.Good
  · have hanswer := answers_good stack hf d.allocs []
    cases ha : stack.pkAlloc d.allocs (f.length.toNat + 2) with
    | none =>
      rw [ha] at hanswer
      rw [receive_none stack iface hs hf ha]
      refine ⟨rfl, ⟨[], (List.append_nil _).symm, ?_⟩, ?_, ?_⟩
      · rw [taken, hanswer]
        exact .nil
      · rw [failed, hanswer]
        rfl
      · rw [hanswer]
        rfl
    | some buff =>
      rw [ha] at hanswer
      rw [receive_some stack iface hs hf ha]
      refine ⟨rfl, ⟨[_], rfl, ?_⟩, ?_, ?_⟩
      · rw [taken, hanswer]
        exact .cons (packet_carries iface f buff _) .nil
      · rw [failed, hanswer]
        exact (BitVec.add_zero _).symm
      · rw [hanswer]
        rfl
  · have hanswer := answers_bad stack hf d.allocs []
    rw [receive_bad stack iface hs hf]
    refine ⟨rfl, ⟨[], (List.append_nil _).symm, ?_⟩, ?_, ?_⟩
    · rw [taken, hanswer]
      exact .nil
    · rw [failed, hanswer]
      exact (BitVec.add_zero _).symm
    · rw [hanswer]
      rfl

/-- One turn of `while`, when there is one. -/
def pass (d : Driver) : Driver := receive stack iface d.dm9000aRxReady.2

theorem pass_step {f : Frame} {d : Driver} {rest : List (BitVec 16)} (hs : d.chip.rxSram = f.words ++ rest) :
    (pass stack iface d).chip.rxSram = rest ∧ Outcome stack d [f] (pass stack iface d) := by
  have hrdy : d.dm9000aRxReady.2 = { d with chip := { d.chip with index := mrcmdx } } := by
    rw [dm9000aRxReady_eq]
  have hstep := receive_step stack iface (d := d.dm9000aRxReady.2) (by rw [hrdy]; exact hs)
  refine ⟨hstep.1, ?_⟩
  have hchip := Outcome.chip stack d { d.chip with index := mrcmdx }
  rw [← hrdy] at hchip
  exact hchip.trans stack hstep.2

theorem receiveLoop_empty {d : Driver} (hs : d.chip.rxSram = []) :
    receiveLoop stack iface d = d.dm9000aRxReady := by
  have hrdy : ¬ d.dm9000aRxReady.1 = dm9000PktReady := by
    rw [dm9000aRxReady_eq, if_pos hs]
    exact (by decide : ¬ (0 : BitVec 8) = dm9000PktReady)
  rw [receiveLoop]
  exact if_neg hrdy

theorem receiveLoop_pass {d : Driver} (hs : d.chip.rxSram ≠ []) :
    receiveLoop stack iface d = receiveLoop stack iface (pass stack iface d) := by
  have hrdy : d.dm9000aRxReady.1 = dm9000PktReady := by
    rw [dm9000aRxReady_eq, if_neg hs]
    rfl
  rw [receiveLoop]
  exact if_pos hrdy

/-- The loop makes one pass for each frame and starts each of them at its frame's first word. -/
theorem receiveLoop_frames (frames : List Frame) {d : Driver} (hs : d.chip.rxSram = frames.flatMap Frame.words) :
    receiveLoop stack iface d = ((pass stack iface)^[frames.length] d).dm9000aRxReady ∧
      (∀ k ≤ frames.length, ((pass stack iface)^[k] d).chip.rxSram = (frames.drop k).flatMap Frame.words) ∧
        Outcome stack d frames ((pass stack iface)^[frames.length] d) := by
  induction frames generalizing d with
  | nil =>
    refine ⟨receiveLoop_empty stack iface hs, fun k hk => ?_, .chip stack d d.chip⟩
    rw [Nat.le_zero.mp hk]
    exact hs
  | cons f frames ih =>
    rw [List.flatMap_cons] at hs
    obtain ⟨hrest, hone⟩ := pass_step stack iface hs
    obtain ⟨hloop, hheads, hmany⟩ := ih hrest
    have hne : d.chip.rxSram ≠ [] := by
      rw [hs]
      exact List.cons_ne_nil _ _
    rw [List.length_cons, Function.iterate_succ_apply]
    refine ⟨(receiveLoop_pass stack iface hne).trans hloop, fun k hk => ?_, hone.trans stack hmany⟩
    cases k with
    | zero => exact hs
    | succ k =>
      rw [Function.iterate_succ_apply]
      exact hheads k (Nat.le_of_succ_le_succ hk)

/-- The frames are taken one after the other, each as long as it is; the good ones that
get a buffer are the packets put on the queue, in their order and with their bytes. -/
theorem isr_decodes (frames : List Frame) (d : Driver) (hs : d.chip.rxSram = frames.flatMap Frame.words) :
    let start := ((d.dm9000aIow imr parSet).dm9000aIor isr).2
    let stop := dm9000aIsr stack iface d
    receiveLoop stack iface start = ((pass stack iface)^[frames.length] start).dm9000aRxReady ∧
      (∀ k ≤ frames.length, ((pass stack iface)^[k] start).chip.rxSram = (frames.drop k).flatMap Frame.words) ∧
        stop.chip.rxSram = [] ∧
          (∃ ps, stop.rcvdq = d.rcvdq ++ ps ∧ List.Forall₂ Carries (taken stack d.allocs frames) ps) ∧
            stop.ifInDiscards = d.ifInDiscards + BitVec.ofNat 32 (failed stack d.allocs frames) := by
  obtain ⟨start, hstart⟩ : ∃ start, start = ((d.dm9000aIow imr parSet).dm9000aIor isr).2 := ⟨_, rfl⟩
  have hsram : start.chip.rxSram = d.chip.rxSram := by
    rw [hstart]
    rfl
  obtain ⟨hloop, hheads, hout⟩ := receiveLoop_frames stack iface frames (hsram.trans hs)
  obtain ⟨last, hlast⟩ : ∃ last, last = (pass stack iface)^[frames.length] start := ⟨_, rfl⟩
  have hempty : last.chip.rxSram = [] := by
    rw [hlast, hheads frames.length (Nat.le_refl _), List.drop_length]
    rfl
  rw [← hlast] at hloop hout
  have hstop : ∃ chip : Chip, chip.rxSram = [] ∧ dm9000aIsr stack iface d = { last with chip := chip } := by
    rw [dm9000aRxReady_eq, if_pos hempty] at hloop
    unfold dm9000aIsr
    simp only [← hstart, hloop]
    rw [if_neg (by decide)]
    refine ⟨_, ?_, rfl⟩
    exact hempty
  obtain ⟨chip, hchip, hstop⟩ := hstop
  have hfirst : Outcome stack d [] start := hstart ▸ Outcome.chip stack d _
  have hrun := (hfirst.trans stack hout).trans stack (Outcome.chip stack last chip)
  rw [List.nil_append, List.append_nil, ← hstop] at hrun
  simp only [← hstart, ← hlast]
  refine ⟨hloop, hheads, ?_, hrun.packets, hrun.discards⟩
  rw [hstop]
  exact hchip

end

/-- Three bytes, a bad frame, and two frames of which the first gets no buffer. -/
theorem isr_decodes_mixed :
    ∃ (stack : Stack) (d : Driver) (ps : List Packet),
      (dm9000aIsr stack 0 d).chip.rxSram = [] ∧ (dm9000aIsr stack 0 d).rcvdq = ps ∧
        List.Forall₂ Carries [⟨0x4000, 3, [0x2211, 0x9933], rfl⟩, ⟨0x4000, 2, [0x5544], rfl⟩] ps ∧
          (dm9000aIsr stack 0 d).ifInDiscards = 1 := by
  let frames : List Frame := [⟨0x4000, 3, [0x2211, 0x9933], rfl⟩, ⟨0x8001, 1, [0x7777], rfl⟩,
    ⟨0x4000, 1, [0x6666], rfl⟩, ⟨0x4000, 2, [0x5544], rfl⟩]
  let stack : Stack := ⟨fun n _ => if n = 1 then none else some fun _ => 0, fun _ => 0⟩
  let d : Driver := ⟨⟨0, frames.flatMap Frame.words, fun _ => 0⟩, 0, 0, [], 0, 0⟩
  obtain ⟨-, -, hsram, ⟨ps, hps, hcarries⟩, hdiscards⟩ := isr_decodes stack 0 frames d rfl
  exact ⟨stack, d, ps, hsram, hps, hcarries, hdiscards⟩

end Driver

end FpgaQuat.Nic
