import FpgaQuaternions.Lib.Effects

/-!
# The board's task

The loop of `SSSInitialTask` in `iniche_init.c`, with everything it asks of its
environment (socket, Avalon bus, timer, LCD) as calls.  `iteration` is one pass of
`while (1)`, statement by statement; `toParse` stands where the source has the
commented-out `quaternion[i][data] = parse(buffer, data)` and does nothing.

Nothing ever assigns `quaternion[0]` and `quaternion[1]`: they hold what the stack
held.  A float is an exact rational.
-/

namespace FpgaQuat.Board

open Effects

/-- `sizeof(buffer)`. -/
def bufferSize : Nat := 80

/-- `char buffer[80]`. -/
structure Buffer where
  bytes : List UInt8
  length_eq : bytes.length = bufferSize

/-- What `recv` comes back with: a negative code, or at most `sizeof(buffer)` bytes. -/
inductive Received where
  | error (code : Int) (h : code < 0)
  | data (bytes : List UInt8) (h : bytes.length ≤ bufferSize)

/-- The return value of `recv`. -/
def Received.result : Received → Int
  | .error code _ => code
  | .data bytes _ => bytes.length

/-- The buffer after `recv`: the bytes received overwrite its front. -/
def Buffer.store (buffer : Buffer) : Received → Buffer
  | .error _ _ => buffer
  | .data bytes h =>
    ⟨bytes ++ buffer.bytes.drop bytes.length, by
      rw [List.length_append, List.length_drop, buffer.length_eq]; omega⟩

/-- What the task asks of its environment. -/
inductive Call where
  | recv
  | send (bytes : List UInt8)
  | iowr (regnum : Nat) (data : BitVec 32)
  | iord (regnum : Nat)
  | msleep (ms : Nat)
  | lcdShowText (text : String)
  | toParse (slot : Fin 2) (buffer : Buffer)

abbrev Call.Ans : Call → Type
  | .recv => Received
  | .send _ => Int
  | .iord _ => BitVec 32
  | .iowr _ _ | .msleep _ | .lcdShowText _ | .toParse _ _ => Unit

abbrev Io : Sig := ⟨Call, Call.Ans⟩

/-- The variables of the loop. -/
structure Task where
  buffer : Buffer
  quaternion : Fin 2 → Fin 4 → ℚ
  /-- `quaternion[2][0]`: the array has two rows, so this is a word past its end. -/
  quaternion20 : ℚ

/-- The conversion of a `float` argument to the `int` that `__builtin_stwio` takes: towards zero. -/
def toInt32 (x : ℚ) : BitVec 32 := BitVec.ofInt 32 (x.num.tdiv x.den)

/-! ## The statements of the loop -/

/-- `if (recv(SocketFD, buffer, sizeof(buffer), 0) < 0) exit(EXIT_FAILURE);` -/
def recvOrExit (buffer : Buffer) : Prog Io Buffer :=
  .call .recv fun r => if r.result < 0 then .exit 1 else .pure (buffer.store r)

/-- `if (recv(SocketFD, buffer, sizeof(buffer), 0) < 0) LCD_Show_Text("Conection error quat1");` -/
def recvOrShow (buffer : Buffer) : Prog Io Buffer :=
  .call .recv fun r =>
    if r.result < 0 then .call (.lcdShowText "Conection error quat1") fun _ => .pure (buffer.store r)
    else .pure (buffer.store r)

/-- `if (send(SocketFD, buffer, sizeof(buffer), 0) < 0) LCD_Show_Text("Conection error quat2");` -/
def sendOrShow (buffer : Buffer) : Prog Io Unit :=
  .call (.send buffer.bytes) fun n =>
    if n < 0 then .call (.lcdShowText "Conection error quat2") .pure else .pure ()

/-- `IOWR(QUAT_0_BASE, regnum, x);` -/
def iowr (regnum : Nat) (x : ℚ) : Prog Io Unit := .call (.iowr regnum (toInt32 x)) .pure

/-- `IORD(QUAT_0_BASE, regnum)`, assigned to a `float`. -/
def iord (regnum : Nat) : Prog Io ℚ := .call (.iord regnum) fun w => .pure (BitVec.toInt w : ℚ)

def msleep (ms : Nat) : Prog Io Unit := .call (.msleep ms) .pure

/-- The place of the commented-out call of `parse`. -/
def toParse (slot : Fin 2) (buffer : Buffer) : Prog Io Unit := .call (.toParse slot buffer) .pure

/-- One pass of `while (1)`. -/
def iteration (b : Task) : Prog Io Task := do
  let buffer ← recvOrExit b.buffer
  -- first quaternion
  let buffer ← recvOrExit buffer
  toParse 0 buffer
  iowr 0 (b.quaternion 0 0)
  iowr 0 (b.quaternion 0 1)
  iowr 0 (b.quaternion 0 2)
  iowr 0 (b.quaternion 0 3)
  -- second quaternion: after a failure the pass goes on with the old buffer
  let buffer ← recvOrShow buffer
  toParse 1 buffer
  iowr 1 (b.quaternion 1 0)
  iowr 1 (b.quaternion 1 1)
  iowr 1 (b.quaternion 1 2)
  iowr 1 (b.quaternion 1 3)
  msleep 100
  let _ ← iord 2
  let _ ← iord 2
  let _ ← iord 2
  let quaternion20 ← iord 2
  sendOrShow buffer
  return { b with buffer, quaternion20 }

/-! ## The buffer -/

/-- What `recv` has just stored is at the front of the buffer. -/
theorem Buffer.take_store (buffer : Buffer) (bytes : List UInt8) (h : bytes.length ≤ bufferSize) :
    (buffer.store (.data bytes h)).bytes.take bytes.length = bytes := List.take_left

theorem result_nonneg (bytes : List UInt8) (h : bytes.length ≤ bufferSize) :
    0 ≤ (Received.data bytes h).result := Int.natCast_nonneg _

/-! ## A pass that meets no error -/

/-- The calls of a pass and their answers: what the three `recv` came back with, the words read
and the value of `send`. -/
def pass (b : Task) (r1 r2 r3 : Received) (d : Fin 4 → BitVec 32) (n : Int) : List (Event Io) :=
  let buffer2 := (b.buffer.store r1).store r2
  let buffer3 := buffer2.store r3
  [⟨.recv, r1⟩, ⟨.recv, r2⟩, ⟨.toParse 0 buffer2, ()⟩] ++
  (List.ofFn fun j => ⟨.iowr 0 (toInt32 (b.quaternion 0 j)), ()⟩) ++
  [⟨.recv, r3⟩, ⟨.toParse 1 buffer3, ()⟩] ++
  (List.ofFn fun j => ⟨.iowr 1 (toInt32 (b.quaternion 1 j)), ()⟩) ++
  [⟨.msleep 100, ()⟩] ++ (List.ofFn fun j => ⟨.iord 2, d j⟩) ++ [⟨.send buffer3.bytes, n⟩]

/-- The variables after it. -/
def Task.afterPass (b : Task) (r1 r2 r3 : Received) (d : Fin 4 → BitVec 32) : Task :=
  { b with
    buffer := ((b.buffer.store r1).store r2).store r3
    quaternion20 := (d 3).toInt }

theorem returns_pass (b : Task) (r1 r2 r3 : Received) (d : Fin 4 → BitVec 32) (n : Int)
    (h1 : 0 ≤ r1.result) (h2 : 0 ≤ r2.result) (h3 : 0 ≤ r3.result) (hn : 0 ≤ n) :
    Returns (iteration b) (pass b r1 r2 r3 d n) (b.afterPass r1 r2 r3 d) := by
  simp only [iteration, recvOrExit, recvOrShow, sendOrShow, toParse, iowr, msleep, iord,
    Prog.call_bind, Prog.pure_bind, Prog.pure_eq]
  refine .call ?_
  rw [if_neg h1.not_gt]
  refine .call ?_
  rw [if_neg h2.not_gt]
  refine .call (.call (.call (.call (.call (.call ?_)))))
  rw [if_neg h3.not_gt]
  refine .call (.call (.call (.call (.call (.call (.call (.call (.call (.call (.call ?_))))))))))
  rw [if_neg hn.not_gt]
  exact .pure _

end FpgaQuat.Board
