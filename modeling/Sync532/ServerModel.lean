import Sync532.EncodeModel

/-! server.cpp: `get_packet`. host.cpp: the receive loop of `main`, with its ring of
packet buffers. What `encode` does with a packet is a parameter of the loop; where it does
not return, it is `none`, and the run ends there. -/
namespace Sync532

def numPackets : ℕ := 8
def pipeDepth : ℕ := 4
def numElements : ℕ := 16384
def header : ℕ := 2
def doneBitL : Byte := 1 <<< 7
def doneBitH : BitVec 32 := 1 <<< 15

/-- What `main` asks of `malloc` for `file`. -/
def fileSize : ℕ := 70000000

/-- One of the buffers `input[i]`. -/
structure Slot where
  bytes : List Byte
  size : bytes.length = numElements+header

/-- An outcome of `recvfrom`. -/
inductive Receive
  | failed
  | datagram (bytes : List Byte)
deriving DecidableEq

/-- The bytes that `recvfrom` stores: the rest of a longer datagram is dropped. -/
def Receive.delivered (blocksize : ℕ) : Receive → List Byte
  | .failed => []
  | .datagram bytes => bytes.take (blocksize+header)

def Receive.bytesRead (blocksize : ℕ) : Receive → ℤ
  | .failed => -1
  | .datagram bytes => (bytes.take (blocksize+header)).length

/-- `get_packet`: the buffer afterwards and the result. More bytes than the buffer has
room for are undefined. -/
def getPacket (blocksize : ℕ) (r : Receive) (buffer : Slot) : Option (Slot × ℤ) :=
  if hfits : (r.delivered blocksize).length ≤ numElements+header then
    some (⟨r.delivered blocksize ++ buffer.bytes.drop (r.delivered blocksize).length, by
      rw [List.length_append, List.length_drop, buffer.size]
      omega⟩, r.bytesRead blocksize)
  else none

/-- `buffer[1] & DONE_BIT_L`. -/
def packetDone (buffer : List Byte) : Bool := buffer.getD 1 0 &&& doneBitL ≠ 0

/-- `buffer[0] | (buffer[1] << 8)`, and then `length &= ~DONE_BIT_H`. -/
def packetLength (buffer : List Byte) : ℕ :=
  (((buffer.getD 0 0).setWidth 32 ||| (buffer.getD 1 0).setWidth 32 <<< 8) &&& ~~~doneBitH).toNat

/-- The globals `file` and `offset`. -/
structure FileBuffer where
  file : List Byte
  offset : ℕ
deriving DecidableEq

/-- What `encode` stores at `&file[offset]`, and `offset += output_length`. -/
def FileBuffer.append (b : FileBuffer) (output : List Byte) : Option FileBuffer :=
  (memcpy b.file b.offset output output.length).map
    (fun file => ⟨file, b.offset+output.length⟩)

/-- The arguments `&buffer[HEADER]` and `length`. -/
structure EncodeCall where
  inputBuf : List Byte
  inlength : ℕ
deriving DecidableEq

/-- The call of `encode` on a packet buffer. -/
def Slot.call (buffer : Slot) : EncodeCall :=
  ⟨buffer.bytes.drop header, packetLength buffer.bytes⟩

/-- The locals `input`, `writer` and `done` of `main`. -/
structure PacketRing where
  input : Fin numPackets → Slot
  writer : ℕ
  done : Bool

/-- `if (writer == NUM_PACKETS) writer = 0`. -/
def PacketRing.wrap (ring : PacketRing) : PacketRing :=
  { ring with writer := if ring.writer = numPackets then 0 else ring.writer }

/-- `get_packet(input[writer])`, the header, and `writer++`. The result of `get_packet` is
not used. -/
def PacketRing.receive (blocksize : ℕ) (r : Receive) (ring : PacketRing) :
    Option (EncodeCall × PacketRing) :=
  if hw : ring.writer < numPackets then
    (getPacket blocksize r (ring.input ⟨ring.writer, hw⟩)).map (fun (buffer, _) =>
      (buffer.call, ⟨Function.update ring.input ⟨ring.writer, hw⟩ buffer, ring.writer+1,
        packetDone buffer.bytes⟩))
  else none

structure ServerState (σ : Type*) where
  ring : PacketRing
  table : σ
  out : FileBuffer

def ServerState.wrap {σ : Type*} (s : ServerState σ) : ServerState σ :=
  { s with ring := s.ring.wrap }

/-- One step of the loop, as far as it comes: the outcome of its receive, its call of
`encode`, and the file before and afterwards. -/
structure ReceiveStep where
  receive : Receive
  call : Option EncodeCall
  before : FileBuffer
  after : Option FileBuffer
deriving DecidableEq

section Loop
variable {σ μ : Type*} (encode : μ → σ → EncodeCall → Option (σ × List Byte))
  (blocksize : ℕ)

/-- `encode(...,&file[offset],...,&output_length)` and `offset += output_length`. -/
def callStep (s : σ × FileBuffer) (c : EncodeCall × μ) : Option (σ × FileBuffer) :=
  (encode c.2 s.1 c.1).bind (fun (table, output) =>
    (s.2.append output).map (fun out => (table, out)))

/-- From `get_packet` to `writer++`. -/
def receiveStep (r : Receive × μ) (s : ServerState σ) : ReceiveStep × Option (ServerState σ) :=
  match s.ring.receive blocksize r.1 with
  | none => (⟨r.1, none, s.out, none⟩, none)
  | some (call, ring) =>
    let next := callStep encode (s.table, s.out) (call, r.2)
    (⟨r.1, some call, s.out, next.map Prod.snd⟩,
      next.map (fun (table, out) => ⟨ring, table, out⟩))

/-- `while (!done)`, on the outcomes that are still to come. Without another outcome
`recvfrom` blocks. -/
def serverLoop : List (Receive × μ) → ServerState σ → List ReceiveStep
  | [], _ => []
  | r :: rs, s =>
    if s.ring.done then []
    else
      let step := receiveStep encode blocksize r s.wrap
      step.1 :: step.2.elim [] (serverLoop rs)

/-- The steps of `main`, with what `malloc` returns for the packet buffers and for `file`.
The first receive stands in front of the loop. -/
def serverMain (input : Fin numPackets → Slot) (file : List Byte) (table : σ) :
    List (Receive × μ) → List ReceiveStep
  | [] => []
  | r :: rs =>
    let step :=
      receiveStep encode blocksize r ⟨⟨input, pipeDepth, false⟩, table, ⟨file, 0⟩⟩
    step.1 :: step.2.elim [] (serverLoop encode blocksize rs)

end Loop

/-- The memory that a call of `encode` finds: the bytes behind the packet buffer, the
stack bytes behind `digest` and what `malloc` returns. -/
structure CallMemory where
  behind : List Byte
  stack : ℕ → List Byte
  heap : ℕ → ℕ → Byte

/-- A call of `encode` from `main`: the table afterwards and the bytes it writes. -/
def hostEncode (sha : Str → Digest) (memory : CallMemory) (umap : UMap Str (BitVec 32))
    (call : EncodeCall) : Option (UMap Str (BitVec 32) × List Byte) :=
  let mem := call.inputBuf ++ memory.behind
  if hsize : call.inlength ≤ mem.length ∧ call.inlength < 2^31 then
    (encode sha ⟨mem.take call.inlength, mem.drop call.inlength, memory.stack, memory.heap,
      (List.length_take_le _ _).trans_lt hsize.2⟩ ⟨umap, []⟩).map
        (fun s => (s.umap, fileBytes s.records))
  else none

end Sync532
