import Sync532.EncodeModel
import Sync532.PacketString

/-! host.cpp: the OpenCL part of `encode`. The two pointers are replaced by pointers
to the mapped buffers, and the chunk loop reads through them. -/
namespace Sync532

/-- The bytes at `input_buf` when `encode` is called, the array that `malloc` returns,
and the two OpenCL buffers, with the bytes behind the mapped `a_buf`. -/
structure OffloadMemory where
  payload : List Byte
  after : List Byte
  filled : List ℤ
  aBuf : List Byte
  aAfter : List Byte
  cBuf : List ℤ

/-- What `input_buf` can point to. -/
inductive BytePointer
  | caller
  | aBuf

/-- What `q_index` can point to. -/
inductive IntPointer
  | filled
  | cBuf

def OffloadMemory.bytes (m : OffloadMemory) : BytePointer → List Byte
  | .caller => m.payload ++ m.after
  | .aBuf => m.aBuf ++ m.aAfter

def OffloadMemory.ints (m : OffloadMemory) : IntPointer → List ℤ
  | .filled => m.filled
  | .cBuf => m.cBuf

/-- The locals `input_buf` and `q_index`. -/
structure OffloadPointers where
  inputBuf : BytePointer
  qIndex : IntPointer

/-- The loop that fills `q_index` with -1, when it points to the allocated array. -/
def OffloadMemory.fill (m : OffloadMemory) : OffloadMemory :=
  { m with filled := List.replicate m.payload.length (-1) }

/-- Both `enqueueMapBuffer` calls: the buffers keep their contents, and the pointers
are assigned. -/
def OffloadPointers.mapBuffers (_ : OffloadPointers) : OffloadPointers := ⟨.aBuf, .cBuf⟩

/-- The kernel: `cdc(a_buf,inlength,c_buf)`. -/
def OffloadMemory.kernel (m : OffloadMemory) : Option OffloadMemory :=
  (cdc m.aBuf (BitVec.ofNat 32 m.payload.length) m.cBuf).map (fun q => { m with cBuf := q })

/-- One iteration of the chunk loop: the range, the bytes that `SHA_HW` hashes, and
the bytes that `LZW` reads, if it is called. -/
structure ChunkVisit where
  first : ℤ
  last : ℤ
  hashed : Str
  compressed : Option Str
deriving DecidableEq

structure OffloadState where
  encode : EncodeState Str
  visits : List ChunkVisit

/-- `LZW` on `s_packet`, into a new block of twice the size of the chunk. -/
def offloadRecord (heap : ℕ → ℕ → Byte) (mem : List Byte) (sPacket : Str) (index : ℕ)
    (first last : ℤ) : Option FileRecord :=
  (lzw first.toNat last.toNat sPacket (malloc (heap index) ((last-first+1)*2).toNat)).bind
    (recordOf (slice mem first.toNat last.toNat))

/-- The body of the chunk loop. In each iteration `stackAt` gives the bytes behind the array
of `SHA_HW`, and `heap` what `malloc` returns. An entry of `q_index` that is no range in
`mem` makes `SHA_HW` read somewhere else. -/
def offloadChunk (sha : Str → Digest) (stackAt : ℕ → List Byte) (heap : ℕ → ℕ → Byte)
    (mem : List Byte) (sPacket : Str) (s : OffloadState) (index : ℕ) (first last : ℤ) :
    Option OffloadState :=
  if 0 ≤ first ∧ first ≤ last ∧ last < mem.length then
    (shaHW sha mem first.toNat last.toNat (stackAt index)).bind (fun hashValue =>
      let (umap, sent) := deduplication s.encode.umap (BitVec.ofNat 32 index) hashValue
      let hashed := slice mem first.toNat last.toNat
      if sent = -1 then
        (offloadRecord heap mem sPacket index first last).bind (fun record =>
          (lzwReads sPacket first.toNat last.toNat).map (fun fed =>
            ⟨⟨umap, s.encode.records ++ [record]⟩,
              s.visits ++ [⟨first, last, hashed, some fed⟩]⟩))
      else some ⟨⟨umap, s.encode.records ++ [.ref sent]⟩,
        s.visits ++ [⟨first, last, hashed, none⟩]⟩)
  else none

/-- `encode` from the allocation of `q_index` to the end of the chunk loop. -/
def offloadEncode (sha : Str → Digest) (stackAt : ℕ → List Byte) (heap : ℕ → ℕ → Byte)
    (s : EncodeState Str) (m : OffloadMemory) : Option OffloadState :=
  let p : OffloadPointers := ⟨.caller, .filled⟩
  let m := m.fill
  let p := p.mapBuffers
  m.kernel.bind (fun m =>
    (cString (m.bytes p.inputBuf)).bind (fun sPacket =>
      chunkLoop (offloadChunk sha stackAt heap (m.bytes p.inputBuf) sPacket) 0 (-1)
        (m.ints p.qIndex) ⟨s, []⟩))

end Sync532
