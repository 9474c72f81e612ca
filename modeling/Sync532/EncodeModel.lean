import Sync532.CdcModel
import Sync532.DedupModel
import Sync532.RecordFormat

/-! host.cpp: the chunk loop of `encode`, with the table that it carries from one
packet to the next. -/
namespace Sync532

/-- The memory of one call of `encode`: the payload at `input_buf` with the bytes
behind it and, for each chunk, the stack bytes behind `digest` and what `malloc`
returns. -/
structure Packet where
  payload : List Byte
  after : List Byte
  stack : ℕ → List Byte
  heap : ℕ → ℕ → Byte
  size : payload.length < 2^31

def Packet.memory (p : Packet) : List Byte := p.payload ++ p.after

/-- The static table of `deduplication`, and the records written so far. -/
structure EncodeState (κ : Type*) where
  umap : UMap κ (BitVec 32)
  records : List FileRecord

def encodeStart (κ : Type*) : EncodeState κ := ⟨UMap.empty, []⟩

variable {κ : Type*} [DecidableEq κ]

/-- What one iteration does with its key and the LZW record it may write. -/
def encodeChunk (s : EncodeState κ) (chunkUniqueId : BitVec 32) (hashValue : Option κ)
    (lzwRecord : Option FileRecord) : Option (EncodeState κ) :=
  hashValue.bind (fun hashValue =>
    let (umap, sent) := deduplication s.umap chunkUniqueId hashValue
    if sent = -1 then lzwRecord.map (fun r => ⟨umap, s.records ++ [r]⟩)
    else some ⟨umap, s.records ++ [.ref sent]⟩)

/-- The loop over `q_index`, where the keys and the LZW records are given by the
index and the range of the chunk. -/
def encodeLoop (hashValue : ℕ → ℤ → ℤ → Option κ)
    (lzwRecord : ℕ → ℤ → ℤ → Option FileRecord) (qIndex : List ℤ)
    (s : EncodeState κ) : Option (EncodeState κ) :=
  chunkLoop (fun s index first last => encodeChunk s (BitVec.ofNat 32 index)
    (hashValue index first last) (lzwRecord index first last)) 0 (-1) qIndex s

/-- `malloc(sizeof(unsigned char)*n)`, with any content. -/
def malloc (heap : ℕ → Byte) (n : ℕ) : List Byte := (List.range n).map heap

/-- The record of a run of `LZW`: `memcpy` takes `outlen` bytes of `output_code`. -/
def recordOf (chunk : Str) (o : LzwOutput) : Option FileRecord :=
  if o.outlen ≤ o.outputCode.length then some (.lzw chunk (o.outputCode.take o.outlen)) else none

/-- `SHA_HW(input_buf,chunk_start_pos,chunk_end_pos,&hash_value)`. -/
def Packet.hashValue (sha : Str → Digest) (p : Packet) (index : ℕ) (first last : ℤ) :
    Option Str :=
  shaHW sha p.memory first.toNat last.toNat (p.stack index)

/-- `LZW` on `s_packet`, into a new block of twice the size of the chunk. -/
def Packet.lzwRecord (p : Packet) (sPacket : Str) (index : ℕ) (first last : ℤ) :
    Option FileRecord :=
  (lzw first.toNat last.toNat sPacket (malloc (p.heap index) ((last-first+1)*2).toNat)).bind
    (recordOf (slice p.memory first.toNat last.toNat))

/-- `encode`, with `cdc` run on the payload and `q_index` filled with -1. The string
`s_packet` is made from `input_buf` as from a C string. -/
def encode (sha : Str → Digest) (p : Packet) (s : EncodeState Str) :
    Option (EncodeState Str) := do
  let qIndex ← cdc p.payload (BitVec.ofNat 32 p.payload.length)
    (List.replicate p.payload.length (-1))
  let sPacket ← cString p.memory
  encodeLoop (p.hashValue sha) (p.lzwRecord sPacket) qIndex s

/-- `encode` on one packet after the other, into one file. -/
def encodeRun (sha : Str → Digest) (packets : List Packet) : Option (EncodeState Str) :=
  packets.foldlM (fun s p => encode sha p s) (encodeStart Str)

end Sync532
