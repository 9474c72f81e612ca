import Sync532.ServerModel

/-! host.cpp: the bytes that `encode` stores into `file`, and the part of `file` that
`main` writes at the end. -/
namespace Sync532

/-- The table of `deduplication`, the memory of `file`, and the arguments `output_buf`,
as an index of `file`, and `*outlength`. -/
structure OutputState (κ : Type*) where
  umap : UMap κ (BitVec 32)
  file : List Byte
  outputBuf : ℕ
  outlength : ℕ

variable {κ : Type*} [DecidableEq κ]

/-- `memcpy(&output_buf[*outlength],src,n)` and `(*outlength)+=n`. -/
def OutputState.put (s : OutputState κ) (src : List Byte) (n : ℕ) : Option (OutputState κ) :=
  (memcpy s.file (s.outputBuf+s.outlength) src n).map
    (fun file => { s with file := file, outlength := s.outlength+n })

/-- One iteration, with its key and what `LZW` leaves in `output_code`. -/
def outputChunk (s : OutputState κ) (chunkUniqueId : BitVec 32) (hashValue : Option κ)
    (lzwOutput : Option LzwOutput) : Option (OutputState κ) :=
  hashValue.bind (fun hashValue =>
    let (umap, sent) := deduplication s.umap chunkUniqueId hashValue
    let s := { s with umap := umap }
    if sent = -1 then
      lzwOutput.bind (fun o =>
        (s.put (le32 (lzwHeader o.outlen)) 4).bind (fun s => s.put o.outputCode o.outlen))
    else s.put (le32 (refHeader sent)) 4)

/-- `LZW` on `s_packet`, into a new block of twice the size of the chunk. -/
def Packet.lzwOutput (p : Packet) (sPacket : Str) (index : ℕ) (first last : ℤ) :
    Option LzwOutput :=
  lzw first.toNat last.toNat sPacket (malloc (p.heap index) ((last-first+1)*2).toNat)

/-- What `main` keeps between two calls of `encode`. -/
structure HostState where
  umap : UMap Str (BitVec 32)
  file : List Byte
  offset : ℕ

/-- `encode(...,&file[offset],...,&output_length)`, which first sets `*outlength` to 0. -/
def encodeOutput (sha : Str → Digest) (p : Packet) (s : HostState) :
    Option (OutputState Str) := do
  let qIndex ← cdc p.payload (BitVec.ofNat 32 p.payload.length)
    (List.replicate p.payload.length (-1))
  let sPacket ← cString p.memory
  chunkLoop (fun s index first last => outputChunk s (BitVec.ofNat 32 index)
    (p.hashValue sha index first last) (p.lzwOutput sPacket index first last)) 0 (-1) qIndex
    ⟨s.umap, s.file, s.offset, 0⟩

/-- `offset += output_length`. -/
def hostStep (sha : Str → Digest) (s : HostState) (p : Packet) : Option HostState :=
  (encodeOutput sha p s).map (fun o => ⟨o.umap, o.file, s.offset+o.outlength⟩)

/-- All packets into the block `file` that `main` gets from `malloc`. -/
def encodeFile (sha : Str → Digest) (file : List Byte) (packets : List Packet) :
    Option HostState :=
  packets.foldlM (hostStep sha) ⟨UMap.empty, file, 0⟩

/-- `fwrite(&file[0],1,offset,outfd)`. -/
def HostState.written (s : HostState) : List Byte := s.file.take s.offset

end Sync532
