import Sync532.DecoderRecords
import Sync532.EncodeRecords
import Sync532.PacketString

namespace Sync532

/-- One chunk of a packet, with its index in the packet. -/
structure PacketChunk where
  packet : Packet
  index : ℕ
  chunkStart : ℕ
  chunkEnd : ℕ

namespace PacketChunk

def content (c : PacketChunk) : Str := slice c.packet.memory c.chunkStart c.chunkEnd

def stack (c : PacketChunk) : List Byte := c.packet.stack c.index

/-- The LZW record that `encode` writes for the chunk if it is new. -/
def lzwRecord (c : PacketChunk) : Option FileRecord :=
  (cString c.packet.memory).bind
    (fun sPacket => c.packet.lzwRecord sPacket c.index c.chunkStart c.chunkEnd)

/-- The same as a total function. -/
def fileRecord (c : PacketChunk) : FileRecord := c.lzwRecord.getD (.lzw c.content [])

theorem fileRecord_chunk (c : PacketChunk) : ∃ body, c.fileRecord = .lzw c.content body := by
  unfold fileRecord
  rcases hrec : c.lzwRecord with _ | r
  · exact ⟨[], rfl⟩
  · obtain ⟨sPacket, -, hlzw⟩ := Option.bind_eq_some_iff.mp hrec
    obtain ⟨o, -, hout⟩ := Option.bind_eq_some_iff.mp hlzw
    unfold recordOf at hout
    split_ifs at hout
    exact ⟨_, (Option.some.inj hout).symm⟩

end PacketChunk

/-- The chunks of the packet in the order of the loop, with their numbers. -/
def Packet.calls (p : Packet) : List (PacketChunk × BitVec 32) :=
  (segments 0 (cdcEnds p.payload)).zipIdx.map
    (fun r => (⟨p, r.2, r.1.1, r.1.2⟩, BitVec.ofNat 32 r.2))

theorem Packet.mem_calls {p : Packet} (h16 : winSize ≤ p.payload.length)
    {c : PacketChunk × BitVec 32} (hc : c ∈ p.calls) :
    c.1.packet = p ∧ (c.1.chunkStart, c.1.chunkEnd) ∈ segments 0 (cdcEnds p.payload) ∧
      c.2.toNat < 2^31 := by
  obtain ⟨r, hr, rfl⟩ := List.mem_map.mp hc
  have hidx := (List.mem_zipIdx hr).2.1
  have hcount := (cdcEnds_increasing p.payload).length_le (lt_of_mem_cdcEnds p.payload h16)
  have hsize := p.size
  rw [length_segments] at hidx
  refine ⟨rfl, List.fst_mem_of_mem_zipIdx hr, ?_⟩
  rw [BitVec.toNat_ofNat]
  omega

theorem encode_eq (sha : Str → Digest) (p : Packet) (h16 : winSize ≤ p.payload.length)
    (hzero : 0 ∈ p.memory) (s : EncodeState Str) :
    encode sha p s = p.calls.foldlM (fun s c => encodeChunk s c.2
      (keyOf sha PacketChunk.content PacketChunk.stack c.1) c.1.lzwRecord) s := by
  have hstr : cString p.memory = some (p.memory.takeWhile (· ≠ 0)) := if_pos hzero
  rw [encode, cdc_filled p.payload h16 p.size, hstr, Packet.calls, List.foldlM_map]
  simp only [Option.bind_eq_bind, Option.bind_some, PacketChunk.lzwRecord, hstr]
  exact chunkLoop_ends _ (cdcEnds p.payload) _ 0 0 s

/-- A new chunk that `encode` writes as a record the decoder can undo: it ends at the
latest at the first zero byte, `malloc` has room for its codes and the zero behind
them, and the codes fit into their bits. -/
structure PacketChunk.Encodable (c : PacketChunk) : Prop where
  text : c.chunkEnd ≤ cLength c.packet.memory
  room : 3 ≤ c.chunkEnd-c.chunkStart+1
  codes : ∀ v ∈ lzwCodes c.content, v < 2^13

theorem PacketChunk.Encodable.lzwRecord {c : PacketChunk} (h : c.Encodable)
    (hle : c.chunkStart ≤ c.chunkEnd) (hzero : 0 ∈ c.packet.memory) :
    c.lzwRecord = some c.fileRecord ∧ c.fileRecord.Valid := by
  obtain ⟨rest, hsplit⟩ := memory_split hzero
  have hstr : cString c.packet.memory = some (c.packet.memory.takeWhile (· ≠ 0)) := if_pos hzero
  have htext : c.chunkEnd ≤ (c.packet.memory.takeWhile (· ≠ 0)).length := h.text
  generalize c.packet.memory.takeWhile (· ≠ 0) = sPacket at hsplit hstr htext
  have hend : c.chunkEnd < (sPacket ++ [0]).length := by
    rw [List.length_append, List.length_singleton]
    omega
  have hcontent : slice (sPacket ++ [0]) c.chunkStart c.chunkEnd = c.content := by
    rw [PacketChunk.content, hsplit, slice_append_left _ _ _ _ hend]
  let block := malloc (c.packet.heap c.index)
    (((c.chunkEnd : ℤ)-(c.chunkStart : ℤ)+1)*2).toNat
  have hblock : block.length = 2*(c.chunkEnd-c.chunkStart+1) := by
    simp only [block, malloc, List.length_map, List.length_range]
    omega
  have hcount := length_lzwCodes_le c.content
  rw [← hcontent, length_slice _ _ _ hle hend, hcontent] at hcount
  have hroom := h.room
  obtain ⟨out, hlzw, -, -⟩ := lzw_spec hle hend hblock.ge (by
    rw [hcontent, hblock]
    unfold codeBytes
    omega)
  generalize codeBytes (lzwCodes (slice (sPacket ++ [0]) c.chunkStart c.chunkEnd)).length = outlen
    at hlzw
  have hbody := lzwBody_of_lzw hle hend hlzw (by rw [hcontent]; exact h.codes)
  have hlen := (lzw_outlen hle hend hlzw).2
  have hfits : outlen ≤ out.length := by
    rw [List.length_take] at hlen
    omega
  rw [lzw_terminator _ _ _ hle htext] at hlzw
  rw [hcontent] at hbody
  have hrecord : c.lzwRecord = some (.lzw c.content (out.take outlen)) := by
    simp only [PacketChunk.lzwRecord, hstr, Option.bind_some, Packet.lzwRecord, Int.toNat_natCast]
    rw [show malloc _ _ = block from rfl, hlzw, Option.bind_some, recordOf, if_pos hfits]
    rfl
  have hfile : c.fileRecord = .lzw c.content (out.take outlen) := by
    rw [PacketChunk.fileRecord, hrecord]
    rfl
  rw [hrecord, hfile]
  exact ⟨rfl, hbody⟩

end Sync532
