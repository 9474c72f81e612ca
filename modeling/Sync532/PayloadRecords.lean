import Sync532.HostRuns
import Sync532.RunStorage

namespace Sync532

/-- The byte `q` of the codes in 13 bits each. -/
def packedByte (codes : List ℕ) (q : ℕ) : Byte :=
  BitVec.ofBoolListBE ((List.range 8).map (fun i => codesBit codes (8*q+i)))

/-- The codes in 13 bits each, filled up with zero bits to whole bytes. -/
def packedBytes (codes : List ℕ) : List Byte :=
  (List.range (codeBytes codes.length)).map (packedByte codes)

theorem length_packedBytes (codes : List ℕ) :
    (packedBytes codes).length = codeBytes codes.length := by
  rw [packedBytes, List.length_map, List.length_range]

theorem getMsbD_packedByte (codes : List ℕ) (q i : ℕ) (hi : i < 8) :
    (packedByte codes q).getMsbD i = codesBit codes (8*q+i) := by
  have hbits : (packedByte codes q).getMsbD i =
      ((List.range 8).map (fun i => codesBit codes (8*q+i))).getD i false :=
    BitVec.getMsbD_ofBoolListBE
  rw [hbits, List.getD_eq_getElem?_getD, List.getElem?_map, List.getElem?_range hi]
  rfl

theorem bitAt_packedBytes (codes : List ℕ) (p : ℕ) (hp : p < 8*codeBytes codes.length) :
    bitAt (packedBytes codes) p = codesBit codes p := by
  have hq : p/8 < codeBytes codes.length := by omega
  rw [bitAt, packedBytes, List.getD_eq_getElem?_getD, List.getElem?_map,
    List.getElem?_range hq, Option.map_some, Option.getD_some,
    getMsbD_packedByte _ _ _ (Nat.mod_lt _ (by decide)), Nat.div_add_mod]

/-- What `LZW` writes, whatever the buffer held. -/
theorem lzw_writes {chunkStart chunkEnd outlen : ℕ} {s1 : Str} {outputCode out : List Byte}
    (hle : chunkStart ≤ chunkEnd) (hend : chunkEnd < s1.length)
    (h : lzw chunkStart chunkEnd s1 outputCode = some ⟨out, outlen⟩) :
    out.take outlen = packedBytes (lzwCodes (slice s1 chunkStart chunkEnd)) := by
  obtain ⟨hclear, hpad⟩ := lzw_room hle hend h
  obtain ⟨out', hlzw, hsize, hbits⟩ := lzw_spec hle hend hclear hpad
  obtain ⟨rfl, rfl⟩ := LzwOutput.mk.inj (Option.some.inj (h.symm.trans hlzw))
  have hlen : (out.take (codeBytes (lzwCodes (slice s1 chunkStart chunkEnd)).length)).length =
      codeBytes (lzwCodes (slice s1 chunkStart chunkEnd)).length := by
    rw [List.length_take, hsize]
    omega
  apply bytes_of_bits
  · rw [hlen, length_packedBytes]
  · intro p hp
    rw [hlen] at hp
    rw [bitAt_take _ _ _ hp, hbits p hp, bitAt_packedBytes _ _ hp]

/-- The record of a chunk. -/
def chunkRecord (chunk : Str) : FileRecord := .lzw chunk (packedBytes (lzwCodes chunk))

theorem PacketChunk.Encodable.fileRecord {c : PacketChunk} (h : c.Encodable)
    (hle : c.chunkStart ≤ c.chunkEnd) (hzero : 0 ∈ c.packet.memory) :
    c.fileRecord = chunkRecord c.content := by
  obtain ⟨rest, hsplit⟩ := memory_split hzero
  have hstr : cString c.packet.memory = some (c.packet.memory.takeWhile (· ≠ 0)) := if_pos hzero
  have htext : c.chunkEnd ≤ (c.packet.memory.takeWhile (· ≠ 0)).length := h.text
  obtain ⟨hrecord, -⟩ := h.lzwRecord hle hzero
  rw [PacketChunk.lzwRecord, hstr, Option.bind_some] at hrecord
  generalize c.packet.memory.takeWhile (· ≠ 0) = sPacket at hsplit htext hrecord
  obtain ⟨⟨out, outlen⟩, hlzw, hout⟩ := Option.bind_eq_some_iff.mp hrecord
  have hend : c.chunkEnd < (sPacket ++ [0]).length := by
    rw [List.length_append, List.length_singleton]
    omega
  have hcontent : slice (sPacket ++ [0]) c.chunkStart c.chunkEnd = c.content := by
    rw [PacketChunk.content, hsplit, slice_append_left _ _ _ _ hend]
  simp only [Int.toNat_natCast] at hlzw
  rw [← lzw_terminator _ _ _ hle htext] at hlzw
  have hbytes := lzw_writes hle hend hlzw
  rw [hcontent] at hbytes
  unfold recordOf at hout
  split_ifs at hout
  rw [← Option.some.inj hout, chunkRecord, ← hbytes]
  rfl

end Sync532
