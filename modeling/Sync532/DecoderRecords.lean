import Sync532.CodecRoundTrip
import Sync532.RecordFormat

namespace Sync532

theorem readLE32_le32 (h : BitVec 32) :
    readLE32 (h.setWidth 8) ((h >>> 8).setWidth 8) ((h >>> 16).setWidth 8)
      ((h >>> 24).setWidth 8) = h := by
  have hlt := h.isLt
  apply BitVec.eq_of_toNat_eq
  simp only [readLE32, BitVec.toNat_ofNat, BitVec.toNat_setWidth, BitVec.toNat_ushiftRight,
    Nat.shiftRight_eq_div_pow]
  omega

theorem readHeader_le32 (h : BitVec 32) (rest : List Byte) (eof : Bool) :
    IStream.readHeader ⟨le32 h ++ rest, eof⟩ = (h, ⟨rest, eof⟩) := by
  simp only [le32, List.cons_append, List.nil_append, IStream.readHeader, readLE32_le32]

/-- The bytes of a record body that `Decompress` turns back into `chunk` wherever
they stand. -/
structure LzwBody (chunk : Str) (body : List Byte) : Prop where
  length : body.length < 2^31
  decompress : ∀ (following : List Byte) (r : BitReader),
    r.input = ⟨body ++ following, false⟩ →
    ∃ s, s.output = chunk ∧ s.reader.input = ⟨following, false⟩ ∧
      ∀ fuel, body.length ≤ fuel → Sync532.decompress fuel body.length r = some s

/-- A body has to decode to its chunk; a location is a non-negative `int`. -/
def FileRecord.Valid : FileRecord → Prop
  | .lzw chunk body => LzwBody chunk body
  | .ref sent => sent.toNat < 2^31

/-- The state of the main loop in front of the records `rest`, when it has passed
the records `done`. -/
structure DecoderState.Between (done rest : List FileRecord) (s : DecoderState) : Prop where
  input : s.reader.input = ⟨fileBytes rest, false⟩
  chunks : s.chunks = lzwChunks done
  output : s.output = contents [] done
  running : s.stopped = false

theorem decoderBody_record {done rest : List FileRecord} {rec : FileRecord} {s : DecoderState}
    (h : s.Between done (rec :: rest)) (hv : rec.Valid) (fuel : ℕ)
    (hfuel : rec.bytes.length ≤ fuel) :
    ∃ s', decoderBody fuel s = some s' ∧ s'.Between (done ++ [rec]) rest := by
  have hcontent : contents [] (done ++ [rec]) = s.output ++ rec.content s.chunks := by
    rw [contents_append, h.output, h.chunks]
    simp [contents]
  cases rec with
  | lzw chunk body =>
    have hbytes :
        s.reader.input = ⟨le32 (lzwHeader body.length) ++ (body ++ fileBytes rest), false⟩ := by
      rw [h.input]
      simp [fileBytes, FileRecord.bytes]
    -- the header is read away, and `Decompress` starts at the body
    obtain ⟨d, hout, hin, hrun⟩ := hv.decompress (fileBytes rest)
      ⟨⟨body ++ fileBytes rest, false⟩, s.reader.inputPosition, s.reader.byte⟩ rfl
    refine ⟨⟨d.reader, s.chunks ++ [d.output], s.output ++ d.output, false⟩, ?_, hin,
      ?_, ?_, rfl⟩
    · simp only [decoderBody, hbytes, readHeader_le32, Bool.false_eq_true, if_false,
        DecoderState.record, lzwHeader_even, if_true, lzwHeader_size _ hv.length]
      rw [hrun fuel (by simp only [FileRecord.bytes, List.length_append] at hfuel; omega)]
      rfl
    · rw [hout, h.chunks, lzwChunks_append]
      rfl
    · rw [hcontent, hout]
      rfl
  | ref sent =>
    have hbytes : s.reader.input = ⟨le32 (refHeader sent) ++ fileBytes rest, false⟩ := by
      rw [h.input]
      simp [fileBytes, FileRecord.bytes]
    refine ⟨⟨⟨⟨fileBytes rest, false⟩, s.reader.inputPosition, s.reader.byte⟩, s.chunks,
      s.output ++ FileRecord.content s.chunks (.ref sent), false⟩, ?_, rfl, ?_,
        hcontent.symm, rfl⟩
    · simp only [decoderBody, hbytes, readHeader_le32, Bool.false_eq_true, if_false,
        DecoderState.record, refHeader_odd, refHeader_location _ hv, FileRecord.content]
      cases s.chunks[sent.toNat]? <;> simp
    · rw [h.chunks, lzwChunks_append]
      simp [lzwChunks]

theorem decoderBody_end {done : List FileRecord} {s : DecoderState} (h : s.Between done [])
    (fuel : ℕ) :
    ∃ s', decoderBody fuel s = some s' ∧ s'.stopped = true ∧
      s'.output = contents [] done := by
  have hread : s.reader.input.readHeader = (0, ⟨[], true⟩) := by rw [h.input]; rfl
  refine ⟨⟨⟨⟨[], true⟩, s.reader.inputPosition, s.reader.byte⟩, s.chunks,
    s.output, true⟩, ?_, rfl,
    h.output⟩
  simp only [decoderBody, hread, if_true]

/-- The main loop on any sequence of valid records: it stops with the contents of
the records as its output, and on the way it stands in front of every record. -/
theorem decoderMain_records (rs : List FileRecord) (hv : ∀ rec ∈ rs, rec.Valid) (fuel : ℕ)
    (hfuel : (fileBytes rs).length+2 ≤ fuel) :
    decoderMain fuel (fileBytes rs) = some (contents [] rs) ∧
      ∀ i ≤ rs.length, ∃ s,
        runSteps (decoderBody fuel) i (decoderStart (fileBytes rs)) = some s ∧
        s.Between (rs.take i) (rs.drop i) := by
  -- in front of record `i`, and stopped behind the last one
  let Inv (i : ℕ) (s : DecoderState) : Prop :=
    if i ≤ rs.length then s.Between (rs.take i) (rs.drop i)
    else s.stopped = true ∧ s.output = contents [] rs
  have hstart : Inv 0 (decoderStart (fileBytes rs)) := by
    simp only [Inv, Nat.zero_le, if_true]
    exact ⟨rfl, rfl, rfl, rfl⟩
  have hstep (i : ℕ) (hi : i < rs.length) (s : DecoderState) (hs : Inv i s) :
      ∃ s', decoderBody fuel s = some s' ∧ Inv (i+1) s' := by
    simp only [Inv, hi.le, if_true] at hs
    have hmem : rs[i] ∈ rs := List.getElem_mem hi
    have hle := length_bytes_le hmem
    rw [List.drop_eq_getElem_cons hi] at hs
    obtain ⟨s', hb, hs'⟩ := decoderBody_record hs (hv _ hmem) fuel (by omega)
    refine ⟨s', hb, ?_⟩
    simp only [Inv, show i+1 ≤ rs.length from hi, if_true]
    rwa [List.take_add_one, List.getElem?_eq_getElem hi]
  have hloop (i : ℕ) (hi : i < rs.length+1) (s : DecoderState) (hs : Inv i s) :
      (!s.stopped) = true ∧ ∃ s', decoderBody fuel s = some s' ∧ Inv (i+1) s' := by
    have hb := hs
    simp only [Inv, show i ≤ rs.length by omega, if_true] at hb
    refine ⟨by rw [hb.running]; rfl, ?_⟩
    rcases Nat.lt_or_ge i rs.length with hlt | hge
    · exact hstep i hlt s hs
    · obtain rfl : i = rs.length := by omega
      rw [List.take_length, List.drop_length] at hb
      obtain ⟨s', hs', hstop, hout⟩ := decoderBody_end hb fuel
      refine ⟨s', hs', ?_⟩
      simp only [Inv, show ¬rs.length+1 ≤ rs.length by omega, if_false]
      exact ⟨hstop, hout⟩
  have hend (s : DecoderState) (hs : Inv (rs.length+1) s) :
      s.stopped = true ∧ s.output = contents [] rs := by
    simpa only [Inv, show ¬rs.length+1 ≤ rs.length by omega, if_false] using hs
  constructor
  · have hcount := length_le_fileBytes rs
    obtain ⟨s, hs, hrun⟩ := whileFuel_counted hloop (fun s hs => by rw [(hend s hs).1]; rfl)
      (rs.length+1) 0 (by omega) _ hstart
    rw [decoderMain, hrun fuel (by omega), Option.map_some, (hend s hs).2]
  · intro i hi
    obtain ⟨s, hs, hb⟩ := runSteps_counted hstep _ hstart i hi
    exact ⟨s, hs, by simpa only [Inv, hi, if_true] using hb⟩

/-- A run of `LZW` that makes an LZW record. -/
structure LzwRun where
  s1 : Str
  chunkStart : ℕ
  chunkEnd : ℕ
  outputCode : List Byte
  out : List Byte
  outlen : ℕ
  le : chunkStart ≤ chunkEnd
  lt : chunkEnd < s1.length
  short : chunkEnd-chunkStart+1 ≤ 32767
  run : lzw chunkStart chunkEnd s1 outputCode = some ⟨out, outlen⟩
  codes : ∀ v ∈ lzwCodes (slice s1 chunkStart chunkEnd), v < 2^13

def LzwRun.chunk (r : LzwRun) : Str := slice r.s1 r.chunkStart r.chunkEnd

def LzwRun.body (r : LzwRun) : List Byte := r.out.take r.outlen

theorem lzwBody_of_lzw {s1 : Str} {chunkStart chunkEnd outlen : ℕ} {outputCode out : List Byte}
    (hle : chunkStart ≤ chunkEnd) (hend : chunkEnd < s1.length)
    (hlzw : lzw chunkStart chunkEnd s1 outputCode = some ⟨out, outlen⟩)
    (hcodes : ∀ v ∈ lzwCodes (slice s1 chunkStart chunkEnd), v < 2^13) :
    LzwBody (slice s1 chunkStart chunkEnd) (out.take outlen) := by
  obtain ⟨hbytes, hlen⟩ := lzw_outlen hle hend hlzw
  have hcount := length_lzwCodes_of_lt _ hcodes
  -- every code fills a byte of its own, so `outlen` is fuel enough
  have hmore : (lzwCodes (slice s1 chunkStart chunkEnd)).length ≤ outlen := by
    rw [hbytes]
    unfold codeBytes
    omega
  constructor
  · rw [hlen, hbytes]
    unfold codeBytes
    omega
  · intro following r hr
    obtain ⟨s, hs, -, hin, hrun⟩ := decompress_lzw hle hend hlzw hcodes following r hr
    refine ⟨s, hs, hin, ?_⟩
    intro fuel hf
    rw [hlen] at hf ⊢
    exact hrun fuel (hmore.trans hf)

/-- The records of the format: an LZW record, or a reference to a location. -/
inductive FormatRecord
  | lzw (run : LzwRun)
  | ref (k : ℕ) (small : k < 2^31)

def FormatRecord.record : FormatRecord → FileRecord
  | .lzw run => .lzw run.chunk run.body
  | .ref k _ => .ref (BitVec.ofNat 32 k)

theorem FormatRecord.record_valid (rec : FormatRecord) : rec.record.Valid := by
  cases rec with
  | lzw run => exact lzwBody_of_lzw run.le run.lt run.run run.codes
  | ref k small =>
    simp only [FormatRecord.record, FileRecord.Valid, BitVec.toNat_ofNat]
    omega

/-- The bytes that the encoder writes for the record: the header and `outlen` bytes. -/
def FormatRecord.bytes : FormatRecord → List Byte
  | .lzw run => le32 (lzwHeader run.outlen) ++ run.body
  | .ref k _ => le32 (refHeader (BitVec.ofNat 32 k))

def formatFile (rs : List FormatRecord) : List Byte := rs.flatMap FormatRecord.bytes

theorem formatFile_eq (rs : List FormatRecord) :
    formatFile rs = fileBytes (rs.map FormatRecord.record) := by
  have hbytes (rec : FormatRecord) : rec.bytes = rec.record.bytes := by
    cases rec with
    | lzw run =>
      have hlen := (lzw_outlen run.le run.lt run.run).2
      simp only [FormatRecord.bytes, FormatRecord.record, FileRecord.bytes, LzwRun.body, hlen]
    | ref k small => rfl
  rw [formatFile, fileBytes, List.flatMap_map, funext hbytes]

/-- The decoder on any file of the format: its output, and its state in front of
every record. -/
theorem decoderMain_format (rs : List FormatRecord) (fuel : ℕ)
    (hfuel : (formatFile rs).length+2 ≤ fuel) :
    decoderMain fuel (formatFile rs) = some (contents [] (rs.map FormatRecord.record)) ∧
      ∀ i ≤ rs.length, ∃ s,
        runSteps (decoderBody fuel) i (decoderStart (formatFile rs)) = some s ∧
        s.reader.input = ⟨formatFile (rs.drop i), false⟩ ∧
        s.chunks = lzwChunks ((rs.take i).map FormatRecord.record) ∧
        s.output = contents [] ((rs.take i).map FormatRecord.record) := by
  have hvalid : ∀ rec ∈ rs.map FormatRecord.record, rec.Valid := by
    intro rec hrec
    obtain ⟨r, -, rfl⟩ := List.mem_map.mp hrec
    exact r.record_valid
  rw [formatFile_eq] at hfuel ⊢
  obtain ⟨hmain, hrun⟩ := decoderMain_records _ hvalid fuel hfuel
  refine ⟨hmain, ?_⟩
  intro i hi
  obtain ⟨s, hs, hb⟩ := hrun i (by rwa [List.length_map])
  refine ⟨s, hs, ?_, ?_, ?_⟩
  · rw [hb.input, formatFile_eq, List.map_drop]
  · rw [hb.chunks, List.map_take]
  · rw [hb.output, List.map_take]

/-- The chunk `ab`, a reference to it, and a reference to nothing. -/
theorem decoderMain_format_ab :
    ∃ run : LzwRun, run.chunk = [97, 98] ∧
      decoderMain ((formatFile [.lzw run, .ref 0 (by decide), .ref 5 (by decide)]).length+2)
          (formatFile [.lzw run, .ref 0 (by decide), .ref 5 (by decide)]) =
        some [97, 98, 97, 98] := by
  obtain ⟨out, hlzw, -, -⟩ := @lzw_spec 1 2 [120, 97, 98, 121] (List.replicate 5 0)
    (by decide) (by decide) (by decide)
    (codeBytes_lt_of_room (by decide) (by decide) (by decide))
  refine ⟨⟨[120, 97, 98, 121], 1, 2, List.replicate 5 0, out, _, by decide,
    by decide, by decide,
    hlzw, lzwCodes_lt _ (by decide)⟩, rfl, ?_⟩
  exact (decoderMain_format _ _ le_rfl).1

end Sync532
