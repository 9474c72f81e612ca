import Sync532.DecoderReads

namespace Sync532

/-- The bytes of an LZW record behind its header, and what the decoder makes of them. -/
theorem decompress_lzw {s1 : Str} {chunkStart chunkEnd outlen : ℕ} {outputCode out : List Byte}
    (hle : chunkStart ≤ chunkEnd) (hend : chunkEnd < s1.length)
    (hlzw : lzw chunkStart chunkEnd s1 outputCode = some ⟨out, outlen⟩)
    (hcodes : ∀ v ∈ lzwCodes (slice s1 chunkStart chunkEnd), v < 2^13)
    (following : List Byte) (r : BitReader)
    (hr : r.input = ⟨out.take outlen ++ following, false⟩) :
    ∃ s, s.output = slice s1 chunkStart chunkEnd ∧
      s.reader.inputPosition = 13*(lzwCodes (slice s1 chunkStart chunkEnd)).length ∧
      s.reader.input = ⟨following, false⟩ ∧
      ∀ fuel, (lzwCodes (slice s1 chunkStart chunkEnd)).length ≤ fuel →
        decompress fuel outlen r = some s := by
  -- a run with a result had the room it needs, so its output is the specified one
  obtain ⟨hroom, hpad⟩ := lzw_room hle hend hlzw
  obtain ⟨out', hout, hsize, hbits⟩ := lzw_spec hle hend hroom hpad
  rw [hlzw] at hout
  obtain ⟨rfl, rfl⟩ := LzwOutput.mk.inj (Option.some.inj hout)
  rw [slice_eq_cons s1 chunkStart chunkEnd hle hend] at *
  generalize s1[chunkStart] = x at *
  generalize (s1.drop (chunkStart+1)).take (chunkEnd-chunkStart) = as at *
  generalize hn : codeBytes (lzwCodes (x :: as)).length = n at *
  have hlen : (out.take n).length = n := by
    rw [List.length_take]
    omega
  have hdata : codeBytes (lzwCodes (x :: as)).length ≤ (out.take n ++ following).length := by
    rw [hn, List.length_append, hlen]
    omega
  -- the bytes behind the record do not touch the bits of its codes
  have hdatabits : ∀ p < 8*codeBytes (lzwCodes (x :: as)).length,
      bitAt (out.take n ++ following) p = codesBit (lzwCodes (x :: as)) p := by
    intro p hp
    rw [hn] at hp
    rw [bitAt_append_left _ _ _ (by rwa [hlen]), bitAt_take _ _ _ hp, hbits p hp]
  obtain ⟨s, hs, hat, hfuel⟩ := decompress_spec hdata hdatabits hcodes r hr
  refine ⟨s, hs, hat.position, ?_, hn ▸ hfuel⟩
  have hdrop : (out.take n ++ following).drop n = following := by
    have h : (out.take n ++ following).drop (out.take n).length = following := List.drop_left
    rwa [hlen] at h
  rw [hat.input, show (13*(lzwCodes (x :: as)).length+7)/8 = n from hn, hdrop]

theorem codeBytes_lt_of_room {s1 : Str} {chunkStart chunkEnd size : ℕ}
    (hle : chunkStart ≤ chunkEnd) (hend : chunkEnd < s1.length)
    (hroom : 2*(chunkEnd-chunkStart+1) < size) :
    codeBytes (lzwCodes (slice s1 chunkStart chunkEnd)).length < size := by
  have hcount := length_lzwCodes_le (slice s1 chunkStart chunkEnd)
  rw [length_slice s1 chunkStart chunkEnd hle hend] at hcount
  unfold codeBytes
  omega

/-- For every chunk of every string, on a large enough buffer with any content,
and with any bytes behind: `Decompress` returns the chunk, has read one code for
each code of `LZW`, and leaves exactly the bytes behind. -/
theorem decompress_lzw_round_trip (s1 : Str) (chunkStart chunkEnd : ℕ)
    (hle : chunkStart ≤ chunkEnd) (hend : chunkEnd < s1.length) (outputCode : List Byte)
    (hroom : 2*(chunkEnd-chunkStart+1) < outputCode.length) :
    ∃ out outlen, lzw chunkStart chunkEnd s1 outputCode = some ⟨out, outlen⟩ ∧
      ((∀ v ∈ lzwCodes (slice s1 chunkStart chunkEnd), v < 2^13) →
        ∀ (following : List Byte) (r : BitReader),
          r.input = ⟨out.take outlen ++ following, false⟩ →
          ∃ s, s.output = slice s1 chunkStart chunkEnd ∧
            s.reader.inputPosition = 13*(lzwCodes (slice s1 chunkStart chunkEnd)).length ∧
            s.reader.input = ⟨following, false⟩ ∧
            ∀ fuel, (lzwCodes (slice s1 chunkStart chunkEnd)).length ≤ fuel →
              decompress fuel outlen r = some s) ∧
      (chunkEnd-chunkStart+1 ≤ 7938 →
        ∀ v ∈ lzwCodes (slice s1 chunkStart chunkEnd), v < 2^13) := by
  have hpad := codeBytes_lt_of_room hle hend hroom
  obtain ⟨out, hlzw, -, -⟩ := lzw_spec hle hend hroom.le hpad
  refine ⟨out, _, hlzw, ?_, ?_⟩
  · intro hcodes following r hr
    exact decompress_lzw hle hend hlzw hcodes following r hr
  · intro hshort
    exact lzwCodes_lt _ (by rwa [length_slice s1 chunkStart chunkEnd hle hend])

/-- The chunk `ab` of `xaby`, with two bytes behind it in the stream. -/
theorem decompress_lzw_round_trip_ab :
    ∃ out outlen, lzw 1 2 [120, 97, 98, 121] (List.replicate 5 0xFF) = some ⟨out, outlen⟩ ∧
      ∃ s, s.output = [97, 98] ∧ s.reader.input = ⟨[1, 0], false⟩ ∧
        decompress 2 outlen ⟨⟨out.take outlen ++ [1, 0], false⟩, 0, 0⟩ = some s := by
  obtain ⟨out, outlen, hlzw, hdec, hlt⟩ := decompress_lzw_round_trip [120, 97, 98, 121] 1 2
    (by decide) (by decide) (List.replicate 5 0xFF) (by decide)
  obtain ⟨s, hs, -, hi, hf⟩ := hdec (hlt (by decide)) [1, 0]
    ⟨⟨out.take outlen ++ [1, 0], false⟩, 0, 0⟩ rfl
  exact ⟨out, outlen, hlzw, s, hs, hi, hf 2 (length_lzwCodes_le _)⟩

end Sync532
