import Sync532.DecoderExtent
import Sync532.DecoderReads
import Sync532.DecoderRecords
import Sync532.PhraseGrowth

namespace Sync532

theorem lzwCodes_growth (chunk : Str) :
    2*chunk.length ≤ (lzwCodes chunk).length*((lzwCodes chunk).length+1) := by
  cases chunk with
  | nil => exact Nat.zero_le _
  | cons x as =>
    rw [lzwCodes_eq_writer, List.length_cons]
    exact PhraseWriter.length_le_codes_start length_of_mem_baseDict mem_baseDict x as

/-- `n` codes of 13 bits for a chunk of `L` bytes, with `L` at most `1+2+...+n`. -/
theorem lzw_compression_bound {s1 : Str} {chunkStart chunkEnd outlen : ℕ}
    {outputCode out : List Byte} (hle : chunkStart ≤ chunkEnd) (hend : chunkEnd < s1.length)
    (hlzw : lzw chunkStart chunkEnd s1 outputCode = some ⟨out, outlen⟩) :
    ∃ n, outlen = (13*n+7)/8 ∧ n ≤ chunkEnd-chunkStart+1 ∧
      2*(chunkEnd-chunkStart+1) ≤ n*(n+1) := by
  have hlen := length_slice s1 chunkStart chunkEnd hle hend
  have hcount := length_lzwCodes_le (slice s1 chunkStart chunkEnd)
  have hgrowth := lzwCodes_growth (slice s1 chunkStart chunkEnd)
  rw [hlen] at hcount hgrowth
  exact ⟨_, (lzw_outlen hle hend hlzw).1, hcount, hgrowth⟩

/-- Three letters. -/
theorem lzw_compression_bound_three :
    ∃ out outlen n, lzw 0 2 [65, 65, 65] (List.replicate 6 0) = some ⟨out, outlen⟩ ∧
      outlen = (13*n+7)/8 ∧ n ≤ 3 ∧ 2*3 ≤ n*(n+1) := by
  have hcount := length_lzwCodes_le (slice [65, 65, 65] 0 2)
  have hlen : (slice [65, 65, (65 : Byte)] 0 2).length = 3 := rfl
  obtain ⟨out, hout, -, -⟩ := lzw_spec (Nat.zero_le 2) (by decide) (by decide)
    (show codeBytes (lzwCodes (slice [65, 65, 65] 0 2)).length <
      (List.replicate 6 (0 : Byte)).length by
      rw [List.length_replicate, codeBytes]
      omega)
  obtain ⟨n, hn⟩ := lzw_compression_bound (Nat.zero_le 2) (by decide) hout
  exact ⟨out, _, n, hout, hn⟩

theorem sum_range'_one (n : ℕ) : 2*(List.range' 1 n).sum = n*(n+1) := by
  induction n with
  | zero => rfl
  | succ n ih =>
    rw [List.range'_1_concat, List.sum_append, List.sum_singleton, Nat.mul_add, ih]
    ring

/-- One byte value that is repeated `1+2+...+n` times takes `n` codes. -/
theorem length_lzwCodes_run (n : ℕ) (b : Byte) :
    (lzwCodes (List.replicate (List.range' 1 (n+1)).sum b)).length = n+1 := by
  have hpos : 1 ≤ (List.range' 1 (n+1)).sum := by
    rw [List.range'_succ, List.sum_cons]
    exact Nat.le_add_right _ _
  obtain ⟨m, hm⟩ := Nat.exists_eq_add_of_le' hpos
  have hrun := PhraseWriter.length_codes_run (x := b) length_of_mem_baseDict n 0
  rw [Nat.zero_add, hm, Nat.add_sub_cancel] at hrun
  rw [hm, List.replicate_succ, lzwCodes_eq_writer, ← hrun]
  simp [runDict]

/-- The bound is reached: the longest run for each number of codes. -/
theorem lzw_run_size (n : ℕ) (hn : 2 ≤ n) (b : Byte) (outputCode : List Byte)
    (hroom : n*(n+1) ≤ outputCode.length) :
    ∃ out, lzw 0 (n*(n+1)/2-1) (List.replicate (n*(n+1)/2) b) outputCode =
      some ⟨out, (13*n+7)/8⟩ := by
  obtain ⟨m, rfl⟩ := Nat.exists_eq_add_of_le' hn
  have hsize : (m+1+1)*(m+1+1+1) ≤ outputCode.length := hroom
  have hsum := sum_range'_one (m+1+1)
  have hlarge : 2*(m+2)+2 ≤ (m+1+1)*(m+1+1+1) := by nlinarith
  have hchunk : slice (List.replicate ((m+1+1)*(m+1+1+1)/2) b) 0 ((m+1+1)*(m+1+1+1)/2-1) =
      List.replicate ((List.range' 1 (m+1+1)).sum) b := by
    rw [← hsum, Nat.mul_div_cancel_left _ (by decide : 0 < 2)]
    have hfull := slice_full (List.replicate (List.range' 1 (m+1+1)).sum b) (by
      intro hnil
      have hlen := congrArg List.length hnil
      rw [List.length_replicate, List.length_nil] at hlen
      omega)
    rwa [List.length_replicate] at hfull
  have hcodes := length_lzwCodes_run (m+1) b
  rw [← hchunk] at hcodes
  have hend : (m+1+1)*(m+1+1+1)/2-1 < (List.replicate ((m+1+1)*(m+1+1+1)/2) b).length := by
    rw [List.length_replicate]
    omega
  have hclear : 2*((m+1+1)*(m+1+1+1)/2-1-0+1) ≤ outputCode.length := by omega
  have hpad : codeBytes (lzwCodes (slice (List.replicate ((m+1+1)*(m+1+1+1)/2) b) 0
      ((m+1+1)*(m+1+1+1)/2-1))).length < outputCode.length := by
    rw [hcodes, codeBytes]
    omega
  obtain ⟨out, hout, -, -⟩ := lzw_spec (Nat.zero_le _) hend hclear hpad
  rw [hcodes] at hout
  exact ⟨out, hout⟩

/-- Two codes for three letters. -/
theorem lzw_run_size_three :
    ∃ out, lzw 0 2 [65, 65, 65] (List.replicate 6 0) = some ⟨out, 4⟩ :=
  lzw_run_size 2 le_rfl 65 (List.replicate 6 0) (by decide)

attribute [local irreducible] readCode

/-- The reader that takes the code `first` of a stream. -/
def readerStart (first : ℕ) : PhraseReader Byte :=
  ⟨initialCodeTable, first, [BitVec.ofNat 8 first], [BitVec.ofNat 8 first]⟩

theorem readerStart_grown (first : ℕ) : (readerStart first).Grown 0 := by
  refine ⟨entriesAtMost_zero length_of_mem_baseDict, ?_, rfl, le_rfl⟩
  intro s hs
  apply List.ne_nil_of_length_pos
  rw [length_of_mem_baseDict s hs]
  exact Nat.one_pos

/-- The body of the loop is a step of the reader, as no entry is empty. -/
theorem step_of_decompressBody {s s' : DecompressState} {n : ℕ} (h : s.toReader.Grown n)
    (hbody : decompressBody s = some s') :
    s.toReader.step (readCode s.reader).1 = some s'.toReader := by
  simp only [decompressBody, Option.bind_eq_bind, Option.bind_eq_some_iff] at hbody
  obtain ⟨symbols, hsym, first, hfirst, prev, hprev, hs'⟩ := hbody
  have hphrase : s.toReader.phrase (readCode s.reader).1 = some symbols := hsym
  have hne : symbols ≠ [] := (h.phrase hphrase).2
  have hhead : symbols.head? = some first := by
    rw [charAt, if_pos (List.length_pos_of_ne_nil hne), ← List.head?_eq_getElem?] at hfirst
    exact hfirst
  have hold : s.toReader.table[s.toReader.old]? = some prev := hprev
  rw [← Option.some.inj hs']
  simp only [PhraseReader.step, hphrase, hhead, hold, Option.bind_eq_bind, Option.bind_some]
  rfl

/-- After `k` iterations: the reader has taken the first `k+1` codes of the stream. -/
theorem decompressAt_reader (size : ℕ) (r : BitReader) (k : ℕ) :
    ∀ s, decompressAt size r k = some s →
      (readerStart (streamCode r.input.rest 0)).run
        ((List.range' 1 k).map (streamCode r.input.rest)) = some s.toReader := by
  induction k with
  | zero =>
    intro s hs
    have hold := (decompressAt_inv size r 0 s hs).1.old
    obtain rfl : decompressStart r = s := Option.some.inj hs
    rw [← hold]
    rfl
  | succ k ih =>
    intro s' hs'
    rw [decompressAt_succ] at hs'
    obtain ⟨s, hs, hbody⟩ := Option.bind_eq_some_iff.mp hs'
    split_ifs at hbody
    have hrun := ih s hs
    have hgrown := (readerStart_grown _).run _ hrun
    have hcode := (readCode_taken (decompressAt_inv size r k s hs).1.reader).1
    have hstep := step_of_decompressBody hgrown hbody
    rw [hcode] at hstep
    rw [PhraseReader.run] at hrun ⊢
    rw [List.range'_1_concat, List.map_append, List.foldlM_append, hrun, Nat.add_comm 1 k,
      List.map_singleton]
    simp only [Option.bind_eq_bind, Option.bind_some, List.foldlM_cons, List.foldlM_nil, hstep]
    rfl

theorem decompress_taken {size : ℕ} (hpos : 1 ≤ size) (hsize : size < 2^31) (r : BitReader)
    (hold : OldInTable size r.input.rest) :
    ∃ s, (∀ fuel, iterations size < fuel → decompress fuel size r = some s) ∧
      decompressAt size r (iterations size) = some s ∧
      (readerStart (streamCode r.input.rest 0)).run
        ((List.range' 1 (iterations size)).map (streamCode r.input.rest)) = some s.toReader ∧
      s.reader.Taken r.input (13*(iterations size+1)) := by
  obtain ⟨s, hs, hmore⟩ := decompress_iterations hpos hsize r hold
  refine ⟨s, ?_, hs, decompressAt_reader size r _ s hs,
    (decompressAt_inv size r _ s hs).1.reader⟩
  intro fuel hfuel
  exact (whileFuel_iff fuel _ s).mpr ⟨iterations size, hfuel, hs, hmore⟩

/-- `Decompress` on a stream whose codes keep it in the table: it ends behind a number of
iterations that only `Size` decides, has then taken 13 bits for each code, and writes what the
codes stand for. -/
theorem decompress_output {size : ℕ} (hpos : 1 ≤ size) (hsize : size < 2^31) (r : BitReader)
    (hold : OldInTable size r.input.rest) :
    ∃ s reader, (∀ fuel, iterations size < fuel → decompress fuel size r = some s) ∧
      decompressAt size r (iterations size) = some s ∧
      s.reader.Taken r.input (13*(iterations size+1)) ∧
      (readerStart (streamCode r.input.rest 0)).run
        ((List.range' 1 (iterations size)).map (streamCode r.input.rest)) = some reader ∧
      s.output = reader.output ∧
      2*s.output.length ≤ (iterations size+1)*(iterations size+2) := by
  obtain ⟨s, hdecompress, hlast, hrun, htaken⟩ := decompress_taken hpos hsize r hold
  have hout := ((readerStart_grown _).run _ hrun).output
  rw [List.length_map, List.length_range', Nat.zero_add] at hout
  exact ⟨s, s.toReader, hdecompress, hlast, htaken, hrun, rfl, hout⟩

/-- A record of four bytes: the code of a letter, and in one iteration the next free code. -/
theorem decompress_output_four :
    ∃ s reader, (∀ fuel, 1 < fuel → decompress fuel 4 twoCodes = some s) ∧
      decompressAt 4 twoCodes 1 = some s ∧ s.reader.Taken twoCodes.input 26 ∧
      (readerStart 65).run [256] = some reader ∧ s.output = reader.output ∧
      2*s.output.length ≤ 6 := by
  have hfirst : streamCode twoCodes.input.rest 0 = 65 := by decide
  have hnext : streamCode twoCodes.input.rest 1 = 256 := by decide
  have hrun := decompress_output (by decide : 1 ≤ 4) (by decide) twoCodes twoCodes_oldInTable
  rw [show iterations 4 = 1 from rfl, List.range'_one, List.map_singleton, hfirst, hnext] at hrun
  exact hrun

end Sync532
