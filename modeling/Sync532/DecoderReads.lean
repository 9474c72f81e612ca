import Sync532.DecoderModel
import Sync532.LzwPacking
import Sync532.StreamReads

namespace Sync532

/-- The reader has taken the first `pos` bits of `data`: it has fetched the bytes
they touch, and holds the one that is not used up. -/
structure BitReader.At (data : List Byte) (pos : ℕ) (r : BitReader) : Prop where
  position : r.inputPosition = pos
  input : r.input = ⟨data.drop ((pos+7)/8), false⟩
  byte : pos%8 ≠ 0 → r.byte = data.getD (pos/8) 0

theorem BitReader.At.taken {data : List Byte} {pos : ℕ} {r : BitReader} (h : r.At data pos)
    (hpos : pos ≤ 8*data.length) (hmax : pos < 2^64) : r.Taken ⟨data, false⟩ pos := by
  have hseen : decide (data.length < (pos+7)/8) = false := decide_eq_false (by omega)
  refine ⟨?_, ?_, ?_, ?_⟩
  · rw [h.position, Nat.mod_eq_of_lt hmax]
  · rw [h.input]
  · rw [h.input, hseen, Bool.or_false]
  · intro hm
    rw [h.byte hm]
    exact (streamByte_of_lt data (pos/8) (by omega) 0).symm

theorem BitReader.Taken.at {data : List Byte} {pos : ℕ} {r : BitReader}
    (h : r.Taken ⟨data, false⟩ pos) (hpos : pos ≤ 8*data.length) (hmax : pos < 2^64) :
    r.At data pos := by
  have hseen : decide (data.length < (pos+7)/8) = false := decide_eq_false (by omega)
  have hrest : r.input.rest = data.drop ((pos+7)/8) := h.rest
  have heof : r.input.eof = false := by rw [h.eof, hseen, Bool.or_false]
  refine ⟨?_, ?_, ?_⟩
  · rw [h.position, Nat.mod_eq_of_lt hmax]
  · rw [← hrest, ← heof]
  · intro hm
    rw [h.byte hm]
    exact streamByte_of_lt data (pos/8) (by omega) 0

theorem streamCode_packed {data : List Byte} {codes : List ℕ} {n : ℕ}
    (hdata : n ≤ data.length) (hn : 13*codes.length ≤ 8*n)
    (hbits : ∀ p < 8*n, bitAt data p = codesBit codes p) (hcodes : ∀ v ∈ codes, v < 2^13)
    (k : ℕ) (hk : k < codes.length) :
    streamCode data k = codes[k] := by
  apply streamCode_eq data k codes[k] (hcodes _ (List.getElem_mem hk))
  intro i hi
  unfold codeLength at *
  rw [streamBit_eq_bitAt data _ (by omega), hbits _ (by omega), codesBit,
    show (13*k+i)/13 = k by omega, show (13*k+i)%13 = i by omega, List.getD_eq_getElem?_getD,
    List.getElem?_eq_getElem hk, Option.getD_some]

theorem readCode_packed {data : List Byte} {codes : List ℕ} {n : ℕ} (hdata : n ≤ data.length)
    (hn : 13*codes.length ≤ 8*n) (hbits : ∀ p < 8*n, bitAt data p = codesBit codes p)
    (hcodes : ∀ v ∈ codes, v < 2^13) (hmax : 13*codes.length < 2^64) {r : BitReader} (k : ℕ)
    (hk : k < codes.length) (h : r.At data (13*k)) :
    (readCode r).1 = codes[k] ∧ (readCode r).2.At data (13*(k+1)) := by
  obtain ⟨hcode, hnext⟩ := readCode_taken (h.taken (by omega) (by omega))
  unfold codeLength at hnext
  rw [hcode]
  exact ⟨streamCode_packed hdata hn hbits hcodes k hk, hnext.at (by omega) (by omega)⟩

theorem initialCodeTable_eq : initialCodeTable = baseDict := rfl

attribute [local irreducible] readCode initialTable baseDict

def DecompressState.toReader (s : DecompressState) : PhraseReader Byte :=
  ⟨s.codeTable, s.old, s.symbol, s.output⟩

theorem decompressBody_of_step (s : DecompressState) (r : PhraseReader Byte)
    (h : s.toReader.step (readCode s.reader).1 = some r) :
    ∃ s', decompressBody s = some s' ∧ s'.toReader = r ∧
      s'.reader = (readCode s.reader).2 := by
  simp only [PhraseReader.step, Option.bind_eq_bind, Option.bind_eq_some_iff] at h
  obtain ⟨symbols, hsym, first, hfirst, prev, hprev, hr⟩ := h
  have hchar : charAt symbols 0 = some first := by
    have hne : symbols ≠ [] := fun he => by simp [he] at hfirst
    rw [charAt, if_pos (List.length_pos_of_ne_nil hne), ← List.head?_eq_getElem?, hfirst]
  have hsym' : s.symbols (readCode s.reader).1 = some symbols := hsym
  have hprev' : s.codeTable[s.old]? = some prev := hprev
  refine ⟨⟨(readCode s.reader).2, s.codeTable ++ [prev ++ [first]], (readCode s.reader).1,
    [first], s.output ++ symbols⟩, ?_, Option.some.inj hr, rfl⟩
  simp only [decompressBody, hsym', hchar, hprev', Option.bind_eq_bind, Option.bind_some]

/-- `Decompress` stops behind the last code, for every number of codes: the test
on the byte position holds in front of each code and fails behind all of them. -/
theorem stop_test (n k : ℕ) (hk : k ≤ n) (hn : 0 < n) :
    13*k/8 < codeBytes n-1 ↔ k < n := by
  unfold codeBytes
  omega

theorem decompress_spec {data : List Byte} {x : Byte} {as : Str}
    (hdata : codeBytes (lzwCodes (x :: as)).length ≤ data.length)
    (hbits : ∀ p < 8*codeBytes (lzwCodes (x :: as)).length,
      bitAt data p = codesBit (lzwCodes (x :: as)) p)
    (hcodes : ∀ v ∈ lzwCodes (x :: as), v < 2^13) (r : BitReader)
    (hr : r.input = ⟨data, false⟩) :
    ∃ s, s.output = x :: as ∧ s.reader.At data (13*(lzwCodes (x :: as)).length) ∧
      ∀ fuel, (lzwCodes (x :: as)).length ≤ fuel →
        decompress fuel (codeBytes (lzwCodes (x :: as)).length) r = some s := by
  have hcount := length_lzwCodes_of_lt _ hcodes
  obtain ⟨rest, last, hsplit, hrun, hout⟩ :=
    PhraseReader.run_codes baseDict length_of_mem_baseDict
    mem_baseDict x as
  rw [← lzwCodes_eq_writer, idxOf_baseDict] at hsplit
  rw [idxOf_baseDict] at hrun
  generalize hc : lzwCodes (x :: as) = codes at *
  have hlen : codes.length = rest.length+1 := by rw [hsplit, List.length_cons]
  have hroom : 13*codes.length ≤ 8*codeBytes codes.length := by unfold codeBytes; omega
  have hread (k : ℕ) (hk : k < codes.length) (b : BitReader) (hb : b.At data (13*k)) :
      (readCode b).1 = codes[k] ∧ (readCode b).2.At data (13*(k+1)) :=
    readCode_packed hdata hroom hbits hcodes (by omega) k hk hb
  -- after k more codes the state is the abstract reader's after k more codes
  let Inv (k : ℕ) (s : DecompressState) : Prop :=
    PhraseReader.run ⟨baseDict, x.toNat, [x], [x]⟩ (rest.take k) = some s.toReader ∧
      s.reader.At data (13*(k+1))
  have hstart : Inv 0 (decompressStart r) := by
    obtain ⟨hcode, hat⟩ := hread 0 (by omega) { r with inputPosition := 0 }
      ⟨rfl, by simpa using hr, by simp⟩
    have hfirst : (readCode { r with inputPosition := 0 }).1 = x.toNat := by
      rw [hcode]
      simp [hsplit]
    refine ⟨?_, hat⟩
    simp only [List.take_zero, PhraseReader.run, List.foldlM_nil, DecompressState.toReader,
      decompressStart, hfirst, BitVec.ofNat_toNat, BitVec.setWidth_eq, initialCodeTable_eq]
    rfl
  have hmore (k : ℕ) (hk : k ≤ rest.length) (s : DecompressState) (hs : Inv k s) :
      decompressMore (codeBytes codes.length) s = decide (k < rest.length) := by
    have hsize : (codeBytes codes.length+(2^64-1))%2^64 = codeBytes codes.length-1 := by
      unfold codeBytes
      omega
    have htest := stop_test codes.length (k+1) (by omega) (by omega)
    rw [decompressMore, hs.2.position, hsize]
    exact decide_eq_decide.mpr (htest.trans (by omega))
  have hstep (k : ℕ) (hk : k < rest.length) (s : DecompressState) (hs : Inv k s) :
      ∃ s', decompressBody s = some s' ∧ Inv (k+1) s' := by
    obtain ⟨hcode, hat⟩ := hread (k+1) (by omega) s.reader hs.2
    have hbound : k+1 < codes.length := by omega
    have hget : codes[k+1] = rest[k] := by simp [hsplit]
    have hnext := PhraseReader.run_take_succ ⟨baseDict, x.toNat, [x], [x]⟩ rest k hk
    obtain ⟨r', hr'⟩ := PhraseReader.run_take hrun (k+1)
    rw [hs.1, Option.bind_some] at hnext
    obtain ⟨s', hb, hto, hrd⟩ := decompressBody_of_step s r' (by
      rw [hcode, hget, ← hnext, hr'])
    exact ⟨s', hb, hto ▸ hr', hrd ▸ hat⟩
  have hloop (k : ℕ) (hk : k < rest.length) (s : DecompressState) (hs : Inv k s) :
      decompressMore (codeBytes codes.length) s = true ∧
        ∃ s', decompressBody s = some s' ∧ Inv (k+1) s' :=
    ⟨by rw [hmore k hk.le s hs, decide_eq_true hk], hstep k hk s hs⟩
  have hstop (s : DecompressState) (hs : Inv rest.length s) :
      decompressMore (codeBytes codes.length) s = false := by
    rw [hmore rest.length le_rfl s hs, decide_eq_false (lt_irrefl _)]
  obtain ⟨s, hs, hfuel⟩ := whileFuel_counted hloop hstop rest.length 0 (by omega) _ hstart
  refine ⟨s, ?_, by rw [hlen]; exact hs.2, fun fuel hf => hfuel fuel (by omega)⟩
  have hfinal := hs.1
  rw [List.take_length, hrun] at hfinal
  rw [← hout]
  exact (congrArg PhraseReader.output (Option.some.inj hfinal)).symm

end Sync532
