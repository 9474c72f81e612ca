import Sync532.DecoderReads

namespace Sync532

/-- The 13 bits of a code, most significant bit first. -/
def codeBits (v : ℕ) : List Bool := (List.range 13).map (fun i => v.testBit (12-i))

/-- The bits of a byte string, most significant bit of each byte first. -/
def bytesBits (data : List Byte) : List Bool :=
  data.flatMap (fun b => (List.range 8).map (fun i => b.getMsbD i))

/-- The results of `n` calls of `Read_code`. -/
def readCodes : ℕ → BitReader → List ℕ
  | 0, _ => []
  | n+1, r => (readCode r).1 :: readCodes n (readCode r).2

theorem getElem?_flatMap_blocks {α β : Type*} (f : α → List β) (m : ℕ) (hm : 0 < m)
    (hf : ∀ a, (f a).length = m) (l : List α) (p : ℕ) :
    (l.flatMap f)[p]? = (l[p/m]?).bind (fun a => (f a)[p%m]?) := by
  induction l generalizing p with
  | nil => simp
  | cons a l ih =>
    rw [List.flatMap_cons, List.getElem?_append, hf]
    split_ifs with hp
    · rw [Nat.div_eq_of_lt hp, Nat.mod_eq_of_lt hp]
      rfl
    · -- one block further
      obtain ⟨q, rfl⟩ := Nat.exists_eq_add_of_le (Nat.le_of_not_lt hp)
      rw [Nat.add_sub_cancel_left, ih, Nat.add_mod_left, Nat.add_div_left q hm]
      rfl

theorem length_flatMap_blocks {α β : Type*} (f : α → List β) (m : ℕ)
    (hf : ∀ a, (f a).length = m) (l : List α) : (l.flatMap f).length = m*l.length := by
  induction l with
  | nil => rfl
  | cons a l ih =>
    rw [List.flatMap_cons, List.length_append, hf, ih, List.length_cons, Nat.mul_succ, Nat.add_comm]

theorem length_codeBits (v : ℕ) : (codeBits v).length = 13 := by
  rw [codeBits, List.length_map, List.length_range]

theorem codesBits_getElem? (codes : List ℕ) (p : ℕ) (hp : p < 13*codes.length) :
    (codes.flatMap codeBits)[p]? = some (codesBit codes p) := by
  have hlt : p/13 < codes.length := by omega
  have hmod : p%13 < 13 := Nat.mod_lt p (by decide)
  rw [getElem?_flatMap_blocks codeBits 13 (by decide) length_codeBits,
    List.getElem?_eq_getElem hlt, Option.bind_some, codeBits, List.getElem?_map,
    List.getElem?_range hmod, codesBit, List.getD_eq_getElem?_getD, List.getElem?_eq_getElem hlt]
  rfl

theorem length_bytesBits (data : List Byte) : (bytesBits data).length = 8*data.length :=
  length_flatMap_blocks _ 8 (fun b => by rw [List.length_map, List.length_range]) data

theorem bytesBits_getElem? (data : List Byte) (p : ℕ) (hp : p < 8*data.length) :
    (bytesBits data)[p]? = some (bitAt data p) := by
  have hlt : p/8 < data.length := by omega
  have hmod : p%8 < 8 := Nat.mod_lt p (by decide)
  rw [bytesBits, getElem?_flatMap_blocks _ 8 (by decide)
    (fun b => by rw [List.length_map, List.length_range]), List.getElem?_eq_getElem hlt,
    Option.bind_some, List.getElem?_map, List.getElem?_range hmod, bitAt,
    List.getD_eq_getElem?_getD, List.getElem?_eq_getElem hlt]
  rfl

/-- Bytes that hold the bits of `codes` and zeros are the codes with padding. -/
theorem bytesBits_packed (data : List Byte) (codes : List ℕ)
    (hlen : 13*codes.length ≤ 8*data.length)
    (hbits : ∀ p < 8*data.length, bitAt data p = codesBit codes p) :
    bytesBits data = codes.flatMap codeBits ++
      List.replicate (8*data.length-13*codes.length) false := by
  have hcodes : (codes.flatMap codeBits).length = 13*codes.length :=
    length_flatMap_blocks codeBits 13 length_codeBits codes
  apply List.ext_getElem?
  intro p
  rcases Nat.lt_or_ge p (8*data.length) with hp | hp
  · rw [bytesBits_getElem? data p hp, hbits p hp, List.getElem?_append, hcodes]
    split_ifs with hin
    · rw [codesBits_getElem? codes p hin]
    · -- behind the last code
      rw [List.getElem?_replicate, if_pos (by omega), codesBit, List.getD_eq_getElem?_getD,
        List.getElem?_eq_none (by omega), Option.getD_none, Nat.zero_testBit]
  · rw [List.getElem?_eq_none (by rwa [length_bytesBits]), List.getElem?_eq_none]
    rw [List.length_append, hcodes, List.length_replicate]
    omega

theorem readCodes_taken {input : IStream} (n k : ℕ) {r : BitReader}
    (h : r.Taken input (codeLength*k)) :
    readCodes n r = (List.range' k n).map (streamCode input.rest) := by
  induction n generalizing k r with
  | zero => rfl
  | succ n ih =>
    obtain ⟨hcode, hnext⟩ := readCode_taken h
    rw [readCodes, List.range'_succ, List.map_cons, hcode, ih (k+1) hnext]

theorem readCodes_packed {data : List Byte} {codes : List ℕ} {n : ℕ} (hdata : n ≤ data.length)
    (hn : 13*codes.length ≤ 8*n) (hbits : ∀ p < 8*n, bitAt data p = codesBit codes p)
    (hcodes : ∀ v ∈ codes, v < 2^13) (eof : Bool) (byte : Byte) :
    readCodes codes.length ⟨⟨data, eof⟩, 0, byte⟩ = codes := by
  rw [readCodes_taken codes.length 0 (taken_zero ⟨data, eof⟩ byte)]
  apply List.ext_getElem
  · rw [List.length_map, List.length_range']
  · intro k hk hk'
    rw [List.getElem_map, List.getElem_range', Nat.zero_add, Nat.one_mul]
    exact streamCode_packed hdata hn hbits hcodes k hk'

/-- Clearing, packing and padding for any codes of 13 bits: the test of `outlen` adds
the last byte, the bytes are the codes in a row, and they are read back. -/
theorem pack_read_codes (codes : List ℕ) (hne : codes ≠ []) (hcodes : ∀ v ∈ codes, v < 2^13)
    (L : ℕ) (hL : codes.length ≤ L) (outputCode : List Byte)
    (hclear : L*2 ≤ outputCode.length) (hroom : (13*codes.length+7)/8 < outputCode.length) :
    ∃ buf o out, clearOutput (L*2) outputCode = some buf ∧
      packCodes 0 codes ⟨buf, 0⟩ = some o ∧
      o.outlen%13 ≠ 0 ∧ padOutput o = some ⟨out, (13*codes.length+7)/8⟩ ∧
      bytesBits (out.take ((13*codes.length+7)/8)) = codes.flatMap codeBits ++
        List.replicate (8*((13*codes.length+7)/8)-13*codes.length) false ∧
      ∀ (rest : List Byte) (eof : Bool) (byte : Byte), readCodes codes.length
        ⟨⟨out.take ((13*codes.length+7)/8) ++ rest, eof⟩, 0, byte⟩ = codes := by
  have hpos := List.length_pos_of_ne_nil hne
  obtain ⟨o, hpack, houtlen, hsize, hbits⟩ := packCodes_packed hclear codes hne [] _
    (packed_nil (L*2) outputCode hclear) (by rw [List.length_nil]; omega)
  simp only [List.length_nil, zero_add, Nat.zero_mod, List.nil_append] at hpack houtlen hbits
  generalize hn : (13*codes.length+7)/8 = n at *
  -- `outlen` is the index of the last byte, which is no multiple of 13 in any phase: in
  -- phase 7 the final block stays on that byte
  have hmod : o.outlen%13 ≠ 0 := by omega
  have hpad : padOutput o = some ⟨o.outputCode.set n 0, n⟩ := by
    rw [padOutput, if_pos hmod, houtlen, store_of_lt _ _ _ (by omega), Option.map_some]
  -- the zero is stored behind the codes
  have htake : (o.outputCode.set n 0).take n = o.outputCode.take n :=
    List.take_set_of_le le_rfl
  have hlen : (o.outputCode.take n).length = n := by
    rw [List.length_take, hsize]
    omega
  have htaken (p : ℕ) (hp : p < 8*n) : bitAt (o.outputCode.take n) p = codesBit codes p := by
    rw [bitAt_take _ _ _ hp, hbits p (by omega)]
  refine ⟨_, o, _, clearOutput_eq (L*2) outputCode hclear, hpack, hmod, hpad, ?_, ?_⟩
  · have hpacked := bytesBits_packed (o.outputCode.take n) codes (by omega) (by rwa [hlen])
    rw [hlen] at hpacked
    rw [htake]
    exact hpacked
  · intro rest eof byte
    rw [htake]
    apply readCodes_packed (n := n) _ (by omega) _ hcodes
    · rw [List.length_append, hlen]
      omega
    · intro p hp
      rw [bitAt_append_left _ _ _ (by rwa [hlen]), htaken p hp]

theorem pack_read_two :
    ∃ buf o out, clearOutput (2*2) [1, 2, 3, 4, 5] = some buf ∧
      packCodes 0 [65, 8191] ⟨buf, 0⟩ = some o ∧ o.outlen%13 ≠ 0 ∧
        padOutput o = some ⟨out, 4⟩ ∧
      bytesBits (out.take 4) = [65, 8191].flatMap codeBits ++ List.replicate 6 false ∧
      ∀ (rest : List Byte) (eof : Bool) (byte : Byte),
        readCodes 2 ⟨⟨out.take 4 ++ rest, eof⟩, 0, byte⟩ = [65, 8191] :=
  pack_read_codes [65, 8191] (by decide) (by decide) 2 (by decide) [1, 2, 3, 4, 5] (by decide)
    (by decide)

end Sync532
