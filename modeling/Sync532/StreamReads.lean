import Sync532.ByteBuffer
import Sync532.DecoderModel

namespace Sync532

/-- What the `k`-th `Input.get()` gives, also behind the end of the stream. -/
def streamByte (data : List Byte) (k : ℕ) : Byte := data.getD k 0xFF

def streamBit (data : List Byte) (t : ℕ) : Bool := (streamByte data (t/8)).getMsbD (t%8)

/-- The 13 bits of a stream from bit `13*k` on, most significant bit first. -/
def streamCode (data : List Byte) (k : ℕ) : ℕ :=
  (List.range codeLength).foldl (fun code i => 2*code+(streamBit data (codeLength*k+i)).toNat) 0

/-- The reader has taken the first `t` bits of `input`, and holds the byte that is not
used up. -/
structure BitReader.Taken (input : IStream) (t : ℕ) (r : BitReader) : Prop where
  position : r.inputPosition = t%2^64
  rest : r.input.rest = input.rest.drop ((t+7)/8)
  eof : r.input.eof = (input.eof || decide (input.rest.length < (t+7)/8))
  byte : t%8 ≠ 0 → r.byte = streamByte input.rest (t/8)

/-- In front of the end it is a byte of the stream. -/
theorem streamByte_of_lt (data : List Byte) (k : ℕ) (hk : k < data.length) (d : Byte) :
    streamByte data k = data.getD k d := by
  rw [streamByte, List.getD_eq_getElem?_getD, List.getD_eq_getElem?_getD,
    List.getElem?_eq_getElem hk, Option.getD_some, Option.getD_some]

theorem IStream.get_drop (s : IStream) (data : List Byte) (k : ℕ) (h : s.rest = data.drop k) :
    s.get.1 = streamByte data k ∧ s.get.2.rest = data.drop (k+1) ∧
      s.get.2.eof = (s.eof || decide (data.length < k+1)) := by
  unfold streamByte
  rcases Nat.lt_or_ge k data.length with hk | hk
  · have hcons : s.rest = data[k] :: data.drop (k+1) := by rw [h, List.drop_eq_getElem_cons hk]
    have heof : decide (data.length < k+1) = false := decide_eq_false (by omega)
    rw [List.getD_eq_getElem?_getD, List.getElem?_eq_getElem hk, heof, Bool.or_false, IStream.get,
      hcons]
    exact ⟨rfl, rfl, rfl⟩
  · have hnil : s.rest = [] := by rw [h, List.drop_eq_nil_of_le hk]
    have heof : decide (data.length < k+1) = true := decide_eq_true (by omega)
    rw [List.getD_eq_getElem?_getD, List.getElem?_eq_none hk, heof, Bool.or_true, IStream.get, hnil,
      List.drop_eq_nil_of_le (by omega)]
    exact ⟨rfl, rfl, rfl⟩

/-- `Input_position` may wrap around, but 8 divides `2^64`. -/
theorem mod_eight_of_wrapped (t : ℕ) : t%2^64%8 = t%8 := Nat.mod_mod_of_dvd t (by decide)

theorem BitReader.Taken.fetch {input : IStream} {t : ℕ} {r : BitReader} (h : r.Taken input t) :
    r.fetch.inputPosition = t%2^64 ∧ r.fetch.input.rest = input.rest.drop (t/8+1) ∧
      r.fetch.input.eof = (input.eof || decide (input.rest.length < t/8+1)) ∧
      r.fetch.byte = streamByte input.rest (t/8) := by
  have hrest := h.rest
  have heof := h.eof
  unfold BitReader.fetch
  rw [h.position, mod_eight_of_wrapped]
  split_ifs with hm
  · rw [show (t+7)/8 = t/8 by omega] at hrest heof
    obtain ⟨hbyte, hnext, hend⟩ := r.input.get_drop input.rest (t/8) hrest
    refine ⟨rfl, hnext, ?_, hbyte⟩
    -- an end that was seen before stays seen
    rw [hend, heof, Bool.or_assoc, ← Bool.decide_or]
    apply congrArg
    exact decide_eq_decide.mpr (by omega)
  · rw [show (t+7)/8 = t/8+1 by omega] at hrest heof
    exact ⟨h.position, hrest, heof, h.byte hm⟩

theorem shift_or_bit (code : ℕ) (b : Byte) (k : ℕ) :
    (code <<< 1) ||| ((b.toNat >>> k) &&& 1) = 2*code+(b.getLsbD k).toNat := by
  have hbit : (b.toNat >>> k) &&& 1 = (b.getLsbD k).toNat := by
    rw [Nat.and_one_is_mod, BitVec.getLsbD, Nat.testBit_eq_decide_div_mod_eq,
      Nat.shiftRight_eq_div_pow]
    rcases Nat.mod_two_eq_zero_or_one (b.toNat/2^k) with h | h <;> simp [h]
  rw [hbit, Nat.shiftLeft_eq, pow_one, Nat.mul_comm code 2]
  exact (Nat.two_pow_add_eq_or_of_lt (i := 1) (by cases b.getLsbD k <;> decide) code).symm

theorem shiftRight_eq_double (v k : ℕ) : v >>> k = 2*(v >>> (k+1))+(v.testBit k).toNat := by
  rw [Nat.testBit_eq_decide_div_mod_eq, Nat.shiftRight_succ, Nat.shiftRight_eq_div_pow]
  rcases Nat.mod_two_eq_zero_or_one (v/2^k) with h | h <;> simp [h] <;> omega

theorem readBit_taken {input : IStream} {t : ℕ} {r : BitReader} (h : r.Taken input t)
    (code : ℕ) :
    (readBit (code, r)).1 = 2*code+(streamBit input.rest t).toNat ∧
      (readBit (code, r)).2.Taken input (t+1) := by
  obtain ⟨hp, hrest, heof, hbyte⟩ := h.fetch
  have hbit : streamBit input.rest t = (streamByte input.rest (t/8)).getLsbD (7-t%8) := by
    rw [streamBit, BitVec.getMsbD_eq_getLsbD, decide_eq_true (Nat.mod_lt _ (by decide)),
      Bool.true_and]
  have hnext : (t+1+7)/8 = t/8+1 := by omega
  refine ⟨?_, ?_, ?_, ?_, ?_⟩
  · simp only [readBit, hp, hbyte, mod_eight_of_wrapped, shift_or_bit, hbit]
  · simp only [readBit, hp, Nat.mod_add_mod]
  · simp only [readBit, hrest, hnext]
  · simp only [readBit, heof, hnext]
  · intro hm
    simp only [readBit, hbyte, show (t+1)/8 = t/8 by omega]

/-- `n` iterations of `Read_code` collect the next `n` bits. -/
theorem readBits_taken {input : IStream} {t : ℕ} {r : BitReader} (h : r.Taken input t) (n : ℕ) :
    (readBit^[n] (0, r)).1 =
        (List.range n).foldl (fun code i => 2*code+(streamBit input.rest (t+i)).toNat) 0 ∧
      (readBit^[n] (0, r)).2.Taken input (t+n) := by
  induction n with
  | zero => exact ⟨rfl, h⟩
  | succ n ih =>
    obtain ⟨hcode, htaken⟩ := ih
    obtain ⟨hbit, hnext⟩ := readBit_taken htaken (readBit^[n] (0, r)).1
    rw [Function.iterate_succ_apply', List.range_succ, List.foldl_append, ← hcode]
    exact ⟨hbit, hnext⟩

theorem readCode_taken {input : IStream} {k : ℕ} {r : BitReader}
    (h : r.Taken input (codeLength*k)) :
    (readCode r).1 = streamCode input.rest k ∧ (readCode r).2.Taken input (codeLength*(k+1)) :=
  readBits_taken h codeLength

/-- The bits of a number below `2^width`, collected from the top. -/
theorem foldl_testBit (width v : ℕ) (hv : v < 2^width) (n : ℕ) (hn : n ≤ width) :
    (List.range n).foldl (fun code i => 2*code+(v.testBit (width-1-i)).toNat) 0 =
      v >>> (width-n) := by
  induction n with
  | zero =>
    rw [Nat.sub_zero, Nat.shiftRight_eq_div_pow, Nat.div_eq_of_lt hv]
    rfl
  | succ n ih =>
    rw [List.range_succ, List.foldl_append, ih (by omega), shiftRight_eq_double v (width-(n+1)),
      show width-(n+1)+1 = width-n by omega, show width-(n+1) = width-1-n by omega]
    rfl

theorem streamBit_eq_bitAt (data : List Byte) (t : ℕ) (ht : t < 8*data.length) :
    streamBit data t = bitAt data t := by
  rw [streamBit, bitAt, streamByte_of_lt data (t/8) (by omega) 0]

theorem streamCode_eq (data : List Byte) (k v : ℕ) (hv : v < 2^codeLength)
    (hbits : ∀ i < codeLength, streamBit data (codeLength*k+i) = v.testBit (codeLength-1-i)) :
    streamCode data k = v := by
  have hfold := foldl_testBit codeLength v hv codeLength le_rfl
  rw [Nat.sub_self, Nat.shiftRight_zero] at hfold
  rw [← hfold, streamCode]
  apply List.foldl_ext
  intro code i hi
  rw [hbits i (List.mem_range.mp hi)]

/-- `Decompress` starts at bit 0 of what is left. -/
theorem taken_zero (input : IStream) (byte : Byte) :
    BitReader.Taken input 0 ⟨input, 0, byte⟩ := by
  refine ⟨rfl, rfl, ?_, fun h => absurd rfl h⟩
  simp

end Sync532
