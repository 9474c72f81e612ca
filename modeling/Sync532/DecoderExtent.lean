import Sync532.DecoderSafety

namespace Sync532

/-- The bytes of `Input` between two readers. -/
def bytesTaken (r r' : BitReader) : ℕ := r.input.rest.length-r'.input.rest.length

theorem BitReader.Taken.bytesTaken_le {r r' : BitReader} {t : ℕ} (h : r'.Taken r.input t)
    (size : ℕ) :
    bytesTaken r r' ≤ size ↔ r.input.rest.length ≤ size ∨ (t+7)/8 ≤ size := by
  rw [bytesTaken, h.rest, List.length_drop]
  omega

/-- `Size - 1` wraps around for 0, and then no byte position reaches it. -/
theorem goesOn_zero (n : ℕ) : GoesOn 0 n := by
  unfold GoesOn
  omega

section Size
variable {size : ℕ} (hpos : 1 ≤ size) (hsize : size < 2^31)
include hpos hsize

theorem goesOn_iff (n : ℕ) (hn : 13*n < 2^64) : GoesOn size n ↔ 13*n/8 < size-1 := by
  unfold GoesOn codeLength
  rw [Nat.mod_eq_of_lt hn]
  omega

/-- The position does not wrap around while the loop goes on. -/
theorem goesOn_prefix (k : ℕ) (h : ∀ j < k, GoesOn size (j+1)) : k = 0 ∨ 13*k/8 < size-1 := by
  induction k with
  | zero => exact Or.inl rfl
  | succ k ih =>
    right
    have hbefore := ih (fun j hj => h j (by omega))
    exact (goesOn_iff hpos hsize (k+1) (by omega)).mp (h k (Nat.lt_succ_self k))

end Size

/-- The number of iterations when nothing goes wrong. -/
def iterations (size : ℕ) : ℕ := (8*(size-1)+12)/13-1

theorem decompress_iterations {size : ℕ} (hpos : 1 ≤ size) (hsize : size < 2^31) (r : BitReader)
    (hold : OldInTable size r.input.rest) :
    ∃ s, decompressAt size r (iterations size) = some s ∧ decompressMore size s = false := by
  have hgo (j : ℕ) (hj : j < iterations size) : GoesOn size (j+1) := by
    unfold iterations at hj
    apply (goesOn_iff hpos hsize (j+1) (by omega)).mpr
    omega
  obtain ⟨s, hs⟩ := decompressAt_reached size r (iterations size) (fun j hj =>
    ⟨hgo j hj, hold j (fun i hi => hgo i (by omega))⟩)
  obtain ⟨hinv, -⟩ := decompressAt_inv size r _ s hs
  refine ⟨s, hs, ?_⟩
  rw [← Bool.not_eq_true, hinv.more]
  unfold iterations
  rw [goesOn_iff hpos hsize _ (by omega)]
  omega

/-- A multiple of 13 among the last nine bit positions of the record is the end of a code
that stops the loop, so no code behind it is read. -/
theorem code_in_record (size k : ℕ) (hbefore : k = 0 ∨ 13*k/8 < size-1) (htwo : 2 ≤ size)
    (hmod : 8*size%13 ≤ 8) : (13*(k+1)+7)/8 ≤ size := by
  have hdiv := Nat.div_add_mod (8*size) 13
  generalize 8*size/13 = q at hdiv
  have hq : k+1 ≤ q := by omega
  omega

theorem last_code_iff (size k : ℕ) (hbefore : k = 0 ∨ 13*k/8 < size-1)
    (hstop : ¬13*(k+1)/8 < size-1) :
    (13*(k+1)+7)/8 ≤ size ↔ 2 ≤ size ∧ 8*size%13 ≤ 8 := by
  constructor
  · intro h
    -- the end of the last code is that multiple of 13
    have hend : 8*size = 13*(k+1)+(8*size-13*(k+1)) := by omega
    refine ⟨by omega, ?_⟩
    rw [hend, Nat.mul_add_mod, Nat.mod_eq_of_lt (by omega)]
    omega
  · intro h
    exact code_in_record size k hbefore h.1 h.2

/-- A call that returns has stopped at the first code that ends at or behind bit
`8*(Size-1)`, and all codes that were `Old` were in the table. -/
theorem decompress_returned {fuel size : ℕ} (hsize : size < 2^31) {r : BitReader}
    {s : DecompressState} (hrun : decompress fuel size r = some s) :
    1 ≤ size ∧ OldInTable size r.input.rest ∧ ∃ k, s.reader.Taken r.input (13*(k+1)) ∧
      (k = 0 ∨ 13*k/8 < size-1) ∧ ¬13*(k+1)/8 < size-1 := by
  obtain ⟨k, -, hs, hmore⟩ := (whileFuel_iff fuel _ s).mp hrun
  obtain ⟨hinv, hbefore⟩ := decompressAt_inv size r k s hs
  rw [← Bool.not_eq_true, hinv.more] at hmore
  have hpos : 1 ≤ size := by
    by_contra hzero
    obtain rfl : size = 0 := by omega
    exact hmore (goesOn_zero (k+1))
  have hprev := goesOn_prefix hpos hsize k (fun j hj => (hbefore j hj).1)
  refine ⟨hpos, ?_, k, hinv.reader, hprev, ?_⟩
  · intro m hm
    -- the loop has stopped after `k` iterations, so `m` is one of them
    have hlt : m < k := by
      by_contra hge
      exact hmore (hm k (by omega))
    exact (hbefore m hlt).2
  · rwa [goesOn_iff hpos hsize _ (by omega)] at hmore

/-- `Decompress` returns and takes at most `Size` bytes, in exactly these cases. For the
sizes of the second part it takes no more whatever the codes are, and the loop is
bounded by `Size`. -/
theorem decompress_in_record_iff (size : ℕ) (hsize : size < 2^31) (r : BitReader) :
    ((∃ fuel s, decompress fuel size r = some s ∧ bytesTaken r s.reader ≤ size) ↔
      1 ≤ size ∧ (r.input.rest.length ≤ size ∨ 2 ≤ size ∧ 8*size%13 ≤ 8) ∧
        OldInTable size r.input.rest) ∧
    (2 ≤ size → 8*size%13 ≤ 8 → ∀ k s, decompressAt size r k = some s →
      k < size ∧ bytesTaken r s.reader ≤ size ∧
        (decompressMore size s = true → bytesTaken r (readCode s.reader).2 ≤ size)) := by
  refine ⟨⟨?_, ?_⟩, ?_⟩
  · rintro ⟨fuel, s, hrun, htaken⟩
    obtain ⟨hpos, hold, k, hreader, hprev, hstop⟩ := decompress_returned hsize hrun
    refine ⟨hpos, ?_, hold⟩
    apply ((hreader.bytesTaken_le size).mp htaken).imp_right
    exact (last_code_iff size k hprev hstop).mp
  · rintro ⟨hpos, hroom, hold⟩
    obtain ⟨s, hs, hmore⟩ := decompress_iterations hpos hsize r hold
    have hrun : decompress (iterations size+1) size r = some s :=
      (whileFuel_iff _ _ s).mpr ⟨iterations size, Nat.lt_succ_self _, hs, hmore⟩
    obtain ⟨-, -, k, hreader, hprev, hstop⟩ := decompress_returned hsize hrun
    refine ⟨_, s, hrun, (hreader.bytesTaken_le size).mpr ?_⟩
    exact hroom.imp_right (last_code_iff size k hprev hstop).mpr
  · intro htwo hmod k s hs
    obtain ⟨hinv, hbefore⟩ := decompressAt_inv size r k s hs
    have hprev := goesOn_prefix (by omega) hsize k (fun j hj => (hbefore j hj).1)
    refine ⟨by omega, (hinv.reader.bytesTaken_le size).mpr (Or.inr ?_), ?_⟩
    · exact code_in_record size k hprev htwo hmod
    · -- the code of the next iteration is fetched in front of the table reads
      intro hmore
      obtain ⟨-, hnext⟩ := readCode_taken hinv.reader
      rw [hinv.more, goesOn_iff (by omega) hsize _ (by omega)] at hmore
      apply (hnext.bytesTaken_le size).mpr
      exact Or.inr (code_in_record size (k+1) (Or.inr hmore) htwo hmod)

/-- The codes 65 and 256 in four bytes, and one more byte. -/
def twoCodes : BitReader := ⟨⟨[2, 8, 64, 0, 9], false⟩, 0, 0⟩

theorem twoCodes_oldInTable : OldInTable 4 twoCodes.input.rest := by
  intro k hgo
  rcases k with _ | k
  · decide
  · -- there is no second iteration
    exact absurd (hgo 1 (by omega)) (by unfold GoesOn codeLength; decide)

/-- A record of four bytes: one iteration. -/
theorem decompress_in_record_four :
    ∃ fuel s, decompress fuel 4 twoCodes = some s ∧ bytesTaken twoCodes s.reader ≤ 4 :=
  (decompress_in_record_iff 4 (by decide) twoCodes).1.mpr
    ⟨by decide, Or.inr (by decide), twoCodes_oldInTable⟩

/-- With `Size` 0 the loop goes on behind the stream, where it leaves its table; and with
`Size` 3 the second code needs a fourth byte. -/
theorem decompress_leaves_record :
    (¬∃ fuel s, decompress fuel 0 ⟨⟨[0, 0, 0, 0], false⟩, 0, 0⟩ = some s ∧
      bytesTaken ⟨⟨[0, 0, 0, 0], false⟩, 0, 0⟩ s.reader ≤ 0) ∧
    ¬∃ fuel s, decompress fuel 3 ⟨⟨[0, 0, 0, 0], false⟩, 0, 0⟩ = some s ∧
      bytesTaken ⟨⟨[0, 0, 0, 0], false⟩, 0, 0⟩ s.reader ≤ 3 := by
  constructor
  · rintro ⟨fuel, s, hrun, -⟩
    obtain ⟨hpos, -⟩ := decompress_returned (by decide) hrun
    exact absurd hpos (by decide)
  · rintro ⟨fuel, s, hrun, htaken⟩
    obtain ⟨-, -, k, hreader, hprev, hstop⟩ := decompress_returned (by decide) hrun
    rcases (hreader.bytesTaken_le 3).mp htaken with hshort | hend
    · exact absurd hshort (by decide)
    · have hin := (last_code_iff 3 k hprev hstop).mp hend
      exact absurd hin.2 (by decide)

end Sync532
