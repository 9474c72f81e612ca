import Sync532.CdcResync

namespace Sync532
open scoped BigOperators

theorem mem_cdcEnds_iff (buff : List Byte) (e : ℕ) :
    e ∈ cdcEnds buff ↔
      (winSize ≤ e+1 ∧ e+1+winSize < buff.length ∧ isCut buff (e+1) = true) ∨
        e = buff.length-1 := by
  rw [mem_cdcEnds]
  apply or_congr_left
  constructor
  · rintro ⟨i, hi, hlt, hcut, rfl⟩
    have hpos : 0 < winSize := by decide
    rw [isCut_iff, show i-1+1 = i by omega]
    exact ⟨hi, by omega, hcut⟩
  · rintro ⟨hi, hlt, hcut⟩
    exact ⟨e+1, hi, by omega, (isCut_iff buff (e+1)).mp hcut, rfl⟩

theorem windowSum_set_of_outside (buff : List Byte) (v : Byte) (i q : ℕ)
    (hout : q < i ∨ i+winSize ≤ q) : windowSum (buff.set q v) i = windowSum buff i := by
  apply Finset.sum_congr rfl
  intro j hj
  have hlt : j < winSize := Finset.mem_range.mp hj
  rw [List.getD_eq_getElem?_getD, List.getD_eq_getElem?_getD, List.getElem?_set_ne (by omega)]

/-- Inside the window one term of the sum is exchanged. -/
theorem windowSum_set_inside (buff : List Byte) (v : Byte) (i q : ℕ) (hq : q < buff.length)
    (hlow : i ≤ q) (hhigh : q < i+winSize) :
    windowSum (buff.set q v) i+hashTerm buff[q] (i+winSize-1-q) =
      windowSum buff i+hashTerm v (i+winSize-1-q) := by
  have hmem : i+winSize-1-q ∈ Finset.range winSize := Finset.mem_range.mpr (by omega)
  have hplace : i+winSize-1-(i+winSize-1-q) = q := by omega
  have hothers : ∀ j ∈ (Finset.range winSize).erase (i+winSize-1-q),
      hashTerm ((buff.set q v).getD (i+winSize-1-j) 0) j =
        hashTerm (buff.getD (i+winSize-1-j) 0) j := by
    intro j hj
    obtain ⟨hne, hrange⟩ := Finset.mem_erase.mp hj
    have hlt : j < winSize := Finset.mem_range.mp hrange
    rw [List.getD_eq_getElem?_getD, List.getD_eq_getElem?_getD, List.getElem?_set_ne (by omega)]
  unfold windowSum
  rw [← Finset.add_sum_erase _ _ hmem, ← Finset.add_sum_erase _ _ hmem,
    Finset.sum_congr rfl hothers, hplace, List.getD_eq_getElem?_getD, List.getElem?_set_self hq,
    List.getD_eq_getElem?_getD, List.getElem?_eq_getElem hq]
  simp only [Option.getD_some]
  omega

/-- 3 is a unit modulo 256, so no change of a byte is hidden by its place in the window. -/
theorem eq_of_hashTerm_modEq {b v : Byte} {j : ℕ}
    (h : hashTerm b j ≡ hashTerm v j [MOD modulus]) :
    b = v := by
  have hunit : Nat.Coprime modulus (prime^(j+1)) := Nat.Coprime.pow_right _ (by decide)
  have hmod : b.toNat ≡ v.toNat [MOD modulus] := Nat.ModEq.cancel_right_of_coprime hunit h
  apply BitVec.eq_of_toNat_eq
  exact hmod.eq_of_lt_of_lt b.isLt v.isLt

/-- A window that asks for a cut does not ask for one after a change of one of its bytes. -/
theorem isCut_set_inside (buff : List Byte) (v : Byte) (i q : ℕ) (hq : q < buff.length)
    (hv : v ≠ buff[q]) (hlow : i ≤ q) (hhigh : q < i+winSize) (hcut : isCut buff i = true) :
    isCut (buff.set q v) i = false := by
  by_contra hcut'
  have hdvd := (isCut_iff buff i).mp hcut
  have hdvd' := (isCut_iff (buff.set q v) i).mp (by simpa using hcut')
  apply hv
  apply eq_of_hashTerm_modEq (j := i+winSize-1-q)
  calc hashTerm v (i+winSize-1-q)
      ≡ windowSum buff i+hashTerm v (i+winSize-1-q) [MOD modulus] := by
        have hzero := (Nat.modEq_zero_iff_dvd.mpr hdvd).add_right (hashTerm v (i+winSize-1-q))
        rw [Nat.zero_add] at hzero
        exact hzero.symm
    _ = windowSum (buff.set q v) i+hashTerm buff[q] (i+winSize-1-q) :=
        (windowSum_set_inside buff v i q hq hlow hhigh).symm
    _ ≡ hashTerm buff[q] (i+winSize-1-q) [MOD modulus] := by
        have hzero := (Nat.modEq_zero_iff_dvd.mpr hdvd').add_right
          (hashTerm buff[q] (i+winSize-1-q))
        rwa [Nat.zero_add] at hzero

theorem mem_reportedEnds (buff : List Byte) (h16 : winSize ≤ buff.length)
    (hint : buff.length < 2^31) :
    ∃ chunkQ, cdc buff (BitVec.ofNat 32 buff.length) (List.replicate buff.length (-1)) =
        some chunkQ ∧ ∀ e : ℕ, (e : ℤ) ∈ reportedEnds chunkQ ↔ e ∈ cdcEnds buff := by
  refine ⟨_, cdc_filled buff h16 hint, ?_⟩
  intro e
  rw [reportedEnds_asInts, asInts, List.mem_map]
  constructor
  · rintro ⟨e', he', heq⟩
    rwa [← Int.ofNat_inj.mp heq]
  · exact fun he => ⟨e, he, rfl⟩

/-- One byte of a packet is changed. The ends whose window does not hold the byte stay
as they were, and of the ends whose window holds it none is kept. -/
theorem cdc_byte_change (buff : List Byte) (h16 : 16 ≤ buff.length) (hint : buff.length < 2^31)
    (q : ℕ) (hq : q < buff.length) (v : Byte) (hv : v ≠ buff[q]) :
    ∃ chunkQ chunkQ', cdc buff (BitVec.ofNat 32 buff.length) (List.replicate buff.length (-1)) =
        some chunkQ ∧
      cdc (buff.set q v) (BitVec.ofNat 32 buff.length) (List.replicate buff.length (-1)) =
        some chunkQ' ∧
      ∀ e : ℕ, e+1 < buff.length →
        (q ≤ e ∨ e+16 < q →
          ((e : ℤ) ∈ reportedEnds chunkQ ↔ (e : ℤ) ∈ reportedEnds chunkQ')) ∧
        (e < q → q ≤ e+16 →
          ¬((e : ℤ) ∈ reportedEnds chunkQ ∧ (e : ℤ) ∈ reportedEnds chunkQ')) := by
  have hlen : (buff.set q v).length = buff.length := List.length_set
  obtain ⟨chunkQ, hcdc, hmem⟩ := mem_reportedEnds buff h16 hint
  obtain ⟨chunkQ', hcdc', hmem'⟩ :=
    mem_reportedEnds (buff.set q v) (by rwa [hlen]) (by rwa [hlen])
  rw [hlen] at hcdc'
  refine ⟨chunkQ, chunkQ', hcdc, hcdc', ?_⟩
  intro e he
  rw [hmem, hmem', mem_cdcEnds_iff, mem_cdcEnds_iff, hlen]
  refine ⟨?_, ?_⟩
  · intro hout
    -- the window of the end `e` is at `e+1`
    have hsum := windowSum_set_of_outside buff v (e+1) q (by unfold winSize; omega)
    rw [isCut, isCut, hsum]
  · rintro hlow hhigh ⟨⟨-, -, hcut⟩ | hlast, ⟨-, -, hcut'⟩ | hlast'⟩
    · have hgone := isCut_set_inside buff v (e+1) q hq hv hlow (by unfold winSize; omega) hcut
      rw [hcut'] at hgone
      exact absurd hgone (by decide)
    all_goals omega

/-- In 33 zero bytes the end at 15 goes when byte 20 is changed. -/
theorem cdc_byte_change_zeros :
    ∃ chunkQ chunkQ', cdc (List.replicate 33 0) 33 (List.replicate 33 (-1)) = some chunkQ ∧
      cdc ((List.replicate 33 0).set 20 1) 33 (List.replicate 33 (-1)) = some chunkQ' ∧
      ¬(15 ∈ reportedEnds chunkQ ∧ 15 ∈ reportedEnds chunkQ') := by
  obtain ⟨chunkQ, chunkQ', hcdc, hcdc', hends⟩ :=
    cdc_byte_change (List.replicate 33 0) (by decide) (by decide) 20 (by decide) 1 (by decide)
  exact ⟨chunkQ, chunkQ', hcdc, hcdc', (hends 15 (by decide)).2 (by decide) (by decide)⟩

/-- The window sum of 16 equal bytes. -/
theorem windowSum_constant (buff : List Byte) (b : Byte) (i : ℕ)
    (hall : ∀ k, i ≤ k → k < i+winSize → buff.getD k 0 = b) :
    windowSum buff i = b.toNat*(2017815*32) := by
  have hterms : ∀ j ∈ Finset.range winSize,
      hashTerm (buff.getD (i+winSize-1-j) 0) j = b.toNat*prime^(j+1) := by
    intro j hj
    have hlt : j < winSize := Finset.mem_range.mp hj
    rw [hall _ (by omega) (by omega), hashTerm]
  have hpowers : ∑ j ∈ Finset.range winSize, prime^(j+1) = 2017815*32 := by decide
  unfold windowSum
  rw [Finset.sum_congr rfl hterms, ← Finset.mul_sum, hpowers]

/-- The sum of the powers is 32 times an odd number. -/
theorem dvd_constant_iff (b : ℕ) : modulus ∣ b*(2017815*32) ↔ 8 ∣ b := by
  have hodd : Nat.Coprime 8 2017815 := by decide
  rw [show modulus = 8*32 from rfl, ← Nat.mul_assoc, Nat.mul_dvd_mul_iff_right (by decide),
    hodd.dvd_mul_right]

theorem getD_of_run (A C : List Byte) (b : Byte) (m k : ℕ) (hlow : A.length ≤ k)
    (hhigh : k < A.length+m) : (A ++ List.replicate m b ++ C).getD k 0 = b := by
  have hlt : k < (A ++ List.replicate m b).length := by
    rw [List.length_append, List.length_replicate]
    exact hhigh
  rw [List.getD_eq_getElem?_getD, List.getElem?_append_left hlt, List.getElem?_append_right hlow,
    List.getElem?_replicate, if_pos (by omega), Option.getD_some]

/-- Inside a run of one byte value every position ends a chunk when 8 divides the value,
and no position does when it does not: there is no shortest and no longest chunk. -/
theorem cdc_run_ends (A C : List Byte) (b : Byte) (m : ℕ)
    (hint : (A ++ List.replicate m b ++ C).length < 2^31)
    (h16 : 16 ≤ (A ++ List.replicate m b ++ C).length) :
    ∃ chunkQ, cdc (A ++ List.replicate m b ++ C)
        (BitVec.ofNat 32 (A ++ List.replicate m b ++ C).length)
        (List.replicate (A ++ List.replicate m b ++ C).length (-1)) = some chunkQ ∧
      ∀ e : ℕ, 15 ≤ e → A.length ≤ e+1 → e+17 ≤ A.length+m →
        e+17 < (A ++ List.replicate m b ++ C).length →
        ((e : ℤ) ∈ reportedEnds chunkQ ↔ 8 ∣ b.toNat) := by
  obtain ⟨chunkQ, hcdc, hmem⟩ := mem_reportedEnds _ h16 hint
  refine ⟨chunkQ, hcdc, ?_⟩
  intro e hfirst hlow hhigh hlast
  have hsum := windowSum_constant (A ++ List.replicate m b ++ C) b (e+1) (by
    intro k hk hk'
    unfold winSize at hk'
    exact getD_of_run A C b m k (by omega) (by omega))
  rw [hmem, mem_cdcEnds_iff, isCut_iff, hsum, dvd_constant_iff]
  unfold winSize
  constructor
  · rintro (⟨-, -, hdvd⟩ | hend) <;> omega
  · intro hdvd
    exact Or.inl ⟨by omega, by omega, by omega⟩

/-- 40 times the byte 8: an end at 15. -/
theorem cdc_run_ends_eight :
    ∃ chunkQ, cdc (List.replicate 40 8) 40 (List.replicate 40 (-1)) = some chunkQ ∧
      (15 : ℤ) ∈ reportedEnds chunkQ := by
  obtain ⟨chunkQ, hcdc, hends⟩ := cdc_run_ends [] [] 8 40 (by decide) (by decide)
  refine ⟨chunkQ, hcdc, ?_⟩
  exact (hends 15 (by decide) (by decide) (by decide) (by decide)).mpr (by decide)

end Sync532
