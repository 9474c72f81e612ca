import Sync532.CdcScan
import Sync532.WhileFuel

namespace Sync532

/-- The values of `i` in the scanning loop of `cdc`. -/
def scanned (buffSize : BitVec 32) : List ℕ := List.range' winSize (scanLimit buffSize-winSize)

/-- `cdc` on a packet: the windows lie in the packet, the stores lie in the first
`buff_size` cells of `chunk_q`, and the loop has at most `buff_size` iterations. The
last store is made at the index that the loop has reached. -/
structure CdcInBounds (buff : List Byte) (chunkQ : List ℤ) : Prop where
  reads : ∀ i ∈ scanned (BitVec.ofNat 32 buff.length), ∀ j < winSize,
    i+winSize-1-j < buff.length
  stores : ∃ s, (scanned (BitVec.ofNat 32 buff.length)).foldlM (cdcStep buff) ⟨0, chunkQ⟩ =
    some s ∧
    s.chunkIndex < buff.length
  iterations : (scanned (BitVec.ofNat 32 buff.length)).length ≤ buff.length
  defined : (cdc buff (BitVec.ofNat 32 buff.length) chunkQ).isSome

theorem mem_scanned (n i : ℕ) (h16 : winSize ≤ n) (hn : n < 2^32) :
    i ∈ scanned (BitVec.ofNat 32 n) ↔ winSize ≤ i ∧ i+winSize < n := by
  have hpos : 0 < winSize := by decide
  rw [scanned, scanLimit_ofNat n h16 hn, List.mem_range'_1]
  omega

theorem CdcState.push_of_lt (s : CdcState) (v : ℤ) (h : s.chunkIndex < s.chunkQ.length) :
    s.push v = some ⟨s.chunkIndex+1, s.chunkQ.set s.chunkIndex v⟩ := by
  rw [CdcState.push, store_of_lt _ _ _ h, Option.map_some]

/-- In front of the window at `i` there have been at most `i-16` stores. -/
structure ScanInv (size i : ℕ) (s : CdcState) : Prop where
  index : s.chunkIndex+winSize ≤ i
  size : s.chunkQ.length = size

theorem cdcStep_inv (buff : List Byte) (size i : ℕ) (hi : i+winSize ≤ buff.length)
    (hsize : buff.length ≤ size) (s : CdcState) (h : ScanInv size i s) :
    ∃ s', cdcStep buff s i = some s' ∧ ScanInv size (i+1) s' := by
  have hindex := h.index
  have hlen := h.size
  have hpos : 0 < winSize := by decide
  rw [cdcStep, windowHash_eq buff i hi, Option.bind_some]
  split_ifs
  · refine ⟨_, s.push_of_lt _ (by omega), ?_, ?_⟩
    · simp only
      omega
    · rw [List.length_set, hlen]
  · exact ⟨s, rfl, by omega, hlen⟩

theorem scan_inv (buff : List Byte) (chunkQ : List ℤ) (h16 : winSize ≤ buff.length)
    (hint : buff.length < 2^32) (hroom : buff.length ≤ chunkQ.length) :
    ∃ s, (scanned (BitVec.ofNat 32 buff.length)).foldlM (cdcStep buff) ⟨0, chunkQ⟩ =
      some s ∧
      ScanInv chunkQ.length (winSize+(buff.length-winSize-winSize)) s := by
  rw [scanned, scanLimit_ofNat _ h16 hint]
  apply foldlM_range'_inv
  · intro i hlow hhigh s hs
    apply cdcStep_inv buff chunkQ.length i _ hroom s hs
    omega
  · exact ⟨(Nat.zero_add winSize).le, rfl⟩

/-- `cdc` keeps inside its arrays on packets of one window or more only: below that
`buff_size - WIN_SIZE` wraps around, and the first window is read all the same. -/
theorem cdcInBounds_iff (buff : List Byte) (chunkQ : List ℤ) (hint : buff.length < 2^31)
    (hsize : chunkQ.length = buff.length) : CdcInBounds buff chunkQ ↔ 16 ≤ buff.length := by
  constructor
  · intro h
    by_contra hshort
    have hlimit := scanLimit_short buff.length (Nat.lt_of_not_ge hshort)
    -- the window at 16 ends with byte 31
    have hfirst : winSize ∈ scanned (BitVec.ofNat 32 buff.length) := by
      rw [scanned, hlimit, List.mem_range'_1, winSize]
      omega
    have hread := h.reads winSize hfirst 0 (by decide)
    unfold winSize at hread
    omega
  · intro h16
    have hpos : 0 < winSize := by decide
    obtain ⟨s, hs, hinv⟩ := scan_inv buff chunkQ h16 (by omega) hsize.ge
    have hindex := hinv.index
    have hlen := hinv.size
    refine ⟨?_, ⟨s, hs, by omega⟩, ?_, ?_⟩
    · intro i hi j hj
      have hmem := (mem_scanned buff.length i h16 (by omega)).mp hi
      omega
    · rw [scanned, scanLimit_ofNat _ h16 (by omega), List.length_range']
      omega
    · rw [cdc, ← scanned, hs, Option.bind_eq_bind, Option.bind_some,
        s.push_of_lt _ (by omega)]
      rfl

/-- The shortest packet with a window. -/
theorem cdcInBounds_33 : CdcInBounds (List.replicate 33 0) (List.replicate 33 (-1)) :=
  (cdcInBounds_iff (List.replicate 33 0) (List.replicate 33 (-1)) (by decide) (by decide)).mpr
    (by decide)

/-- A packet of one byte. -/
theorem cdc_reads_outside : ¬CdcInBounds [0x41] [-1] := by
  intro h
  have hdefined := h.defined
  rw [cdc_short [0x41] [-1] (by decide)] at hdefined
  exact absurd hdefined (by decide)

end Sync532
