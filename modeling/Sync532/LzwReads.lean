import Sync532.LzwModel
import Sync532.WhileFuel

namespace Sync532

/-- The indices of `s1[chunk_start]` and of the `s1[i + 1]` of the loop, in order. -/
def lzwReadPositions (chunkStart chunkEnd : ℕ) : List ℕ :=
  chunkStart :: (List.range' chunkStart (chunkEnd+1-chunkStart)).flatMap
    (fun i => if i ≠ chunkEnd then [i+1] else [])

theorem mem_lzwReadPositions {chunkStart chunkEnd : ℕ} (hle : chunkStart ≤ chunkEnd) (i : ℕ) :
    i ∈ lzwReadPositions chunkStart chunkEnd ↔ chunkStart ≤ i ∧ i ≤ chunkEnd := by
  rw [lzwReadPositions, List.mem_cons, List.mem_flatMap]
  constructor
  · rintro (rfl | ⟨j, hj, hi⟩)
    · exact ⟨le_rfl, hle⟩
    · have hmem := List.mem_range'_1.mp hj
      split_ifs at hi with hne
      · rw [List.mem_singleton.mp hi]
        omega
      · exact absurd hi List.not_mem_nil
  · intro hi
    rcases hi.1.eq_or_lt with h | h
    · exact Or.inl h.symm
    · -- behind the first one, `i` is read in the iteration before
      right
      refine ⟨i-1, List.mem_range'_1.mpr (by omega), ?_⟩
      rw [if_pos (by omega), List.mem_singleton]
      omega

variable {chunkStart chunkEnd : ℕ} {s1 s1' : Str} {outputCode : List Byte}

theorem nextChar_congr
    (h : ∀ i ∈ lzwReadPositions chunkStart chunkEnd, charAt s1 i = charAt s1' i)
    (hle : chunkStart ≤ chunkEnd) (i : ℕ)
    (hi : i ∈ List.range' chunkStart (chunkEnd+1-chunkStart)) :
    nextChar chunkEnd s1 i = nextChar chunkEnd s1' i := by
  have hmem := List.mem_range'_1.mp hi
  unfold nextChar
  split_ifs with hne
  · rw [h (i+1) ((mem_lzwReadPositions hle _).mpr (by omega))]
  · rfl

/-- `LZW` is decided by these characters alone. -/
theorem lzw_congr (hle : chunkStart ≤ chunkEnd)
    (h : ∀ i ∈ lzwReadPositions chunkStart chunkEnd, charAt s1 i = charAt s1' i) :
    lzw chunkStart chunkEnd s1 outputCode = lzw chunkStart chunkEnd s1' outputCode := by
  have hfirst : charAt s1 chunkStart = charAt s1' chunkStart := h chunkStart List.mem_cons_self
  have hloop (s : LzwState) :
      (List.range' chunkStart (chunkEnd+1-chunkStart)).foldlM (lzwStep chunkEnd s1) s =
        (List.range' chunkStart (chunkEnd+1-chunkStart)).foldlM (lzwStep chunkEnd s1') s := by
    apply foldlM_congr_mem
    intro i hi s
    unfold lzwStep
    rw [nextChar_congr h hle i hi]
  unfold lzw
  rw [hfirst]
  simp only [hloop]

/-- And it needs all of them. -/
theorem lzw_reads_defined {out : LzwOutput} (hle : chunkStart ≤ chunkEnd)
    (h : lzw chunkStart chunkEnd s1 outputCode = some out) :
    ∀ i ∈ lzwReadPositions chunkStart chunkEnd, ∃ ch, charAt s1 i = some ch := by
  simp only [lzw, Option.bind_eq_bind, Option.bind_eq_some_iff] at h
  obtain ⟨buf, -, first, hfirst, s, hloop, -⟩ := h
  intro i hi
  have hmem := (mem_lzwReadPositions hle i).mp hi
  rcases hmem.1.eq_or_lt with rfl | hlt
  · exact ⟨first, hfirst⟩
  · obtain ⟨t, t', hstep⟩ := foldlM_visits hloop (i-1) (List.mem_range'_1.mpr (by omega))
    simp only [lzwStep, Option.bind_eq_bind, Option.bind_eq_some_iff] at hstep
    obtain ⟨c, hc, -⟩ := hstep
    rw [nextChar, if_pos (by omega), Nat.sub_add_cancel (by omega)] at hc
    obtain ⟨ch, hch, -⟩ := Option.map_eq_some_iff.mp hc
    exact ⟨ch, hch⟩

end Sync532
