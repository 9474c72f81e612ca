import Mathlib.Data.List.GetD
import Sync532.CdcWindow
import Sync532.EditedCuts

namespace Sync532

/-- A window inside a common first part. -/
theorem isCut_front (P A B : List Byte) (i : ℕ) (hi : i+winSize ≤ P.length) :
    isCut (P ++ A) i = isCut (P ++ B) i := by
  have hsum : windowSum (P ++ A) i = windowSum (P ++ B) i := by
    apply Finset.sum_congr rfl
    intro j hj
    have hlt : j < winSize := Finset.mem_range.mp hj
    rw [List.getD_append _ _ _ _ (by omega), List.getD_append _ _ _ _ (by omega)]
  rw [isCut, isCut, hsum]

section Edit
variable (P E E' S : List Byte) (hE : winSize ≤ (P ++ E).length)
  (hE' : winSize ≤ (P ++ E').length)
  (hS : 1 ≤ S.length)
include hE hE' hS

theorem cdcEnds_agree :
    AgreeAround (P.length-winSize) (P ++ E).length (P ++ E').length (cdcEnds (P ++ E ++ S))
      (cdcEnds (P ++ E' ++ S)) := by
  constructor
  · intro e he
    have hcut : isCut (P ++ (E ++ S)) (e+1) = isCut (P ++ (E' ++ S)) (e+1) :=
      isCut_front P _ _ (e+1) (by omega)
    rw [mem_cdcEnds_iff, mem_cdcEnds_iff, List.append_assoc, List.append_assoc, hcut]
    simp only [List.length_append]
    -- the window at `e+1` lies in `P`, so neither packet ends at `e`
    constructor
    · rintro (⟨hi, -, hb⟩ | hlast)
      · exact Or.inl ⟨hi, by omega, hb⟩
      · omega
    · rintro (⟨hi, -, hb⟩ | hlast)
      · exact Or.inl ⟨hi, by omega, hb⟩
      · omega
  · intro e
    have hcut : isCut (P ++ E ++ S) ((P ++ E).length+e+1) =
        isCut (P ++ E' ++ S) ((P ++ E').length+e+1) := by
      rw [Nat.add_assoc, Nat.add_assoc, isCut_append, isCut_append]
    have hlen : (P ++ E ++ S).length = (P ++ E).length+S.length := List.length_append
    have hlen' : (P ++ E' ++ S).length = (P ++ E').length+S.length := List.length_append
    rw [mem_cdcEnds_iff, mem_cdcEnds_iff, hcut, hlen, hlen']
    constructor
    · rintro (⟨hi, hlt, hb⟩ | hlast)
      · exact Or.inl ⟨by omega, by omega, hb⟩
      · right
        omega
    · rintro (⟨hi, hlt, hb⟩ | hlast)
      · exact Or.inl ⟨by omega, by omega, hb⟩
      · right
        omega

/-- A chunk that does not meet the edit is a chunk of the other packet. -/
theorem chunk_of_other {r : ℕ × ℕ} (hr : r ∈ segments 0 (cdcEnds (P ++ E ++ S)))
    (hmeets : ¬Meets (P.length-winSize) (P ++ E).length r) :
    ∃ r' ∈ segments 0 (cdcEnds (P ++ E' ++ S)),
      slice (P ++ E' ++ S) r'.1 r'.2 = slice (P ++ E ++ S) r.1 r.2 := by
  have hagree := cdcEnds_agree P E E' S hE hE' hS
  have hc := cdcEnds_increasing (P ++ E ++ S)
  have hc' := cdcEnds_increasing (P ++ E' ++ S)
  obtain ⟨a, b⟩ := r
  have hab : a ≤ b := (hc.segment_bounds _ hr).2
  rw [Meets, not_and_or, Nat.not_le, Nat.not_le] at hmeets
  rcases hmeets with hfront | hbehind
  · simp only at hfront
    refine ⟨_, hagree.front_segment hc hc' hfront hr, ?_⟩
    rw [List.append_assoc, List.append_assoc, slice_append_left _ _ _ _ (by omega),
      slice_append_left _ _ _ _ (by omega)]
  · simp only at hbehind
    obtain ⟨a, rfl⟩ := Nat.exists_eq_add_of_le hbehind.le
    obtain ⟨b, rfl⟩ := Nat.exists_eq_add_of_le (hbehind.le.trans hab)
    refine ⟨_, hagree.behind_segment hc hc' (by omega) hr, ?_⟩
    rw [slice_append_right, slice_append_right]

end Edit

/-- The contents of the ranges that the loop of `encode` takes from `chunk_q`. -/
def cdcChunks (buff : List Byte) : Option (List (List Byte)) :=
  ((cdc buff (BitVec.ofNat 32 buff.length) (List.replicate buff.length (-1))).bind chunkRanges).map
    (fun rs => rs.map (fun r => slice buff r.1.toNat r.2.toNat))

def chunkContents (buff : List Byte) : List (List Byte) :=
  (segments 0 (cdcEnds buff)).map (fun r => slice buff r.1 r.2)

theorem cdcChunks_eq (buff : List Byte) (h16 : winSize ≤ buff.length)
    (hint : buff.length < 2^31) :
    cdcChunks buff = some (chunkContents buff) := by
  rw [cdcChunks, cdc_filled buff h16 hint, Option.bind_some, chunkRanges_ends, Option.map_some,
    List.map_map]
  rfl

/-- At most `|E|+17` chunks of a packet are not chunks of the packet with `E'` in the
place of `E`. -/
theorem length_new_chunks_le (P E E' S : List Byte) (hE : winSize ≤ (P ++ E).length)
    (hE' : winSize ≤ (P ++ E').length) (hS : 1 ≤ S.length) :
    ((chunkContents (P ++ E ++ S)).filter
      (fun c => c ∉ chunkContents (P ++ E' ++ S))).length ≤ E.length+winSize+1 := by
  have hpx : P.length-winSize ≤ (P ++ E).length := by
    rw [List.length_append]
    omega
  have hcount := (cdcEnds_increasing (P ++ E ++ S)).length_meets_le hpx
  calc ((chunkContents (P ++ E ++ S)).filter (fun c => c ∉ chunkContents (P ++ E' ++ S))).length
      = ((segments 0 (cdcEnds (P ++ E ++ S))).filter (fun r =>
          slice (P ++ E ++ S) r.1 r.2 ∉ chunkContents (P ++ E' ++ S))).length :=
        (congrArg List.length List.filter_map).trans (List.length_map _)
    _ ≤ ((segments 0 (cdcEnds (P ++ E ++ S))).filter
          (fun r => Meets (P.length-winSize) (P ++ E).length r)).length := by
        rw [← List.countP_eq_length_filter, ← List.countP_eq_length_filter]
        apply List.countP_mono_left
        intro r hr hnew
        by_contra hout
        obtain ⟨r', hr', hsame⟩ := chunk_of_other P E E' S hE hE' hS hr (by simpa using hout)
        exact of_decide_eq_true hnew (List.mem_map.mpr ⟨r', hr', hsame⟩)
    _ ≤ (P ++ E).length-(P.length-winSize)+1 := hcount
    _ ≤ E.length+winSize+1 := by
        rw [List.length_append]
        omega

/-- `cdc` before and after an edit: at most `|E|+17` chunks are new, however long the
packet is. -/
theorem cdc_edit_chunks (P E E' S : List Byte) (hE : 16 ≤ (P ++ E).length)
    (hE' : 16 ≤ (P ++ E').length) (hS : 1 ≤ S.length) (hint : (P ++ E ++ S).length < 2^31)
    (hint' : (P ++ E' ++ S).length < 2^31) :
    ∃ chunks chunks', cdcChunks (P ++ E ++ S) = some chunks ∧
      cdcChunks (P ++ E' ++ S) = some chunks' ∧
      chunks.flatten = P ++ E ++ S ∧
      (chunks.filter (fun c => c ∉ chunks')).length ≤ E.length+17 := by
  have hfull : winSize ≤ (P ++ E ++ S).length := by
    rw [List.length_append]
    exact hE.trans (Nat.le_add_right _ _)
  have hfull' : winSize ≤ (P ++ E' ++ S).length := by
    rw [List.length_append]
    exact hE'.trans (Nat.le_add_right _ _)
  refine ⟨_, _, cdcChunks_eq _ hfull hint, cdcChunks_eq _ hfull' hint', ?_,
    length_new_chunks_le P E E' S hE hE' hS⟩
  rw [chunkContents, ← List.flatMap_def]
  exact (cdcEnds_partition _ hfull).content

/-- One byte in the middle of 40 is deleted. -/
theorem cdc_edit_chunks_delete :
    ∃ chunks chunks', cdcChunks (List.replicate 40 1) = some chunks ∧
      cdcChunks (List.replicate 41 1) = some chunks' ∧
      chunks.flatten = List.replicate 40 1 ∧
      (chunks.filter (fun c => c ∉ chunks')).length ≤ 17 :=
  cdc_edit_chunks (List.replicate 20 1) [] [1] (List.replicate 20 1) (by decide) (by decide)
    (by decide) (by decide) (by decide)

end Sync532
