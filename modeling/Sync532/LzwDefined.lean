import Sync532.EncodeModel
import Sync532.LzwLimits
import Sync532.PacketString

namespace Sync532

theorem codeBytes_lt_iff (chunk : Str) (hne : chunk ≠ []) :
    codeBytes (lzwCodes chunk).length < 2*chunk.length ↔ 3 ≤ chunk.length := by
  have hcount := length_lzwCodes_le chunk
  constructor
  · intro h
    by_contra hshort
    rw [length_lzwCodes_short chunk hne (by omega)] at h
    unfold codeBytes at h
    omega
  · intro h
    unfold codeBytes
    omega

/-- The last character that `LZW` reads is at the latest the terminator. -/
theorem lzw_inside {s1 : Str} {first last : ℕ} {outputCode : List Byte} {o : LzwOutput}
    (hle : first ≤ last) (hlzw : lzw first last s1 outputCode = some o) : last ≤ s1.length := by
  obtain ⟨ch, hch⟩ := lzw_reads_defined hle hlzw last
    ((mem_lzwReadPositions hle last).mpr ⟨hle, le_rfl⟩)
  by_contra hout
  rw [charAt, if_neg (by omega), if_neg (by omega)] at hch
  cases hch

theorem lzw_lzwReads {s1 : Str} {first last : ℕ} {outputCode : List Byte} {o : LzwOutput}
    (hle : first ≤ last) (hlzw : lzw first last s1 outputCode = some o) :
    lzwReads s1 first last = some (((s1 ++ [0]).drop first).take (last+1-first)) := by
  have htext := lzw_inside hle hlzw
  exact mapM_charAt s1 first (last+1-first) (by omega)

/-- `LZW` on a C string, with a buffer of twice the size of the chunk. -/
theorem lzw_defined_iff {s1 : Str} {first last : ℕ} {outputCode : List Byte}
    (hle : first ≤ last) (hsize : outputCode.length = 2*(last-first+1)) :
    (lzw first last s1 outputCode).isSome ↔ last ≤ s1.length ∧ 3 ≤ last-first+1 := by
  by_cases htext : last ≤ s1.length
  · have hend : last < (s1 ++ [0]).length := by
      rw [List.length_append, List.length_singleton]
      omega
    have hlen := length_slice (s1 ++ [0]) first last hle hend
    have hne : slice (s1 ++ [0]) first last ≠ [] := List.ne_nil_of_length_pos (by omega)
    have hroom := codeBytes_lt_iff _ hne
    rw [hlen, ← hsize] at hroom
    rw [← lzw_terminator s1 first last hle htext, ← hroom]
    constructor
    · intro h
      obtain ⟨out, hout⟩ := Option.isSome_iff_exists.mp h
      exact ⟨htext, (lzw_room hle hend hout).2⟩
    · rintro ⟨-, hpad⟩
      obtain ⟨out, hout, -⟩ := lzw_spec hle hend hsize.ge hpad
      rw [hout]
      rfl
  · refine iff_of_false ?_ (fun h => htext h.1)
    intro h
    obtain ⟨out, hout⟩ := Option.isSome_iff_exists.mp h
    exact htext (lzw_inside hle hout)

/-- `memcpy` finds the `outlen` bytes that it takes. -/
theorem recordOf_lzw {s1 : Str} {first last : ℕ} {outputCode : List Byte} {o : LzwOutput}
    (hle : first ≤ last) (hlzw : lzw first last s1 outputCode = some o) (chunk : Str) :
    (recordOf chunk o).isSome := by
  have htext := lzw_inside hle hlzw
  have hend : last < (s1 ++ [0]).length := by
    rw [List.length_append, List.length_singleton]
    omega
  obtain ⟨out, outlen⟩ := o
  rw [← lzw_terminator s1 first last hle htext] at hlzw
  have hlen := (lzw_outlen hle hend hlzw).2
  rw [List.length_take] at hlen
  have hfits : outlen ≤ out.length := by omega
  rw [recordOf, if_pos hfits]
  rfl

/-- A new chunk has a record when `LZW` reads inside the string and has three bytes. -/
theorem lzw_recordOf_isSome {s1 : Str} {first last : ℕ} {outputCode : List Byte}
    (hle : first ≤ last) (hsize : outputCode.length = 2*(last-first+1)) (chunk : Str) :
    ((lzw first last s1 outputCode).bind (recordOf chunk)).isSome ↔
      last ≤ s1.length ∧ 3 ≤ last-first+1 := by
  rw [← lzw_defined_iff hle hsize]
  rcases hlzw : lzw first last s1 outputCode with _ | o
  · exact Iff.rfl
  · exact iff_of_true (recordOf_lzw hle hlzw chunk) rfl

/-- The size of the block that `encode` allocates for a chunk. -/
theorem length_malloc_chunk (heap : ℕ → Byte) {first last : ℕ} (hle : first ≤ last) :
    (malloc heap (((last : ℤ)-(first : ℤ)+1)*2).toNat).length = 2*(last-first+1) := by
  simp only [malloc, List.length_map, List.length_range]
  omega

end Sync532
