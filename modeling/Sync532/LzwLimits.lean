import Sync532.LzwGreedy
import Sync532.LzwPacking

namespace Sync532

section Room
variable {chunkStart chunkEnd : ℕ} {s1 : Str} {outputCode : List Byte}

/-- The first two bytes of a chunk are no entry yet. -/
theorem length_lzwCodes_short (chunk : Str) (hne : chunk ≠ []) (h : chunk.length ≤ 2) :
    (lzwCodes chunk).length = chunk.length := by
  rcases chunk with _ | ⟨x, _ | ⟨y, _ | ⟨z, rest⟩⟩⟩
  · exact absurd rfl hne
  · rw [lzwCodes_eq_writer]
    rfl
  · have hout : [x] ++ [y] ∉ baseDict := by
      intro hin
      exact absurd (length_of_mem_baseDict _ hin) (by simp)
    rw [lzwCodes_eq_writer, PhraseWriter.codes_emit hout]
    rfl
  · simp only [List.length_cons] at h
    omega

/-- With `2*L` bytes for a chunk of `L` bytes every access of `LZW` is in the buffer from
three bytes on; the zero behind the codes of one or two bytes is stored outside. -/
theorem lzw_in_buffer_iff (hle : chunkStart ≤ chunkEnd) (hend : chunkEnd < s1.length)
    (hsize : outputCode.length = 2*(chunkEnd-chunkStart+1)) :
    (lzw chunkStart chunkEnd s1 outputCode).isSome ↔ 3 ≤ chunkEnd-chunkStart+1 := by
  have hlen := length_slice s1 chunkStart chunkEnd hle hend
  constructor
  · intro h
    obtain ⟨out, hout⟩ := Option.isSome_iff_exists.mp h
    obtain ⟨-, hpad⟩ := lzw_room hle hend hout
    by_contra hshort
    have hne : slice s1 chunkStart chunkEnd ≠ [] := List.ne_nil_of_length_pos (by omega)
    rw [length_lzwCodes_short _ hne (by omega), hlen, hsize] at hpad
    unfold codeBytes at hpad
    omega
  · intro h
    have hcount := length_lzwCodes_le (slice s1 chunkStart chunkEnd)
    obtain ⟨out, hout, -⟩ := lzw_spec hle hend hsize.ge (by unfold codeBytes; omega)
    rw [hout]
    rfl

theorem lzw_in_buffer_abc : (lzw 0 2 [65, 66, 67] (List.replicate 6 0)).isSome :=
  (lzw_in_buffer_iff (by decide) (by decide) (by decide)).mpr (by decide)

/-- A chunk of one byte has two bytes of codes, and a buffer of two. -/
theorem lzw_outside_buffer : ¬(lzw 0 0 [65] [0, 0]).isSome := by
  intro h
  obtain ⟨out, hout⟩ := Option.isSome_iff_exists.mp h
  obtain ⟨-, hpad⟩ := lzw_room (by decide) (by decide) hout
  rw [length_lzwCodes_short _ (by decide) (by decide)] at hpad
  exact absurd hpad (by decide)

end Room

attribute [local irreducible] baseDict

/-- The phrases of a chunk: each time the longest string that is entered so far. -/
def lzwPhrases (chunk : Str) : List Str := (greedyParse baseDict chunk).map Prod.snd

/-- The bytes below 128 in the even places count up every 256 places, and the ones from
128 on in the odd places count through: no two neighbours come twice. -/
def zigzag (k : ℕ) : Byte := BitVec.ofNat 8 (if k%2 = 0 then k/256 else 128+k%256/2)

theorem toNat_zigzag (k : ℕ) (hk : k ≤ 7936) :
    (zigzag k).toNat = if k%2 = 0 then k/256 else 128+k%256/2 := by
  rw [zigzag, BitVec.toNat_ofNat]
  split_ifs <;> omega

theorem zigzag_pairs (i k : ℕ) (hik : i < k) (hk : k < 7936) :
    (zigzag i, zigzag (i+1)) ≠ (zigzag k, zigzag (k+1)) := by
  intro h
  obtain ⟨h1, h2⟩ := Prod.mk.inj h
  have hfirst := congrArg BitVec.toNat h1
  have hsecond := congrArg BitVec.toNat h2
  rw [toNat_zigzag _ (by omega), toNat_zigzag _ (by omega)] at hfirst hsecond
  split_ifs at hfirst hsecond <;> omega

/-- 7936 pairs fill the codes below `2^13`, and the next pair comes twice. -/
def longChunk (L : ℕ) : Str :=
  (List.range 7937).map zigzag ++ List.replicate (L-7937) (zigzag 7936)

theorem length_longChunk (L : ℕ) (hL : 7937 ≤ L) : (longChunk L).length = L := by
  rw [longChunk, List.length_append, List.length_map, List.length_range, List.length_replicate]
  omega

theorem range_succ_map {β : Type*} (x : ℕ → β) (n : ℕ) :
    (List.range (n+1)).map x = x 0 :: (List.range n).map (fun i => x (i+1)) := by
  rw [List.range_succ_eq_map, List.map_cons, List.map_map]
  rfl

/-- The entries after `n+1` bytes without a repeated pair. -/
def pairDict (n : ℕ) : List Str :=
  baseDict ++ (List.range n).map (fun i => [zigzag i, zigzag (i+1)])

theorem length_of_mem_pairDict (n : ℕ) (w : Str) (h : w ∈ pairDict n) : w.length ≤ 2 := by
  rcases List.mem_append.mp h with h | h
  · rw [length_of_mem_baseDict w h]
    decide
  · obtain ⟨i, -, rfl⟩ := List.mem_map.mp h
    exact le_rfl

theorem double_not_mem_pairDict (n : ℕ) (hn : n ≤ 7936) (z : Byte) : [z, z] ∉ pairDict n := by
  intro h
  rcases List.mem_append.mp h with h | h
  · exact absurd (length_of_mem_baseDict _ h) (by simp)
  · obtain ⟨i, hi, heq⟩ := List.mem_map.mp h
    have hlt := List.mem_range.mp hi
    simp only [List.cons.injEq, and_true] at heq
    have hsame := congrArg BitVec.toNat (heq.1.trans heq.2.symm)
    -- one of the neighbours is below 128 and the other one is not
    rw [toNat_zigzag _ (by omega), toNat_zigzag _ (by omega)] at hsame
    split_ifs at hsame <;> omega

theorem mem_lzwCodes_longChunk (L : ℕ) (hL : 7939 ≤ L) : 8192 ∈ lzwCodes (longChunk L) := by
  obtain ⟨m, hm⟩ : ∃ m, L-7937 = m+2 := ⟨L-7939, by omega⟩
  obtain ⟨pre, hpre⟩ := PhraseWriter.codes_new_pairs length_of_mem_baseDict zigzag 7936
    zigzag_pairs (List.replicate (m+2) (zigzag 7936))
  have hsplit : longChunk L = zigzag 0 :: ((List.range 7936).map (fun i => zigzag (i+1)) ++
      List.replicate (m+2) (zigzag 7936)) := by
    rw [longChunk, hm, range_succ_map, List.cons_append]
  have hnew := double_not_mem_pairDict 7936 le_rfl (zigzag 7936)
  have hlen : (pairDict 7936).length = 8192 := by
    rw [pairDict, List.length_append, length_baseDict, List.length_map, List.length_range]
  rw [hsplit, lzwCodes_eq_writer, hpre, ← pairDict]
  generalize zigzag 7936 = z at *
  have hcode : (pairDict 7936 ++ [[z, z]]).idxOf [z, z] = 8192 := by
    rw [List.idxOf_append_of_notMem hnew, hlen, List.idxOf_cons_self]
  have hbound : ∀ w ∈ pairDict 7936 ++ [[z, z]], w.length ≤ 2 := by
    intro w hw
    rcases List.mem_append.mp hw with hw | hw
    · exact length_of_mem_pairDict 7936 w hw
    · rw [List.mem_singleton.mp hw]
      exact le_rfl
  -- the pair is entered under 8192, grows out of the second byte, and is emitted
  rw [List.replicate_succ, List.replicate_succ, PhraseWriter.codes_emit hnew]
  apply List.mem_append_right
  apply List.mem_cons_of_mem
  rw [PhraseWriter.codes_extend (List.mem_append_right _ (List.mem_singleton_self _)), ← hcode]
  apply PhraseWriter.idxOf_mem_codes
  intro a hin
  exact absurd (hbound _ hin) (by simp)

/-- The codes of a chunk stay below `2^13` when no phrase of it is entered behind the
7936th string; and those of all chunks of its length do up to 7938 bytes exactly. -/
theorem lzwCodes_fit_iff (chunk : Str) :
    ((∀ v ∈ lzwCodes chunk, v < 2^13) ↔ ∀ w ∈ lzwPhrases chunk,
      w.length = 1 ∨ w ∈ (opened (lzwPhrases chunk)).take 7936) ∧
    ((∀ other : Str, other.length = chunk.length → ∀ v ∈ lzwCodes other, v < 2^13) ↔
      chunk.length ≤ 7938) := by
  constructor
  · have hsingle (w : Str) : w ∈ baseDict ↔ w.length = 1 := by
      constructor
      · exact length_of_mem_baseDict w
      · intro hw
        obtain ⟨b, rfl⟩ := List.length_eq_one_iff.mp hw
        exact mem_baseDict b
    have hfit := greedyParse_codes_lt_iff baseDict mem_baseDict chunk (2^13)
      (by rw [length_baseDict]; decide)
    rw [lzwCodes_eq_greedy, hfit, length_baseDict]
    simp only [hsingle]
    rfl
  · constructor
    · intro h
      by_contra hlong
      have hbad := h (longChunk chunk.length) (length_longChunk _ (by omega)) 8192
        (mem_lzwCodes_longChunk _ (by omega))
      omega
    · intro hL other hlen
      exact lzwCodes_lt other (by omega)

/-- A chunk of 7939 bytes. -/
theorem lzwCodes_overflow : ¬∀ v ∈ lzwCodes (longChunk 7939), v < 2^13 := by
  intro h
  exact absurd (h 8192 (mem_lzwCodes_longChunk 7939 le_rfl)) (by decide)

end Sync532
