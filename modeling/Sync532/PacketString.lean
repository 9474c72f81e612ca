import Mathlib.Data.List.TakeWhile
import Sync532.DedupModel
import Sync532.LzwReads

namespace Sync532

theorem charAt_terminator (s1 : Str) (i : ℕ) (hi : i ≤ s1.length) :
    charAt (s1 ++ [0]) i = charAt s1 i := by
  unfold charAt
  rw [List.length_append, List.length_singleton, if_pos (by omega)]
  rcases hi.lt_or_eq with hlt | rfl
  · rw [if_pos hlt, List.getElem?_append_left hlt]
  · rw [if_neg (lt_irrefl _), if_pos rfl, List.getElem?_append_right le_rfl, Nat.sub_self]
    rfl

/-- A chunk that ends at the terminator is read like any other one. -/
theorem lzw_terminator (s1 : Str) (chunkStart chunkEnd : ℕ) (hle : chunkStart ≤ chunkEnd)
    (hend : chunkEnd ≤ s1.length) (outputCode : List Byte) :
    lzw chunkStart chunkEnd (s1 ++ [0]) outputCode = lzw chunkStart chunkEnd s1 outputCode := by
  apply lzw_congr hle
  intro i hi
  have hmem := (mem_lzwReadPositions hle i).mp hi
  exact charAt_terminator s1 i (by omega)

/-- The length of the C string in a memory that has a zero byte. -/
def cLength (mem : List Byte) : ℕ := (mem.takeWhile (· ≠ 0)).length

theorem memory_split {mem : List Byte} (hzero : 0 ∈ mem) :
    ∃ rest, mem = (mem.takeWhile (· ≠ 0) ++ [0]) ++ rest := by
  obtain ⟨x, rest, hdrop⟩ : ∃ x rest, mem.dropWhile (· ≠ 0) = x :: rest := by
    apply List.exists_cons_of_ne_nil
    intro hnil
    have hall := List.dropWhile_eq_nil_iff.mp hnil
    simpa using hall 0 hzero
  have hx : x = 0 := by
    have hhead := List.head?_dropWhile_not (· ≠ 0) mem
    rw [hdrop] at hhead
    simpa using hhead
  refine ⟨rest, ?_⟩
  rw [hx] at hdrop
  rw [List.append_assoc, List.singleton_append, ← hdrop, List.takeWhile_append_dropWhile]

theorem mapM_charAt (s1 : Str) (a n : ℕ) (hn : a+n ≤ s1.length+1) :
    (List.range' a n).mapM (charAt s1) = some (((s1 ++ [0]).drop a).take n) := by
  induction n generalizing a with
  | zero => rfl
  | succ n ih =>
    have hlt : a < (s1 ++ [0]).length := by
      rw [List.length_append, List.length_singleton]
      omega
    have hchar : charAt s1 a = some (s1 ++ [0])[a] := by
      rw [← charAt_terminator s1 a (by omega), charAt, if_pos hlt, List.getElem?_eq_getElem hlt]
    rw [List.range'_succ, List.mapM_cons, hchar, ih (a+1) (by omega),
      List.drop_eq_getElem_cons hlt, List.take_succ_cons]
    rfl

/-- The characters `s1[first .. last]`. -/
def lzwReads (s1 : Str) (first last : ℕ) : Option Str :=
  (List.range' first (last+1-first)).mapM (charAt s1)

/-- On the C string of a memory these are the bytes of the memory, as long as no
zero byte stands in front of the last one. -/
theorem lzwReads_cString {mem : List Byte} (hzero : 0 ∈ mem) (first last : ℕ)
    (hle : first ≤ last) :
    lzwReads (mem.takeWhile (· ≠ 0)) first last =
      if last ≤ cLength mem then some (slice mem first last) else none := by
  obtain ⟨rest, hsplit⟩ := memory_split hzero
  have hlen : cLength mem = (mem.takeWhile (· ≠ 0)).length := rfl
  generalize mem.takeWhile (· ≠ 0) = s1 at hsplit hlen
  rw [hlen]
  split_ifs with hlast
  · have hslice : slice mem first last = slice (s1 ++ [0]) first last := by
      rw [hsplit]
      exact slice_append_left _ _ _ _ (by rw [List.length_append, List.length_singleton]; omega)
    rw [hslice]
    exact mapM_charAt s1 first (last+1-first) (by omega)
  · -- the read of `s1[last]` is outside
    have hout : charAt s1 last = none := by
      rw [charAt, if_neg (by omega), if_neg (by omega)]
    rw [lzwReads, show last+1-first = (last-first)+1 by omega, List.range'_1_concat,
      List.mapM_append, show first+(last-first) = last by omega]
    cases (List.range' first (last-first)).mapM (charAt s1) with
    | none => rfl
    | some _ => simp [hout]

/-- The end of the C string against the first zero byte of the payload. -/
theorem le_cLength_iff (payload after : List Byte) (last : ℕ) (hlast : last ≤ payload.length) :
    last ≤ cLength (payload ++ after) ↔ 0 ∉ payload.take last := by
  have htake : (payload ++ after).take last = payload.take last :=
    List.take_append_of_le_length hlast
  have hlen : last ≤ (payload ++ after).length := by
    rw [List.length_append]
    omega
  rw [← htake]
  generalize payload ++ after = mem at *
  unfold cLength
  constructor
  · intro h hmem
    have hfront : mem.take last = (mem.takeWhile (· ≠ 0)).take last := by
      have hsplit := List.takeWhile_append_dropWhile (p := (· ≠ 0)) (l := mem)
      conv_lhs => rw [← hsplit, List.take_append_of_le_length h]
    rw [hfront] at hmem
    have hne := List.mem_takeWhile_imp (List.mem_of_mem_take hmem)
    simp at hne
  · intro h
    have hall : ∀ b ∈ mem.take last, decide (b ≠ 0) = true := by
      intro b hb
      exact decide_eq_true (fun he => h (he ▸ hb))
    have hsplit :
        mem.takeWhile (· ≠ 0) = mem.take last ++ (mem.drop last).takeWhile (· ≠ 0) := by
      conv_lhs => rw [← List.take_append_drop last mem, List.takeWhile_append_of_pos hall]
    rw [hsplit, List.length_append, List.length_take]
    omega

/-- What `LZW` reads from `s_packet` for a chunk of the payload is the chunk, exactly
when a zero byte ends the C string and none stands in front of the end of the chunk. -/
theorem lzw_reads_payload_iff (payload after : List Byte) (chunkStart chunkEnd : ℕ)
    (hle : chunkStart ≤ chunkEnd) (hend : chunkEnd < payload.length) :
    (∃ sPacket, cString (payload ++ after) = some sPacket ∧
      (∀ i ∈ lzwReadPositions chunkStart chunkEnd,
        i ≤ sPacket.length ∧ charAt sPacket i = payload[i]?) ∧
      lzwReads sPacket chunkStart chunkEnd = some (slice payload chunkStart chunkEnd)) ↔
    0 ∈ payload ++ after ∧ 0 ∉ payload.take chunkEnd := by
  rw [← le_cLength_iff payload after chunkEnd hend.le]
  have hmem (i : ℕ) (hi : i ∈ lzwReadPositions chunkStart chunkEnd) : i ≤ chunkEnd :=
    ((mem_lzwReadPositions hle i).mp hi).2
  constructor
  · rintro ⟨sPacket, hstring, hreads, -⟩
    unfold cString at hstring
    split_ifs at hstring with hzero
    obtain rfl : (payload ++ after).takeWhile (· ≠ 0) = sPacket := Option.some.inj hstring
    have hlast : chunkEnd ∈ lzwReadPositions chunkStart chunkEnd :=
      (mem_lzwReadPositions hle chunkEnd).mpr ⟨hle, le_rfl⟩
    exact ⟨hzero, (hreads chunkEnd hlast).1⟩
  · rintro ⟨hzero, hlast⟩
    have hbytes := lzwReads_cString hzero chunkStart chunkEnd hle
    rw [if_pos hlast, slice_append_left _ _ _ _ hend] at hbytes
    refine ⟨(payload ++ after).takeWhile (· ≠ 0), if_pos hzero, ?_, hbytes⟩
    intro i hi
    have hbound := hmem i hi
    have hlt : i < payload.length := by omega
    have hin : i ≤ ((payload ++ after).takeWhile (· ≠ 0)).length := hbound.trans hlast
    refine ⟨hin, ?_⟩
    -- the string with its terminator is a prefix of the memory
    obtain ⟨rest, hsplit⟩ := memory_split hzero
    have hterm : i < ((payload ++ after).takeWhile (· ≠ 0) ++ [0]).length := by
      rw [List.length_append, List.length_singleton]
      omega
    rw [← charAt_terminator _ i hin, charAt, if_pos hterm, ← List.getElem?_append_left hterm,
      ← hsplit, List.getElem?_append_left hlt]

theorem lzw_reads_payload_ab :
    ∃ sPacket, cString ([65, 66] ++ [0]) = some sPacket ∧
      (∀ i ∈ lzwReadPositions 0 1, i ≤ sPacket.length ∧ charAt sPacket i = [65, 66][i]?) ∧
      lzwReads sPacket 0 1 = some [65, 66] :=
  (lzw_reads_payload_iff [65, 66] [0] 0 1 (by decide) (by decide)).mpr (by decide)

/-- A zero byte in the middle of the chunk. -/
theorem lzw_reads_behind_zero :
    ¬∃ sPacket, cString ([65, 0, 66] ++ [0]) = some sPacket ∧
      (∀ i ∈ lzwReadPositions 0 2, i ≤ sPacket.length ∧
        charAt sPacket i = [65, 0, 66][i]?) ∧
      lzwReads sPacket 0 2 = some [65, 0, 66] := by
  rintro ⟨sPacket, hstring, hreads, -⟩
  obtain rfl : [65] = sPacket := Option.some.inj hstring
  have hlast := (hreads 2 (by decide)).1
  exact absurd hlast (by decide)

end Sync532
