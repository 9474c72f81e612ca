import Sync532.EndToEnd

namespace Sync532

structure ShortText where
  text : Str
  behind : Str
  full : winSize ≤ text.length
  short : text.length ≤ 2*winSize
  whole : 0 ∉ text

namespace ShortText

/-- The text in a packet buffer, with a zero byte behind it and behind each digest. -/
def packet (t : ShortText) : Packet :=
  ⟨t.text, 0 :: t.behind, fun _ => [0], fun _ _ => 0, t.short.trans_lt (by decide)⟩

def chunk (t : ShortText) : PacketChunk := ⟨t.packet, 0, 0, t.text.length-1⟩

theorem ends (t : ShortText) : cdcEnds t.text = [t.text.length-1] := by
  have hnone : t.text.length-2*winSize = 0 := Nat.sub_eq_zero_of_le t.short
  rw [cdcEnds, cutPositions, hnone, List.range'_zero]
  rfl

theorem calls (t : ShortText) : t.packet.calls = [(t.chunk, 0)] := by
  have hends : cdcEnds t.packet.payload = [t.text.length-1] := t.ends
  rw [Packet.calls, hends]
  rfl

theorem content (t : ShortText) : t.chunk.content = t.text := by
  have hpos : 0 < winSize := by decide
  have hfull := t.full
  calc t.chunk.content = slice (t.text ++ 0 :: t.behind) 0 (t.text.length-1) := rfl
    _ = slice t.text 0 (t.text.length-1) := slice_append_left _ _ _ _ (by omega)
    _ = t.text := slice_full _ (List.ne_nil_of_length_pos (by omega))

theorem run_calls (ts : List ShortText) :
    packetCalls (ts.map packet) = ts.map (fun t => (t.chunk, 0)) := by
  rw [packetCalls, List.flatMap_map, funext calls, List.map_eq_flatMap]

theorem mem_chunks {ts : List ShortText} {c : PacketChunk}
    (hc : c ∈ packetChunks (ts.map packet)) :
    ∃ t ∈ ts, c = t.chunk := by
  rw [packetChunks, run_calls, List.map_map] at hc
  obtain ⟨t, ht, rfl⟩ := List.mem_map.mp hc
  exact ⟨t, ht, rfl⟩

theorem encodable_chunk (t : ShortText) : t.chunk.Encodable := by
  have hfull := t.full
  have hshort := t.short
  have hsize : winSize = 16 := rfl
  refine ⟨?_, ?_, ?_⟩
  · -- the first zero is the one behind the text
    apply (le_cLength_iff t.text (0 :: t.behind) (t.text.length-1) (Nat.sub_le _ _)).mpr
    exact fun hzero => t.whole (List.mem_of_mem_take hzero)
  · change 3 ≤ t.text.length-1-0+1
    omega
  · rw [t.content]
    apply lzwCodes_lt
    omega

variable {sha : Str → Digest} {ts : List ShortText}

theorem run_distinct
    (hsha : ∀ t ∈ ts, ∀ t' ∈ ts, sha t.text = sha t'.text → t.text = t'.text) :
    DigestsDistinct sha (ts.map packet) := by
  intro c hc c' hc' he
  obtain ⟨t, ht, rfl⟩ := mem_chunks hc
  obtain ⟨t', ht', rfl⟩ := mem_chunks hc'
  rw [content, content] at he ⊢
  exact hsha t ht t' ht' he

theorem run_encodable (hwhole : ∀ t ∈ ts, 0 ∉ (sha t.text).bytes) :
    RunEncodable sha (ts.map packet) := by
  have hdigest : ∀ c ∈ packetChunks (ts.map packet), 0 ∉ (sha c.content).bytes := by
    intro c hc
    obtain ⟨t, ht, rfl⟩ := mem_chunks hc
    rw [content]
    exact hwhole t ht
  have hstack : ∀ c ∈ packetChunks (ts.map packet), c.stack = [0] := by
    intro c hc
    obtain ⟨t, -, rfl⟩ := mem_chunks hc
    rfl
  refine ⟨?_, ?_, ⟨?_, ?_, ?_⟩, ?_⟩
  · intro p hp
    obtain ⟨t, -, rfl⟩ := List.mem_map.mp hp
    exact t.full
  · intro p hp
    obtain ⟨t, -, rfl⟩ := List.mem_map.mp hp
    exact List.mem_append_right _ List.mem_cons_self
  · intro c hc
    rw [hstack c hc]
    exact Or.inr List.mem_cons_self
  · intro c hc c' hc' _ _
    rw [hstack c hc, hstack c' hc']
  · intro c hc c' _ _ hzero _
    exact absurd hzero (hdigest c hc)
  · intro pre c post hcalls _
    have hc : c.1 ∈ packetChunks (ts.map packet) := by
      rw [packetChunks, hcalls]
      exact List.mem_map_of_mem (by simp)
    obtain ⟨t, -, he⟩ := mem_chunks hc
    rw [he]
    exact t.encodable_chunk

/-- When the first text comes again and again, the numbers fit. -/
theorem run_numbers (first : ShortText) (ts : List ShortText)
    (honly : ∀ t ∈ ts, t.text = first.text) :
    NumbersFirsts PacketChunk.content BitVec.toNat (packetCalls ((first :: ts).map packet)) := by
  intro pre c post hcalls hnew _
  rw [run_calls, List.map_cons] at hcalls
  rcases pre with _ | ⟨d, pre⟩
  · rw [← (List.cons.inj hcalls).1]
    rfl
  · -- behind the first call nothing is new
    obtain ⟨rfl, hrest⟩ := List.cons.inj hcalls
    have hc : c ∈ ts.map (fun t => (t.chunk, (0 : BitVec 32))) := by
      rw [hrest]
      simp
    obtain ⟨t, ht, rfl⟩ := List.mem_map.mp hc
    apply absurd _ hnew
    rw [labelsOf, List.map_cons, content, content, honly t ht]
    exact List.mem_cons_self

end ShortText

/-- `n` letters `A`. -/
def lettersText (n : ℕ) (h : 16 ≤ n ∧ n ≤ 32) : ShortText :=
  ⟨List.replicate n 0x41, [], by rw [List.length_replicate]; exact h.1,
    by rw [List.length_replicate]; exact h.2,
    fun hzero => absurd (List.eq_of_mem_replicate hzero) (by decide)⟩

/-- SHA-1 on 17 and on 18 letters `A`. -/
def lettersSha (chunk : Str) : Digest :=
  if chunk = List.replicate 17 0x41 then
    ⟨[0x9e, 0xe2, 0x76, 0xac, 0xbf, 0x8a, 0x12, 0x57, 0xa5, 0x8a,
      0x5b, 0xad, 0x22, 0xbe, 0xf8, 0x90, 0x7e, 0x49, 0xcb, 0xf2], rfl⟩
  else
    ⟨[0x3a, 0x82, 0x62, 0xb7, 0xc3, 0xb4, 0x38, 0x77, 0x38, 0x9d,
      0x30, 0x09, 0x86, 0xb0, 0xc0, 0xb1, 0xee, 0xdf, 0xdf, 0xbf], rfl⟩

def seventeen : ShortText := lettersText 17 (by decide)

def eighteen : ShortText := lettersText 18 (by decide)

theorem letters_run (ts : List ShortText)
    (hts : ∀ t ∈ ts, t.text = seventeen.text ∨ t.text = eighteen.text) :
    DigestsDistinct lettersSha (ts.map ShortText.packet) ∧
      RunEncodable lettersSha (ts.map ShortText.packet) := by
  have hne : lettersSha seventeen.text ≠ lettersSha eighteen.text := by decide
  constructor
  · apply ShortText.run_distinct
    intro t ht t' ht' he
    rcases hts t ht with h | h <;> rcases hts t' ht' with h' | h' <;> rw [h, h'] at he ⊢
    · exact absurd he hne
    · exact absurd he.symm hne
  · apply ShortText.run_encodable
    intro t ht
    rcases hts t ht with h | h <;> rw [h] <;> decide

end Sync532
