import Sync532.EndToEnd
import Sync532.LzwDefined

namespace Sync532

section Calls
variable {β κ : Type*} [DecidableEq κ] {hash : β → Option κ}
  {lzwRecord : β → Option FileRecord}

end Calls

/-- The key of a chunk is its digest up to the first zero byte, there or on the stack. -/
def PacketChunk.key (sha : Str → Digest) (c : PacketChunk) : Option Str :=
  keyOf sha PacketChunk.content PacketChunk.stack c

theorem encode_defined {sha : Str → Digest} {p : Packet} {s t : EncodeState Str}
    (h : encode sha p s = some t) : winSize ≤ p.payload.length ∧ 0 ∈ p.memory := by
  simp only [encode, Option.bind_eq_bind, Option.bind_eq_some_iff] at h
  obtain ⟨qIndex, hcdc, sPacket, hstr, -⟩ := h
  constructor
  · by_contra hshort
    rw [cdc_short p.payload _ (Nat.lt_of_not_le hshort)] at hcdc
    cases hcdc
  · unfold cString at hstr
    split_ifs at hstr with hzero
    exact hzero

theorem encodeRun_defined {sha : Str → Digest} {packets : List Packet} {s t : EncodeState Str}
    (h : packets.foldlM (fun s p => encode sha p s) s = some t) :
    ∀ p ∈ packets, winSize ≤ p.payload.length ∧ 0 ∈ p.memory := by
  intro p hp
  obtain ⟨s', t', hstep⟩ := foldlM_visits h p hp
  exact encode_defined hstep

section Strict

variable {sha : Str → Digest}

end Strict

end Sync532
