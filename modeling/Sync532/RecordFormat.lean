import Mathlib.Data.BitVec
import Sync532.LzwModel

/-! The record format: four bytes of header, little endian, whose lowest bit tells
a reference to an earlier chunk from an LZW record with its size. -/
namespace Sync532

/-- The union of a `uint32_t` with its bytes, on a little-endian machine. -/
def le32 (h : BitVec 32) : List Byte :=
  [h.setWidth 8, (h >>> 8).setWidth 8, (h >>> 16).setWidth 8, (h >>> 24).setWidth 8]

/-- `u.header = (uint32_t)outlen<<1`. -/
def lzwHeader (outlen : ℕ) : BitVec 32 := BitVec.ofNat 32 outlen <<< 1

/-- `u.header = sent<<1; u.header|=1`. -/
def refHeader (sent : BitVec 32) : BitVec 32 := (sent <<< 1) ||| 1

theorem lzwHeader_even (outlen : ℕ) : lzwHeader outlen &&& 1 = 0 := by
  apply BitVec.eq_of_getLsbD_eq
  intro i hi
  rcases i with _ | i <;> simp [lzwHeader]

theorem lzwHeader_size (outlen : ℕ) (h : outlen < 2^31) :
    (lzwHeader outlen >>> 1).toNat = outlen := by
  simp only [lzwHeader, BitVec.toNat_ushiftRight, BitVec.toNat_shiftLeft, BitVec.toNat_ofNat,
    Nat.shiftLeft_eq, Nat.shiftRight_eq_div_pow]
  omega

theorem refHeader_odd (sent : BitVec 32) : refHeader sent &&& 1 ≠ 0 := by
  intro h
  have hbit := congrArg (fun v : BitVec 32 => v.getLsbD 0) h
  simp [refHeader] at hbit

theorem refHeader_location (sent : BitVec 32) (h : sent.toNat < 2^31) :
    (refHeader sent >>> 1).toNat = sent.toNat := by
  have hclear : refHeader sent >>> 1 = (sent <<< 1) >>> 1 := by
    apply BitVec.eq_of_getLsbD_eq
    intro i hi
    simp [refHeader]
  rw [hclear]
  simp only [BitVec.toNat_ushiftRight, BitVec.toNat_shiftLeft, Nat.shiftLeft_eq,
    Nat.shiftRight_eq_div_pow]
  omega

/-- One record of a file. -/
inductive FileRecord
  | lzw (chunk : Str) (body : List Byte)
  | ref (sent : BitVec 32)

def FileRecord.bytes : FileRecord → List Byte
  | .lzw _ body => le32 (lzwHeader body.length) ++ body
  | .ref sent => le32 (refHeader sent)

def fileBytes (rs : List FileRecord) : List Byte := rs.flatMap FileRecord.bytes

/-- The contents of the LZW records, in the order of the file. -/
def lzwChunks : List FileRecord → List Str
  | [] => []
  | .lzw chunk _ :: rs => chunk :: lzwChunks rs
  | .ref _ :: rs => lzwChunks rs

/-- What one record stands for when the file has had the LZW contents `known`. -/
def FileRecord.content (known : List Str) : FileRecord → Str
  | .lzw chunk _ => chunk
  | .ref sent => (known[sent.toNat]?).getD []

def contents : List Str → List FileRecord → Str
  | _, [] => []
  | known, r :: rs => r.content known ++ contents (known ++ lzwChunks [r]) rs

theorem lzwChunks_append (rs rs' : List FileRecord) :
    lzwChunks (rs ++ rs') = lzwChunks rs ++ lzwChunks rs' := by
  induction rs with
  | nil => rfl
  | cons r rs ih => cases r <;> simp [lzwChunks, ih]

theorem contents_append (known : List Str) (rs rs' : List FileRecord) :
    contents known (rs ++ rs') = contents known rs ++ contents (known ++ lzwChunks rs) rs' := by
  induction rs generalizing known with
  | nil => simp [contents, lzwChunks]
  | cons r rs ih =>
    have hsplit : lzwChunks (r :: rs) = lzwChunks [r] ++ lzwChunks rs := lzwChunks_append [r] rs
    simp only [List.cons_append, contents, ih, hsplit, List.append_assoc]

theorem length_bytes_pos (rec : FileRecord) : 4 ≤ rec.bytes.length := by
  cases rec <;> simp [FileRecord.bytes, le32]

theorem length_bytes_le {rec : FileRecord} {rs : List FileRecord} (h : rec ∈ rs) :
    rec.bytes.length ≤ (fileBytes rs).length := by
  obtain ⟨pre, post, rfl⟩ := List.append_of_mem h
  simp only [fileBytes, List.flatMap_append, List.flatMap_cons, List.length_append]
  omega

theorem length_le_fileBytes (rs : List FileRecord) : 4*rs.length ≤ (fileBytes rs).length := by
  induction rs with
  | nil => simp
  | cons rec rs ih =>
    have := length_bytes_pos rec
    simp only [fileBytes, List.flatMap_cons, List.length_cons, List.length_append] at ih ⊢
    omega

/-- Without an LZW record there are four bytes for each record. -/
theorem length_references {rs : List FileRecord} (h : lzwChunks rs = []) :
    (fileBytes rs).length = 4*rs.length := by
  induction rs with
  | nil => rfl
  | cons rec rs ih =>
    cases rec with
    | lzw chunk body => exact absurd h (List.cons_ne_nil _ _)
    | ref sent =>
      have hrest := ih h
      have hbytes : (FileRecord.ref sent).bytes.length = 4 := rfl
      rw [fileBytes, List.flatMap_cons, List.length_append, hbytes, List.length_cons]
      rw [fileBytes] at hrest
      omega

end Sync532
