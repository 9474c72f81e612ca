import Mathlib.Data.BitVec
import Sync532.LzwModel
import Sync532.Segments

/-! encode_parts.cpp: `SHA_HW` and `deduplication`. SHA-1 itself is a parameter. -/
namespace Sync532

/-- `char digest[HASH_SIZE]`. -/
structure Digest where
  bytes : List Byte
  size : bytes.length = 20
deriving DecidableEq

/-- A `std::string` made from a `char *`: it takes the bytes in front of the first
zero, and without a zero in `mem` there is no result. -/
def cString (mem : List Byte) : Option Str :=
  if 0 ∈ mem then some (mem.takeWhile (· ≠ 0)) else none

/-- `SHA_HW`. The assignment from the array reads on into the bytes that lie
behind it on the stack. -/
def shaHW (sha : Str → Digest) (message : List Byte) (chunkStart chunkEnd : ℕ)
    (stack : List Byte) : Option Str :=
  cString ((sha (slice message chunkStart chunkEnd)).bytes ++ stack)

variable {κ : Type*} [DecidableEq κ]

/-- `deduplication`, with its static table. `CHUNK_idx_t` is an `int`. -/
def deduplication (umap : UMap κ (BitVec 32)) (chunkIndex : BitVec 32) (hashValue : κ) :
    UMap κ (BitVec 32) × BitVec 32 :=
  let (umap, idx) := umap.index hashValue 0
  if idx ≠ 0 then (umap, idx-1) else (umap.set hashValue (chunkIndex+1), -1)

/-- One call of `SHA_HW`, with the stack bytes behind the array at that time. -/
structure ShaCall where
  message : List Byte
  chunkStart : ℕ
  chunkEnd : ℕ
  stack : List Byte
  le : chunkStart ≤ chunkEnd
  lt : chunkEnd < message.length

def ShaCall.chunk (c : ShaCall) : Str := slice c.message c.chunkStart c.chunkEnd

def ShaCall.key (sha : Str → Digest) (c : ShaCall) : Option Str :=
  shaHW sha c.message c.chunkStart c.chunkEnd c.stack

/-- `SHA_HW` and `deduplication` on one chunk after the other. -/
def dedupRun (sha : Str → Digest) (umap : UMap Str (BitVec 32)) :
    List (ShaCall × BitVec 32) → Option (List (BitVec 32))
  | [] => some []
  | c :: calls => do
    let hashValue ← c.1.key sha
    let sents ← dedupRun sha (deduplication umap c.2 hashValue).1 calls
    some ((deduplication umap c.2 hashValue).2 :: sents)

end Sync532
