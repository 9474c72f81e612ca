import Sync532.ServerModel

/-! client.cpp: `main` from the size of the file to the last `sendto`. -/
namespace Sync532

def maxBlocksize : ℕ := 16384
def doneBit : Byte := 1 <<< 7

/-- The stack buffer `local`, the reads of `memcpy` as offset and size, and the datagrams. -/
structure ClientState where
  buffer : List Byte
  reads : List (ℕ × ℕ)
  sent : List (List Byte)

/-- `high` and `low`, with the done bit in `high`. -/
def localHeader (count : ℕ) (done : Bool) : List Byte :=
  let high := BitVec.ofNat 8 (count >>> 8)
  let low := BitVec.ofNat 8 (count &&& 0xFF)
  [low, if done then high ||| doneBit else high]

/-- `memcpy(&local[HEADER],&buff[start],count)`, the two header bytes, and `sendto`. -/
def sendPiece (buff : ℕ → Byte) (start count : ℕ) (done : Bool) (s : ClientState) :
    Option ClientState :=
  if header+count ≤ maxBlocksize+header then
    let buffer := localHeader count done ++ (List.range' start count).map buff ++
      s.buffer.drop (header+count)
    some ⟨buffer, s.reads ++ [(start, count)], s.sent ++ [buffer.take (header+count)]⟩
  else none

/-- The sending part of `main`. For less than two blocks the loop does not run, and
`n` stays 0. -/
def sendFile (buff : ℕ → Byte) (bytesRead blocksize : ℕ) (s : ClientState) :
    Option ClientState :=
  let remainder := bytesRead%blocksize
  let loops := bytesRead/blocksize
  let n := loops-1
  ((List.range n).foldlM (fun s i => sendPiece buff (i*blocksize) blocksize false s) s).bind
    (fun s =>
      (if remainder = 0 then sendPiece buff (n*blocksize) blocksize true s
        else sendPiece buff (n*blocksize) blocksize false s).bind
      (fun s =>
        if remainder ≠ 0 then sendPiece buff (loops*blocksize) remainder true s else some s))

/-- What the client has read and sent when `main` returns. -/
structure ClientRun where
  bytesRead : ℕ
  reads : List (ℕ × ℕ)
  sent : List (List Byte)

/-- The memory at `buff`: the bytes that `fread` has put there, and what lies behind. -/
def clientMemory (content : List Byte) (behind : ℕ → Byte) (bytesRead : ℕ) (i : ℕ) : Byte :=
  (content.take bytesRead).getD i (behind i)

/-- `main` on a file. `file_size` is an `int`: as the size of a `malloc`, a negative one
is too large, and the client exits. -/
def clientMain (content : List Byte) (behind : ℕ → Byte) (buffer : List Byte)
    (blocksize : ℕ) :
    Option ClientRun :=
  let fileSize := BitVec.ofNat 32 content.length
  if fileSize.toInt < 0 then some ⟨0, [], []⟩
  else
    let bytesRead := min fileSize.toNat content.length
    (sendFile (clientMemory content behind bytesRead) bytesRead blocksize ⟨buffer, [], []⟩).map
      (fun s => ⟨bytesRead, s.reads, s.sent⟩)

end Sync532
