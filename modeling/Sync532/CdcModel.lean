import Mathlib.Data.BitVec
import Sync532.ByteBuffer

/-! cdc.cpp: `cdc`, and `cdc0` with its three stages; and the loop of `encode`
that reads the positions back. A read outside a buffer, a store outside `chunk_q`
and a read from an empty stream give `none`. -/
namespace Sync532

def winSize : ℕ := 16
def prime : ℕ := 3
def modulus : ℕ := 256
def target : ℕ := 0

/-- `int(b) * pow(PRIME, j + 1)`, with the power as an exact integer. -/
def hashTerm (b : Byte) (j : ℕ) : ℕ := b.toNat*prime^(j+1)

/-- The hash of `cdc` at `i`. -/
def windowHash (buff : List Byte) (i : ℕ) : Option ℕ :=
  (List.range winSize).foldlM
    (fun hash j => (buff[i+winSize-1-j]?).map (fun b => hash+hashTerm b j)) 0

/-- The bound `buff_size - WIN_SIZE` of an `unsigned int`. -/
def scanLimit (buffSize : BitVec 32) : ℕ := (buffSize-BitVec.ofNat 32 winSize).toNat

/-- `i-1` of an `unsigned int`, stored into an `int`. -/
def endBefore (i : BitVec 32) : ℤ := (i-1).toInt

structure CdcState where
  chunkIndex : ℕ
  chunkQ : List ℤ

/-- `chunk_q[chunk_index++] = v`. -/
def CdcState.push (s : CdcState) (v : ℤ) : Option CdcState :=
  (store s.chunkQ s.chunkIndex v).map (fun q => ⟨s.chunkIndex+1, q⟩)

def cdcStep (buff : List Byte) (s : CdcState) (i : ℕ) : Option CdcState :=
  (windowHash buff i).bind (fun hash =>
    if hash%modulus = target then s.push (endBefore (BitVec.ofNat 32 i)) else some s)

def cdc (buff : List Byte) (buffSize : BitVec 32) (chunkQ : List ℤ) : Option (List ℤ) := do
  let s ← (List.range' winSize (scanLimit buffSize-winSize)).foldlM (cdcStep buff) ⟨0, chunkQ⟩
  let s ← s.push (endBefore buffSize)
  some s.chunkQ

/-- `read`: the whole buffer goes into the stream. -/
def readStage (buff : List Byte) (buffSize : BitVec 32) : Option (List Byte) :=
  (List.range buffSize.toNat).mapM (fun i => buff[i]?)

/-- The locals `buff` and `offset` of `exec`, and the two streams. -/
structure ExecState where
  buff : List Byte
  offset : ℕ
  buffstream : List Byte
  out : List ℤ

/-- `buff[k]=buffstream.read()`. -/
def ExecState.readInto (s : ExecState) (k : ℕ) : Option ExecState :=
  match s.buffstream with
  | [] => none
  | b :: rest => (store s.buff k b).map (fun buff => ⟨buff, s.offset, rest, s.out⟩)

/-- The hash loop of `exec`: it starts at `j=i`, and not at 0. -/
def execHash (buff : List Byte) (i : ℕ) : Option ℕ :=
  (List.range' i (winSize-i)).foldlM
    (fun hash j => (buff[winSize-1-j]?).map (fun b => hash+hashTerm b j)) 0

def execStep (s : ExecState) (i : ℕ) : Option ExecState := do
  let s ← s.readInto ((i+s.offset)%winSize)
  let s := { s with offset := (s.offset+1)%winSize }
  let hash ← execHash s.buff i
  some (if hash%modulus = target then
    { s with out := s.out ++ [endBefore (BitVec.ofNat 32 i)] } else s)

/-- `exec`. The array is filled before it is read, so its first content is left
at zero. -/
def exec (buffstream : List Byte) (buffSize : BitVec 32) : Option (List ℤ) := do
  let s ← (List.range winSize).foldlM ExecState.readInto
    ⟨List.replicate winSize 0, winSize-1, buffstream, []⟩
  let s ← (List.range (winSize-1)).foldlM ExecState.readInto s
  let s ← (List.range' winSize (scanLimit buffSize-winSize)).foldlM execStep s
  some (s.out ++ [endBefore buffSize, -1])

/-- `write`, from `chunk_q[index]` on. -/
def writeStage (chunkQ : List ℤ) (index : ℕ) : List ℤ → Option (List ℤ)
  | [] => none
  | value :: out =>
    if value = -1 then some chunkQ
    else (store chunkQ index value).bind (fun chunkQ => writeStage chunkQ (index+1) out)

def cdc0 (buff : List Byte) (buffSize : BitVec 32) (chunkQ : List ℤ) : Option (List ℤ) := do
  let inStream ← readStage buff buffSize
  let outStream ← exec inStream buffSize
  writeStage chunkQ 0 outStream

/-- `while(q_index[index]!=-1)`, on the cells from `index` on. The body is given
the index, the start and the end of the chunk. -/
def chunkLoop {σ : Type*} (body : σ → ℕ → ℤ → ℤ → Option σ) (index : ℕ)
    (chunkEndPos : ℤ) :
    List ℤ → σ → Option σ
  | [], _ => none
  | e :: q, s =>
    if e = -1 then some s
    else (body s index (chunkEndPos+1) e).bind (chunkLoop body (index+1) e q)

end Sync532
