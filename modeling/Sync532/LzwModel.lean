import Sync532.ByteBuffer
import Sync532.UnorderedMap

/-! `LZW` of lzw.cpp: the dictionary, the eight packing phases and the driver.
A read outside the string and a store outside the output buffer are undefined
in the source, so they give `none` here. -/
namespace Sync532

abbrev Str := List Byte

/-- `s1[i]`, defined up to and including the terminating zero. -/
def charAt (s1 : Str) (i : ℕ) : Option Byte :=
  if i < s1.length then s1[i]? else if i = s1.length then some 0 else none

/-- The locals `table`, `p` and `code`. -/
structure LzwDict where
  table : UMap Str ℕ
  p : Str
  code : ℕ

def initialTable : UMap Str ℕ :=
  (List.range 256).foldl (fun table i => table.set [BitVec.ofNat 8 i] i) UMap.empty

/-- One test `table.find(p + c)`. When the string is absent the code of `p` is
emitted and `p + c` is entered under the next code. -/
def LzwDict.lookup (d : LzwDict) (c : Str) : LzwDict × Option ℕ :=
  if (d.table.find (d.p ++ c)).isSome then ({ d with p := d.p ++ c }, none)
  else
    -- `table[p]` is `operator[]`, which would enter a 0 for a missing `p`
    let (table, v) := d.table.index d.p 0
    (⟨table.set (d.p ++ c) d.code, c, d.code+1⟩, some v)

/-- `output_code` and `*outlen`. -/
structure LzwOutput where
  outputCode : List Byte
  outlen : ℕ

/-- `output_code[*outlen] |= v`. -/
def LzwOutput.orHere (o : LzwOutput) (v : ℕ) : Option LzwOutput :=
  (orAt o.outputCode o.outlen (BitVec.ofNat 8 v)).map (fun buf => ⟨buf, o.outlen⟩)

/-- `output_code[(*outlen)++] |= v`. -/
def LzwOutput.orNext (o : LzwOutput) (v : ℕ) : Option LzwOutput :=
  (orAt o.outputCode o.outlen (BitVec.ofNat 8 v)).map (fun buf => ⟨buf, o.outlen+1⟩)

/-- The phases 0 to 6, which the loop and the tail write in the same way. -/
def packShared (appeartimes v : ℕ) (o : LzwOutput) : Option LzwOutput :=
  match appeartimes with
  | 0 => do
    let o ← o.orNext ((v &&& 0b1111111100000) >>> 5)
    o.orHere ((v &&& 0b0000000011111) <<< 3)
  | 1 => do
    let o ← o.orNext ((v &&& 0b1110000000000) >>> 10)
    let o ← o.orNext ((v &&& 0b0001111111100) >>> 2)
    o.orHere ((v &&& 0b0000000000011) <<< 6)
  | 2 => do
    let o ← o.orNext ((v &&& 0b1111110000000) >>> 7)
    o.orHere ((v &&& 0b0000001111111) <<< 1)
  | 3 => do
    let o ← o.orNext ((v &&& 0b1000000000000) >>> 12)
    let o ← o.orNext ((v &&& 0b0111111110000) >>> 4)
    o.orHere ((v &&& 0b0000000001111) <<< 4)
  | 4 => do
    let o ← o.orNext ((v &&& 0b1111000000000) >>> 9)
    let o ← o.orNext ((v &&& 0b0000111111110) >>> 1)
    o.orHere ((v &&& 0b0000000000001) <<< 7)
  | 5 => do
    let o ← o.orNext ((v &&& 0b1111111000000) >>> 6)
    o.orHere ((v &&& 0b0000000111111) <<< 2)
  | 6 => do
    let o ← o.orNext ((v &&& 0b1100000000000) >>> 11)
    let o ← o.orNext ((v &&& 0b0011111111000) >>> 3)
    o.orHere ((v &&& 0b0000000000111) <<< 5)
  | _ => some o

/-- The packing branches inside the loop: phase 7 steps past its last byte. -/
def packLoop (appeartimes v : ℕ) (o : LzwOutput) : Option LzwOutput :=
  if appeartimes = 7 then do
    let o ← o.orNext ((v &&& 0b1111100000000) >>> 8)
    o.orNext (v &&& 0b0000011111111)
  else packShared appeartimes v o

/-- The packing branches behind the loop: phase 7 stays on its last byte. -/
def packFinal (appeartimes v : ℕ) (o : LzwOutput) : Option LzwOutput :=
  if appeartimes = 7 then do
    let o ← o.orNext ((v &&& 0b1111100000000) >>> 8)
    o.orHere (v &&& 0b0000011111111)
  else packShared appeartimes v o

/-- `if((*outlen)%13!=0) output_code[++(*outlen)]=0`. -/
def padOutput (o : LzwOutput) : Option LzwOutput :=
  if o.outlen%13 ≠ 0 then
    (store o.outputCode (o.outlen+1) 0).map (fun buf => ⟨buf, o.outlen+1⟩)
  else some o

/-- The clearing loop over `output_code[0 .. n)`. -/
def clearOutput (n : ℕ) (outputCode : List Byte) : Option (List Byte) :=
  (List.range n).foldlM (fun buf i => store buf i 0) outputCode

structure LzwState where
  dict : LzwDict
  appeartimes : ℕ
  out : LzwOutput

/-- `if (i != chunk_end) c += s1[i + 1]`, where `c` is empty before. -/
def nextChar (chunkEnd : ℕ) (s1 : Str) (i : ℕ) : Option Str :=
  if i ≠ chunkEnd then (charAt s1 (i+1)).map (fun ch => [ch]) else some []

/-- The body of the loop over `i`. -/
def lzwStep (chunkEnd : ℕ) (s1 : Str) (s : LzwState) (i : ℕ) : Option LzwState := do
  let c ← nextChar chunkEnd s1 i
  match s.dict.lookup c with
  | (dict, none) => some { s with dict := dict }
  | (dict, some v) => do
    let out ← packLoop s.appeartimes v s.out
    some ⟨dict, (s.appeartimes+1)%8, out⟩

/-- The size of the cleared block is an `int` product: chunks have less than 2^30 bytes. -/
def lzw (chunkStart chunkEnd : ℕ) (s1 : Str) (outputCode : List Byte) : Option LzwOutput := do
  let outputCode ← clearOutput ((chunkEnd-chunkStart+1)*2) outputCode
  let first ← charAt s1 chunkStart
  let s ← (List.range' chunkStart (chunkEnd+1-chunkStart)).foldlM (lzwStep chunkEnd s1)
    ⟨⟨initialTable, [first], 256⟩, 0, ⟨outputCode, 0⟩⟩
  let out ← packFinal s.appeartimes (s.dict.table.index s.dict.p 0).2 s.out
  padOutput out

end Sync532
