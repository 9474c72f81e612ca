import Sync532.LzwModel
import Sync532.WhileFuel

/-! Decoder.cpp: `Read_code`, `Decompress` and the main loop. An index outside
a vector is undefined in the source and gives `none` here; so does a bound on
the loops that is too small. -/
namespace Sync532

/-- `std::ifstream`: the unread bytes, and whether a read went past them. -/
structure IStream where
  rest : List Byte
  eof : Bool

/-- `Input.get()` as an `unsigned char`: `EOF` is -1. -/
def IStream.get (s : IStream) : Byte × IStream :=
  match s.rest with
  | [] => (0xFF, ⟨[], true⟩)
  | b :: rest => (b, ⟨rest, s.eof⟩)

/-- The value of four bytes read into a `uint32_t` on a little-endian machine. -/
def readLE32 (b₀ b₁ b₂ b₃ : Byte) : BitVec 32 :=
  BitVec.ofNat 32 (b₀.toNat+256*b₁.toNat+65536*b₂.toNat+16777216*b₃.toNat)

/-- `Input.read((char *) &Header, sizeof(int32_t))`. After a short read the
header is not used any more. -/
def IStream.readHeader (s : IStream) : BitVec 32 × IStream :=
  match s.rest with
  | b₀ :: b₁ :: b₂ :: b₃ :: rest => (readLE32 b₀ b₁ b₂ b₃, ⟨rest, s.eof⟩)
  | _ => (0, ⟨[], true⟩)

/-- The statics `Input` and `Input_position`, and `Byte` of `Read_code`. -/
structure BitReader where
  input : IStream
  inputPosition : ℕ
  byte : Byte

def BitReader.fetch (r : BitReader) : BitReader :=
  if r.inputPosition%8 = 0 then ⟨r.input.get.2, r.inputPosition, r.input.get.1⟩ else r

/-- One iteration of `Read_code`. `Input_position` is a `size_t`. -/
def readBit (s : ℕ × BitReader) : ℕ × BitReader :=
  let r := s.2.fetch
  ((s.1 <<< 1) ||| ((r.byte.toNat >>> (7-r.inputPosition%8)) &&& 1),
    ⟨r.input, (r.inputPosition+1)%2^64, r.byte⟩)

def codeLength : ℕ := 13

def readCode (r : BitReader) : ℕ × BitReader := readBit^[codeLength] (0, r)

structure DecompressState where
  reader : BitReader
  codeTable : List Str
  old : ℕ
  symbol : Str
  output : Str

def initialCodeTable : List Str := (List.range 256).map (fun i => [BitVec.ofNat 8 i])

/-- `Symbols`, from the code just read. -/
def DecompressState.symbols (s : DecompressState) (new : ℕ) : Option Str :=
  -- any code behind the table is taken for the next free one
  if s.codeTable.length ≤ new then (s.codeTable[s.old]?).map (· ++ s.symbol)
  else s.codeTable[new]?

/-- The test `Input_position / 8 < Size - 1`, where `Size` is a `size_t`. -/
def decompressMore (size : ℕ) (s : DecompressState) : Bool :=
  s.reader.inputPosition/8 < (size+(2^64-1))%2^64

def decompressBody (s : DecompressState) : Option DecompressState := do
  let new := (readCode s.reader).1
  let symbols ← s.symbols new
  let first ← charAt symbols 0
  let prev ← s.codeTable[s.old]?
  some ⟨(readCode s.reader).2, s.codeTable ++ [prev ++ [first]], new, [first],
    s.output ++ symbols⟩

/-- The state in front of the loop: one code has been read. -/
def decompressStart (r : BitReader) : DecompressState :=
  let first := readCode { r with inputPosition := 0 }
  ⟨first.2, initialCodeTable, first.1, [BitVec.ofNat 8 first.1], [BitVec.ofNat 8 first.1]⟩

def decompress (fuel size : ℕ) (r : BitReader) : Option DecompressState :=
  whileFuel (decompressMore size) decompressBody fuel (decompressStart r)

/-- The locals of `main`, with what has been written to the output file. -/
structure DecoderState where
  reader : BitReader
  chunks : List Str
  output : List Byte
  stopped : Bool

/-- A record whose header has been read. -/
def DecoderState.record (s : DecoderState) (fuel : ℕ) (header : BitVec 32) (r : BitReader) :
    Option DecoderState :=
  if header &&& 1 = 0 then
    (decompress fuel (header >>> 1).toNat r).map (fun d =>
      ⟨d.reader, s.chunks ++ [d.output], s.output ++ d.output, false⟩)
  else
    match s.chunks[(header >>> 1).toNat]? with
    | some chunk => some ⟨r, s.chunks, s.output ++ chunk, false⟩
    -- a location that is out of bounds is reported, and the loop goes on
    | none => some ⟨r, s.chunks, s.output, false⟩

/-- The body of `while (true)`; leaving the loop sets `stopped`. -/
def decoderBody (fuel : ℕ) (s : DecoderState) : Option DecoderState :=
  let h := s.reader.input.readHeader
  let r := { s.reader with input := h.2 }
  if h.2.eof then some ⟨r, s.chunks, s.output, true⟩ else s.record fuel h.1 r

def decoderStart (file : List Byte) : DecoderState :=
  ⟨⟨⟨file, false⟩, 0, 0⟩, [], [], false⟩

/-- What `main` writes to the output file when it is given `file`. -/
def decoderMain (fuel : ℕ) (file : List Byte) : Option (List Byte) :=
  (whileFuel (fun s => !s.stopped) (decoderBody fuel) fuel (decoderStart file)).map
    DecoderState.output

end Sync532
