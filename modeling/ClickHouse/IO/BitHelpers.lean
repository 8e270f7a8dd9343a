import ClickHouse.Lib.Bits
import ClickHouse.Common.ErrorCodes

/-! `BitReader` and `BitWriter` of `IO/BitHelpers.h`: MSB-first bit streams over a byte buffer,
each with a 128-bit staging buffer (`unsigned __int128`, a natural below `2 ^ 128` here) whose
valid bits are its `bits_count` high bits. The reader's counter is the source's `UInt8`, whose
wrap-around is observable on malformed input; the writer's never exceeds 128. -/

namespace ClickHouse.IO.BitHelpers

open ClickHouse.Lib.Bytes ClickHouse.Lib.Bits ClickHouse.Common

/-- `maskLowBits<UInt64>` of `Common/BitHelpers.h`. -/
def maskLowBits (bits : ℕ) : ℕ :=
  if bits = 0 then 0 else if bits < 64 then 2 ^ bits - 1 else 2 ^ 64 - 1

structure BitReader where
  /-- The bytes from `source_current` to `source_end`. -/
  source : List UInt8
  bitsBuffer : ℕ
  bitsCount : UInt8

namespace BitReader

def init (source : List UInt8) : BitReader := ⟨source, 0, 0⟩

/-- Reads at most 8 bytes into the free bits right after the valid ones. The source throws
`ATTEMPT_TO_READ_AFTER_EOF` only when nothing is available and yet something is to be read,
which `min` rules out, so that branch is dead. -/
def fillBitBuffer (rd : BitReader) : BitReader :=
  let available := rd.source.length
  let bytesToRead := min 8 available
  if available = 0 then rd
  else
    -- memcpy into a zeroed UInt64 and byteswap: the first byte read is the most significant
    let tmpBuffer := decodeBE (rd.source.take bytesToRead ++ List.replicate (8 - bytesToRead) 0)
    { source := rd.source.drop bytesToRead
      bitsBuffer := (rd.bitsBuffer ||| tmpBuffer <<< (64 - rd.bitsCount.toNat)) % 2 ^ 128
      bitsCount := rd.bitsCount + UInt8.ofNat bytesToRead * 8 }

def getBitsFromBitBuffer (bitsToRead : ℕ) (rd : BitReader) : ℕ :=
  (rd.bitsBuffer >>> (128 - bitsToRead)) % 2 ^ 64

def skipBufferedBits (bits : ℕ) (rd : BitReader) : BitReader :=
  { rd with
    bitsBuffer := (rd.bitsBuffer <<< bits) % 2 ^ 128
    bitsCount := rd.bitsCount - UInt8.ofNat bits }

def readBits (bitsToRead : ℕ) (rd : BitReader) : ℕ × BitReader :=
  let rd := if rd.bitsCount.toNat < bitsToRead then rd.fillBitBuffer else rd
  (rd.getBitsFromBitBuffer bitsToRead, rd.skipBufferedBits bitsToRead)

def peekByte (rd : BitReader) : ℕ × BitReader :=
  let rd := if rd.bitsCount.toNat < 8 then rd.fillBitBuffer else rd
  (rd.getBitsFromBitBuffer 8 % 256, rd)

def readBit (rd : BitReader) : ℕ × BitReader := rd.readBits 1

def eof (rd : BitReader) : Bool := rd.bitsCount = 0 && rd.source.isEmpty

end BitReader

structure BitWriter where
  /-- The bytes from `dest_begin` to `dest_current`. -/
  dest : List UInt8
  /-- `dest_end - dest_begin`. -/
  destSize : ℕ
  bitsBuffer : ℕ
  bitsCount : ℕ

namespace BitWriter

def init (size : ℕ) : BitWriter := ⟨[], size, 0, 0⟩

/-- Writes the whole bytes at the top of the buffer, at most eight of them. -/
def doFlush (wr : BitWriter) : Except ErrorCode BitWriter :=
  let available := wr.destSize - wr.dest.length
  let toWrite := min 8 (wr.bitsCount / 8)
  if available < toWrite then .error .cannotWriteAfterEndOfBuffer
  else
    -- byteswap of the top 64 bits, then memcpy of `toWrite` bytes: the most significant first
    let tmpBuffer := wr.bitsBuffer >>> 64
    .ok { wr with
      dest := wr.dest ++ (encodeBE 8 tmpBuffer).take toWrite
      bitsBuffer := (wr.bitsBuffer <<< (toWrite * 8)) % 2 ^ 128
      bitsCount := wr.bitsCount - toWrite * 8 }

def writeBits (bitsToWrite : ℕ) (value : UInt64) (wr : BitWriter) : Except ErrorCode BitWriter := do
  let wr ← if 128 - wr.bitsCount < bitsToWrite then wr.doFlush else pure wr
  let capacity := 128 - wr.bitsCount
  let v := ((value.toNat &&& maskLowBits bitsToWrite) <<< (capacity - bitsToWrite)) % 2 ^ 128
  pure { wr with bitsBuffer := wr.bitsBuffer ||| v, bitsCount := wr.bitsCount + bitsToWrite }

/-- The loop `while (bits_count != 0) doFlush();`, on fuel: every round writes a byte. -/
def flushLoop : ℕ → BitWriter → Except ErrorCode BitWriter
  | 0, wr => pure wr
  | n + 1, wr => if wr.bitsCount = 0 then pure wr else do flushLoop n (← wr.doFlush)

/-- `bits_count` is first rounded up to a whole number of bytes (`& ~(8 - 1)`). -/
def flush (wr : BitWriter) : Except ErrorCode BitWriter :=
  let wr := { wr with bitsCount := (wr.bitsCount + 8 - 1) / 8 * 8 }
  flushLoop wr.bitsCount wr

def count (wr : BitWriter) : ℕ := wr.dest.length * 8 + wr.bitsCount

end BitWriter

end ClickHouse.IO.BitHelpers
