import SignedBoot.Bytes

/-!
# Intel HEX records

A file is a list of records, one per line: a colon, then in hexadecimal the payload length, a
16-bit address, the record type, the payload and a checksum that brings the sum of all bytes to
zero. Data records carry the low half of their address; the upper half comes from the last base
record before them.
-/

namespace SignedBoot.IntelHex

/-- One record. -/
inductive Record where
  /-- Bytes at an offset from the current base. -/
  | data (offset : UInt16) (value : Bytes)
  /-- The end of the file. -/
  | endOfFile
  /-- The base of what follows, in paragraphs of 16 bytes. -/
  | extendedSegment (base : UInt16)
  /-- A start address of two words. -/
  | startSegment (segment offset : UInt16)
  /-- The upper half of the addresses of what follows. -/
  | extendedLinear (upper : UInt16)
  /-- A start address. -/
  | startLinear (addr : UInt32)
  deriving DecidableEq, Repr

namespace Record

/-- The type byte of a record. -/
def kind : Record → UInt8
  | data _ _ => 0
  | endOfFile => 1
  | extendedSegment _ => 2
  | startSegment _ _ => 3
  | extendedLinear _ => 4
  | startLinear _ => 5

/-- The address of a record, which only data has. -/
def address : Record → UInt16
  | data offset _ => offset
  | _ => 0

/-- The payload of a record. -/
def payload : Record → Bytes
  | data _ value => value
  | endOfFile => []
  | extendedSegment base => Bytes.ofNat 2 base.toNat
  | startSegment segment offset => Bytes.ofNat 2 segment.toNat ++ Bytes.ofNat 2 offset.toNat
  | extendedLinear upper => Bytes.ofNat 2 upper.toNat
  | startLinear addr => Bytes.ofNat 4 addr.toNat

end Record

/-- The byte that brings the sum of some bytes to zero. -/
def checksum (bs : Bytes) : UInt8 :=
  0 - bs.foldl (· + ·) 0

end SignedBoot.IntelHex
