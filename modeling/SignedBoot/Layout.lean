import SignedBoot.Bytes

/-!
# Memory layout and timing

Program memory is one bank. From the bottom up it holds the reset vector, the application image,
the signature record (64 signature bytes, then the image size in three bytes) and, from
`loaderBase` on, the loader itself. Everything below the loader is erased before an update.

The reset vector always jumps into the loader, so the image's own first word lives at `entry`
instead, where the image's second word would have been.
-/

namespace SignedBoot.Layout

/-- Total size of program memory in bytes. -/
abbrev flashSize : Nat := 0x8000

/-- The smallest unit that can be erased, which is also the size of the write latch. -/
abbrev blockSize : Nat := 64

/-- What an erased byte reads as. -/
abbrev erased : UInt8 := 0xFF

/-- Start of the loader's own code; an update owns everything below. -/
abbrev loaderBase : Nat := 0x6000

/-- Width of the big-endian image size. -/
abbrev sizeLen : Nat := 3

/-- Where the image size is stored, right below the loader. -/
abbrev sizeField : Nat := loaderBase - sizeLen

/-- Width of a compact signature. -/
abbrev signatureLen : Nat := 64

/-- Where the image signature is stored, right below the size. An image ends below this address. -/
abbrev signatureField : Nat := sizeField - signatureLen

/-- Number of bytes at address 0 that jump into the loader. -/
abbrev vectorLen : Nat := 4

/-- Where the reset vector is kept while block 0 is being erased. -/
abbrev vectorBackup : Nat := blockSize

/-- Where the application's first word lives once programmed, and where it is started. -/
abbrev entry : Nat := 4

/-- How long one handshake poll waits for a byte, in microseconds. -/
abbrev pollInterval : Nat := 1000

/-- Number of polls before the handshake window closes. -/
abbrev pollLimit : Nat := 1200

/-- Size of the receive buffer for one frame with its escapes removed. -/
abbrev frameCapacity : Nat := 72

/-- Speed of the serial line in bits per second. -/
abbrev lineSpeed : Nat := 115200

/-- Addresses inside the device are computed in 32 bits; a sum that needs more is a fault. -/
abbrev addressSpace : Nat := 0x100000000

/-- The compressed public key of the release signer. -/
def releaseKey : Vector UInt8 33 :=
  #v[0x02, 0xBD, 0xBD, 0x77, 0x2F, 0xDE, 0x40, 0x99, 0xA7, 0xB1, 0xE8, 0x14, 0xD3, 0xF5, 0xB7,
    0xFE, 0x13, 0xD4, 0x2B, 0x82, 0x65, 0x22, 0x22, 0x8F, 0x42, 0xC4, 0x8D, 0xC1, 0xD3, 0xAC,
    0x78, 0x35, 0x81]

theorem frameCapacity_pos : 0 < frameCapacity := by decide

end SignedBoot.Layout
