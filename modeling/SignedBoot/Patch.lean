import SignedBoot.Host.Failure
import SignedBoot.IntelHex.Writer

/-!
# Adding the reset vector

A loader as linked starts at `loaderBase` and has nothing at address 0. Patching puts a jump to it
there: one instruction of two 16-bit words, whose operand is the target as a word address. The jump
becomes the first record of the file, and the records of the input follow as they are.
-/

namespace SignedBoot.Patch

/-- Upper byte of the first instruction word. -/
abbrev gotoFirst : UInt8 := 0xEF

/-- Upper half of the upper byte of the second instruction word. -/
abbrev gotoSecond : UInt8 := 0xF0

/-- The instruction that jumps to the loader, in memory order. -/
def goto : Bytes :=
  let target := Layout.loaderBase / 2
  [UInt8.ofNat (target % 256), gotoFirst, UInt8.ofNat (target / 256 % 256),
    gotoSecond ||| UInt8.ofNat (target / 65536 % 16)]

/-- The records of a file with the reset vector in front. -/
def addVector (records : List IntelHex.Record) : List IntelHex.Record :=
  .data 0 goto :: records

/-- The records of an Intel HEX text with the reset vector in front. -/
def patch (text : String) : Except IntelHex.ReadError (List IntelHex.Record) :=
  match IntelHex.read text with
  | (records, none) => .ok (addVector records)
  | (_, some e) => .error e

end SignedBoot.Patch
