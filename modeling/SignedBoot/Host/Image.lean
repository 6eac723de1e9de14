import SignedBoot.Host.Failure
import SignedBoot.Hash.Sha256
import SignedBoot.Wire.Request

/-!
# Images

An application image as linked, from address 0 on. It ends below the signature record, and its
second word is left erased, because the device keeps the first word there.

An image file is loaded record by record: each data record lays its bytes over what was there,
growing the image with erased bytes where it has to. Data under any base other than zero belongs to
configuration memory, which is not programmed, and is passed over.
-/

namespace SignedBoot.Host

open Layout

/-- The second word of an image. -/
def secondWord (bytes : Bytes) : Bytes :=
  (bytes.drop vectorLen).take vectorLen

/-- An image that the device can be given. -/
structure Image where
  /-- The bytes from address 0 on. -/
  bytes : Bytes
  /-- There is at least one. -/
  ne_nil : bytes ≠ []
  /-- They end below the signature record. -/
  length_lt : bytes.length < signatureField
  /-- The second word, as far as there is one, is erased. -/
  second_erased : ∀ b ∈ secondWord bytes, b = erased

instance (bytes : Bytes) : Decidable (∀ b ∈ secondWord bytes, b = erased) :=
  List.decidableBAll (fun b => b = erased) (secondWord bytes)

namespace Image

/-- The image made of the given bytes. -/
def ofBytes (bytes : Bytes) : Except Failure Image :=
  if hn : bytes = [] then .error .imageEmpty
  else if hl : bytes.length < signatureField then
    if he : ∀ b ∈ secondWord bytes, b = erased then .ok ⟨bytes, hn, hl, he⟩
    else .error .imageErasedWordProgrammed
  else .error (.imageTooLarge bytes.length)

/-- Replaces bytes from `start` on by the given ones. -/
def overwrite (mem : Array UInt8) (start : Nat) : Bytes → Array UInt8
  | [] => mem
  | b :: bs => overwrite (mem.setIfInBounds start b) (start + 1) bs

/-- Lays a run of bytes over a memory at `start`, after growing the memory with erased bytes to
hold it. -/
def lay (mem : Array UInt8) (start : Nat) (value : Bytes) : Array UInt8 :=
  overwrite (mem ++ Array.replicate (start + value.length - mem.size) erased) start value

/-- The memory that records describe, from what they have described so far and the base in force.
Only data under base zero counts. -/
def load (base : Nat) (mem : Array UInt8) : List IntelHex.Record → Array UInt8
  | [] => mem
  | .extendedLinear upper :: rest => load (upper.toNat * 0x10000) mem rest
  | .extendedSegment paragraphs :: rest => load (paragraphs.toNat * 16) mem rest
  | .data offset value :: rest =>
    load base (if base = 0 then lay mem offset.toNat value else mem) rest
  | .endOfFile :: _ => mem
  | .startSegment _ _ :: rest => load base mem rest
  | .startLinear _ :: rest => load base mem rest

/-- The image that records describe. -/
def ofRecords (records : List IntelHex.Record) : Except Failure Image :=
  ofBytes (load 0 #[] records).toList

/-- The image in an Intel HEX text. -/
def ofHex (text : String) : Except Failure Image :=
  match IntelHex.read text with
  | (records, none) => ofRecords records
  | (_, some e) => .error (.parseHex e)

/-- The image in the file of the given name, from what reading that file gave. -/
def ofHexFile (path : String) (contents : Except IoFailure Bytes) : Except Failure Image :=
  match contents with
  | .error e => .error (.readHexFile path e)
  | .ok bytes =>
    match Text.ofUtf8? bytes with
    | none => .error (.readHexFile path .notText)
    | some text => ofHex (String.ofList text)

/-- Number of bytes. -/
def size (image : Image) : Nat := image.bytes.length

/-- The digest that is signed. -/
def digest (image : Image) : Digest := sha256 image.bytes

/-- Consecutive pieces with their addresses, the first of which is `addr`. -/
def place (addr : Nat) : List Bytes → List (Nat × Bytes)
  | [] => []
  | piece :: rest => (addr, piece) :: place (addr + Wire.maxChunkLen) rest

/-- The image in pieces of one block each, with their addresses. -/
def chunks (image : Image) : List (Nat × Bytes) :=
  place 0 (Bytes.chunks Wire.maxChunkLen image.bytes)

end Image

end SignedBoot.Host
