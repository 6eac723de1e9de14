import SignedBoot.Flash.Nor

/-!
# Block-wise access

The write latch holds one block, so a run of bytes is programmed block by block: `segments` cuts it
wherever its address reaches a block boundary, and each segment is one program command.

`eraseBelow` erases everything below a limit while keeping the reset vector alive. The vector is
first copied to the start of block 1, then block 0 is erased and the vector written back right
away, so at any point of the sequence either address 0 or the copy holds the vector.
-/

namespace SignedBoot.Flash

open Layout

/-- The pieces of a run of bytes at `addr`, each inside one block and with its own address. -/
def segments (addr : Nat) : Bytes → List (Nat × Bytes)
  | [] => []
  | b :: bs =>
    let room := blockSize - addr % blockSize
    (addr, (b :: bs).take room) ::
      segments (addr + ((b :: bs).take room).length) ((b :: bs).drop room)
termination_by bs => bs.length
decreasing_by
  have : 0 < blockSize - addr % blockSize := Nat.sub_pos_of_lt (Nat.mod_lt _ (by decide))
  simp only [List.length_drop, List.length_cons]
  omega

variable {n : Nat}

/-- Programs one segment and moves the address behind it. -/
def commit (segment : Nat × Bytes) : Action n Unit := do
  write segment.1 segment.2
  if addressSpace ≤ segment.1 + segment.2.length then Attempt.fail .addressOverflow

/-- Programs a run of bytes at `addr`, one command per block it touches. -/
def program (addr : Nat) (bs : Bytes) : Action n Unit :=
  (segments addr bs).forM commit

/-- Erases the block with the given index. -/
def eraseBlock (index : Nat) : Action n Unit :=
  if addressSpace ≤ (index + 1) * blockSize then .fail .addressOverflow
  else erase (index * blockSize) ((index + 1) * blockSize)

/-- Erases one block of the area below a limit; block 0 gets the reset vector back at once. -/
def eraseAndKeep (vector : Bytes) (index : Nat) : Action n Unit := do
  eraseBlock index
  if index = 0 then program 0 vector

/-- Erases `count` blocks from the given index on, up to the first that fails. -/
def eraseBlocks (vector : Bytes) (index : Nat) : (count : Nat) → Action n Unit
  | 0 => pure ()
  | count + 1 => do
    eraseAndKeep vector index
    eraseBlocks vector (index + 1) count

/-- Erases every block below `limit`, except that the reset vector survives. -/
def eraseBelow (limit : Nat) : Action n Unit := do
  let vector ← read 0 vectorLen
  eraseBlock (vectorBackup / blockSize)
  program vectorBackup vector
  eraseBlocks vector 0 (limit / blockSize)

namespace Nor

/-- The image size in the signature record. -/
def imageSize (m : Nor n) : Except Fault Nat := do
  let bs ← m.read sizeField sizeLen
  return Bytes.toNat bs

/-- The image signature in the signature record. -/
def signature (m : Nor n) : Except Fault (Vector UInt8 signatureLen) :=
  if h : signatureField + signatureLen ≤ n then
    .ok ((m.cells.extract signatureField (signatureField + signatureLen)).cast (by omega))
  else .error .outOfBounds

end Nor

end SignedBoot.Flash
