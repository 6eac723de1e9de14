import SignedBoot.Flash.Blocks
import SignedBoot.Hash.Sha256

/-!
# Checking the resident image

The digest covers the image as the host built it. In memory address 0 holds the reset vector and
the image's first word sits at `entry`, so the first block is brought back into the shape it was
signed in before it is hashed: bytes 4 to 7 move to the front and read as erased in their own place.

Whether the signature is genuine is decided by a check passed in by the caller. A verification that
gets that far reports the question it put, together with the answer.
-/

namespace SignedBoot.Device

open Flash Layout

/-- The first block of an image in the shape it was signed in. -/
def canonical (block : Bytes) : Bytes :=
  (block.drop vectorLen).take vectorLen ++ List.replicate vectorLen erased ++
    block.drop (2 * vectorLen)

/-- The signed shape of a block that holds at least the two words that trade places. -/
def canonical? (block : Bytes) : Option Bytes :=
  if 2 * vectorLen ≤ block.length then some (canonical block) else none

/-- What the signature check is asked. -/
structure Question where
  /-- The digest of the resident image. -/
  digest : Digest
  signature : Vector UInt8 signatureLen
  /-- The configured public key. -/
  key : Vector UInt8 33
  deriving DecidableEq, Repr

/-- A signature check. -/
abbrev Check := Digest → Vector UInt8 signatureLen → Vector UInt8 33 → Bool

/-- What a verification found. -/
inductive Finding where
  /-- The stored size cannot be that of an image. -/
  | noImage (size : Nat)
  /-- The signature check was asked, and answered. -/
  | judged (question : Question) (valid : Bool)
  deriving DecidableEq, Repr

/-- Whether the resident image may be started. -/
def Finding.valid : Finding → Bool
  | noImage _ => false
  | judged _ valid => valid

/-- The question that was put, if verification got that far. -/
def Finding.question? : Finding → Option Question
  | noImage _ => none
  | judged question _ => some question

/-- The status word of a genuine image. The two words differ in many bits, so that no single
flipped bit turns one into the other. -/
def validWord : UInt32 := 0xCAFEBABE

/-- The status word of any other image. -/
def invalidWord : UInt32 := 0xDEADBEEF

variable {n : Nat}

/-- Reads one piece of the image. The piece at address 0 is cut from the whole first block, since a
short image still needs its first word moved. -/
def readPiece (m : Nor n) (addr len : Nat) : Except Fault Bytes :=
  if addr = 0 then do
    let block ← m.read 0 blockSize
    return (canonical block).take len
  else m.read addr len

/-- The pieces of an image of `size` bytes in the order in which they are hashed, up to the first
one that cannot be read. -/
def pieces (m : Nor n) (size : Nat) : List Bytes × Option Fault :=
  go 0 size
where
  /-- Reads the pieces from `addr` on. -/
  go (addr remaining : Nat) : List Bytes × Option Fault :=
    if remaining = 0 then ([], none)
    else
      let len := min remaining blockSize
      match readPiece m addr len with
      | .error e => ([], some e)
      | .ok piece =>
        let rest := go (addr + len) (remaining - len)
        (piece :: rest.1, rest.2)
  termination_by remaining
  decreasing_by
    show remaining - min remaining 64 < remaining
    omega

/-- Hashes an image of `size` bytes piece by piece. The state holds the pieces that have been hashed:
where one cannot be read, those in front of it have been. -/
def digesting (hash : Bytes → Digest) (m : Nor n) (size : Nat) : Attempt (List Bytes) Fault Digest :=
  ⟨fun hashed =>
    match pieces m size with
    | (handed, none) => (.ok (hash (hashed ++ handed).flatten), hashed ++ handed)
    | (handed, some e) => (.error e, hashed ++ handed)⟩

/-- The digest of an image of `size` bytes. -/
def imageDigest (hash : Bytes → Digest) (m : Nor n) (size : Nat) : Except Fault Digest :=
  ((digesting hash m size).run []).1

/-- Whether a stored size can be that of an image. -/
def PossibleSize (size : Nat) : Prop :=
  0 < size ∧ size ≤ signatureField

instance (size : Nat) : Decidable (PossibleSize size) :=
  inferInstanceAs (Decidable (_ ∧ _))

/-- Checks the resident image against its signature record. The state holds the pieces of the image
that have been hashed. -/
def verifying (hash : Bytes → Digest) (check : Check) (key : Vector UInt8 33) (m : Nor n) :
    Attempt (List Bytes) Fault Finding := do
  let size ← .ofExcept m.imageSize
  if PossibleSize size then
    let digest ← digesting hash m size
    let signature ← .ofExcept m.signature
    return .judged ⟨digest, signature, key⟩ (check digest signature key)
  else
    return .noImage size

/-- What a verification of the resident image finds. -/
def verify (hash : Bytes → Digest) (check : Check) (key : Vector UInt8 33) (m : Nor n) :
    Except Fault Finding :=
  ((verifying hash check key m).run []).1

/-- The pieces that a verification hashes before it ends, for whatever reason. Hash, check and key have
no part in which they are. -/
def hashedPieces (m : Nor n) : List Bytes :=
  ((verifying (fun _ => Vector.replicate 32 0) (fun _ _ _ => false) releaseKey m).run []).2

theorem verify_eq (hash : Bytes → Digest) (check : Check) (key : Vector UInt8 33) (m : Nor n) :
    verify hash check key m = do
      let size ← m.imageSize
      if PossibleSize size then
        let digest ← imageDigest hash m size
        let signature ← m.signature
        return .judged ⟨digest, signature, key⟩ (check digest signature key)
      else
        return .noImage size := by
  unfold verify verifying
  rw [Attempt.fst_run_bind]
  refine bind_congr fun size => ?_
  by_cases hsize : PossibleSize size
  · rw [if_pos hsize, if_pos hsize, Attempt.fst_run_bind]
    refine bind_congr fun digest => ?_
    rw [Attempt.fst_run_bind]
    rfl
  · rw [if_neg hsize, if_neg hsize]
    rfl

/-- Of an image that can be one, the pieces are hashed up to the first that cannot be read. -/
theorem hashed_verifying (hash : Bytes → Digest) (check : Check) (key : Vector UInt8 33) {m : Nor n}
    {size : Nat} (hsize : m.imageSize = .ok size) (hpossible : PossibleSize size) :
    ((verifying hash check key m).run []).2 = (pieces m size).1 := by
  simp only [verifying, Attempt.run_bind, Attempt.ofExcept, hsize, if_pos hpossible, digesting]
  rcases pieces m size with ⟨handed, _ | e⟩
  · rcases m.signature with e | signature <;> rfl
  · rfl

/-- What a verification finds and what it hashes belong to one run. -/
theorem run_verifying (hash : Bytes → Digest) (check : Check) (key : Vector UInt8 33) (m : Nor n) :
    (verifying hash check key m).run [] = (verify hash check key m, hashedPieces m) := by
  refine Prod.ext rfl ?_
  unfold hashedPieces
  rcases hsize : m.imageSize with e | size
  · simp only [verifying, Attempt.run_bind, Attempt.ofExcept, hsize]
  · by_cases hpossible : PossibleSize size
    · rw [hashed_verifying _ _ _ hsize hpossible, hashed_verifying _ _ _ hsize hpossible]
    · simp only [verifying, Attempt.run_bind, Attempt.ofExcept, hsize, if_neg hpossible]

end SignedBoot.Device
