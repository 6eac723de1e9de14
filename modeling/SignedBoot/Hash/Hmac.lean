import SignedBoot.Hash.Sha256

/-!
# Keyed hashing

HMAC over SHA-256, and the generator built on it that turns a secret seed into a stream of 32-byte
values. The generator is what makes signatures repeatable: its seed is the signing key and the
digest to be signed, so the secret nonce is a function of the two.
-/

namespace SignedBoot

/-- The keyed hash of a message. -/
def hmac (key message : Bytes) : Bytes :=
  let short := if 64 < key.length then (sha256 key).toList else key
  let block := short ++ List.replicate (64 - short.length) 0
  let inner := sha256 (block.map (· ^^^ 0x36) ++ message)
  (sha256 (block.map (· ^^^ 0x5C) ++ inner.toList)).toList

/-- A deterministic generator of 32-byte values. -/
structure Drbg where
  key : Bytes
  /-- The last value given out. -/
  value : Bytes

namespace Drbg

/-- Mixes a tag and some seed material into the generator. -/
def mix (g : Drbg) (tag : UInt8) (seed : Bytes) : Drbg :=
  let key := hmac g.key (g.value ++ tag :: seed)
  ⟨key, hmac key g.value⟩

/-- The generator for a seed. -/
def ofSeed (seed : Bytes) : Drbg :=
  ((Drbg.mk (List.replicate 32 0) (List.replicate 32 1)).mix 0 seed).mix 1 seed

/-- The next value; it is also kept in the generator. -/
def next (g : Drbg) : Drbg :=
  { g with value := hmac g.key g.value }

/-- The `count`-th value of a generator, counted from zero. Between two values the generator is
stirred without further seed material. -/
def output (g : Drbg) : Nat → Bytes
  | 0 => g.next.value
  | count + 1 => output (g.next.mix 0 []) count

end Drbg

end SignedBoot
