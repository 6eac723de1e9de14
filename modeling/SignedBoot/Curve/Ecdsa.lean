import SignedBoot.Curve.Point
import SignedBoot.Hash.Hmac

/-!
# Signatures

A signature is a pair `(r, s)` of numbers below the group order. With `(r, s)` also
`(r, order - s)` passes the signature equation; the form with the smaller `s` is called low. The
bare equation check `Signature.Holds` accepts low forms only, and `accepts` brings a signature into
its low form before asking, so a signer need not produce it.

Signing draws its secret nonce from a generator seeded with the key and the digest, the latter
reduced modulo the group order, so a key signs a digest in one way only, and always in low form.
-/

namespace SignedBoot.Curve

/-- A pair of numbers below the group order. -/
structure Signature where
  /-- The abscissa of the nonce point, reduced. -/
  r : Nat
  /-- The proof that the signer knew the key. -/
  s : Nat
  deriving DecidableEq, Repr

namespace Signature

/-- Reads the compact form: `r` and `s` in 32 bytes each, both below the group order. -/
def ofCompact? (v : Vector UInt8 64) : Option Signature :=
  let r := Bytes.toNat (v.toList.take 32)
  let s := Bytes.toNat (v.toList.drop 32)
  if r < order ∧ s < order then some ⟨r, s⟩ else none

/-- The compact form. -/
def toCompact (sig : Signature) : Vector UInt8 64 :=
  Bytes.field 64 (sig.r * Bytes.span 32 + sig.s)

/-- The low form of a signature. -/
def normalize (sig : Signature) : Signature :=
  if order / 2 < sig.s then { sig with s := order - sig.s } else sig

/-- Whether a low signature satisfies the signature equation for a digest and a public key. -/
def holds (sig : Signature) (digest : Digest) (key : Affine) : Bool :=
  if sig.r = 0 ∨ sig.s = 0 ∨ order / 2 < sig.s then false
  else
    let z := Bytes.ofField digest % order
    let inv := invMod sig.s order
    let sum := (Projective.ofAffine generator).mul (z * inv % order) |>.add
      ((Projective.ofAffine key).mul (sig.r * inv % order))
    match sum.toAffine? with
    | none => false
    | some p => p.x % order == sig.r

end Signature

/-- Whether a compact signature of a digest is genuine under a compressed public key. A key or a
signature that cannot be read makes the answer no. -/
def accepts (digest : Digest) (signature : Vector UInt8 64) (key : Vector UInt8 33) : Bool :=
  match Affine.ofCompressed? key, Signature.ofCompact? signature with
  | some key, some sig => sig.normalize.holds digest key
  | _, _ => false

/-- A secret key: a number from 1 to the group order, the latter excluded. -/
structure SecretKey where
  /-- The number. -/
  scalar : Nat
  /-- Zero is no key. -/
  pos : 0 < scalar
  /-- Keys are numbers modulo the group order. -/
  lt_order : scalar < order

namespace SecretKey

/-- Reads a key from exactly 32 bytes. -/
def ofBytes? (bs : Bytes) : Option SecretKey :=
  let k := Bytes.toNat bs
  if h : bs.length = 32 ∧ 0 < k ∧ k < order then some ⟨k, h.2.1, h.2.2⟩ else none

/-- The compressed public key. The multiple of the generator is infinity for no secret key. -/
def publicKey (key : SecretKey) : Vector UInt8 33 :=
  match ((Projective.ofAffine generator).mul key.scalar).toAffine? with
  | some p => p.compress
  | none => Bytes.field 33 0

/-- The signature that a nonce gives, unless one of its numbers would be zero. -/
def signWith? (key : SecretKey) (digest : Digest) (nonce : Nat) : Option Signature :=
  if nonce = 0 ∨ order ≤ nonce then none
  else
    match ((Projective.ofAffine generator).mul nonce).toAffine? with
    | none => none
    | some p =>
      let r := p.x % order
      let z := Bytes.ofField digest % order
      let s := invMod nonce order * (z + r * key.scalar) % order
      if r = 0 ∨ s = 0 then none else some (Signature.mk r s).normalize

/-- Number of nonces tried before signing gives up. One nonce in about 2¹²⁸ is unusable, so the
first one serves in practice. -/
def nonceLimit : Nat := 16

/-- The low compact signature of a digest. -/
def sign? (key : SecretKey) (digest : Digest) : Option (Vector UInt8 64) :=
  let seed := Bytes.ofNat 32 key.scalar ++ Bytes.ofNat 32 (Bytes.ofField digest % order)
  let generator := Drbg.ofSeed seed
  (List.range nonceLimit).findSome? fun count =>
    (key.signWith? digest (Bytes.toNat (generator.output count))).map Signature.toCompact

end SecretKey

end SignedBoot.Curve
