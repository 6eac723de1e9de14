import SignedBoot.Bytes

/-!
# The curve secp256k1

The points `(x, y)` with `y² = x³ + 7` over the field of `fieldPrime` elements, and the point at
infinity. Sums are computed in projective coordinates, where `(X, Y, Z)` stands for
`(X / Z², Y / Z³)` and `Z = 0` for infinity, so that only the last step needs a division.
-/

namespace SignedBoot.Curve

/-- The number of elements of the field. -/
def fieldPrime : Nat :=
  0xFFFFFFFFFFFFFFFFFFFFFFFFFFFFFFFFFFFFFFFFFFFFFFFFFFFFFFFEFFFFFC2F

/-- The number of points, which is a prime as well. -/
def order : Nat :=
  0xFFFFFFFFFFFFFFFFFFFFFFFFFFFFFFFEBAAEDCE6AF48A03BBFD25E8CD0364141

/-- The power of a number modulo another, by repeated squaring. -/
def powMod (base exponent modulus : Nat) : Nat :=
  if exponent = 0 then 1 % modulus
  else
    let half := powMod (base * base % modulus) (exponent / 2) modulus
    if exponent % 2 = 1 then half * base % modulus else half
termination_by exponent

/-- The inverse modulo a prime, by raising to the power `prime - 2`. -/
def invMod (a prime : Nat) : Nat :=
  powMod (a % prime) (prime - 2) prime

/-- A sum in the field. -/
def fadd (a b : Nat) : Nat := (a + b) % fieldPrime

/-- A difference in the field. -/
def fsub (a b : Nat) : Nat := (a + (fieldPrime - b % fieldPrime)) % fieldPrime

/-- A product in the field. -/
def fmul (a b : Nat) : Nat := a * b % fieldPrime

/-- A point in projective coordinates. -/
structure Projective where
  x : Nat
  y : Nat
  /-- The coordinate `Z`, zero for the point at infinity. -/
  z : Nat

/-- A point other than infinity. -/
structure Affine where
  x : Nat
  y : Nat
  deriving DecidableEq, Repr

/-- The point that generates the group. -/
def generator : Affine :=
  ⟨0x79BE667EF9DCBBAC55A06295CE870B07029BFCDB2DCE28D959F2815B16F81798,
    0x483ADA7726A3C4655DA4FBFC0E1108A8FD17B448A68554199C47D08FFB10D4B8⟩

namespace Projective

/-- The neutral element. -/
def infinity : Projective := ⟨1, 1, 0⟩

/-- A finite point. -/
def ofAffine (p : Affine) : Projective := ⟨p.x, p.y, 1⟩

/-- The affine coordinates, which infinity does not have. -/
def toAffine? (p : Projective) : Option Affine :=
  if p.z = 0 then none
  else
    let inv := invMod p.z fieldPrime
    let inv2 := fmul inv inv
    some ⟨fmul p.x inv2, fmul p.y (fmul inv2 inv)⟩

/-- The sum of a point with itself. -/
def double (p : Projective) : Projective :=
  if p.z = 0 then infinity
  else
    let y2 := fmul p.y p.y
    let s := fmul 4 (fmul p.x y2)
    let m := fmul 3 (fmul p.x p.x)
    let x := fsub (fmul m m) (fadd s s)
    ⟨x, fsub (fmul m (fsub s x)) (fmul 8 (fmul y2 y2)), fmul 2 (fmul p.y p.z)⟩

/-- The sum of two points. -/
def add (p q : Projective) : Projective :=
  if p.z = 0 then q
  else if q.z = 0 then p
  else
    let pz2 := fmul p.z p.z
    let qz2 := fmul q.z q.z
    let u1 := fmul p.x qz2
    let u2 := fmul q.x pz2
    let s1 := fmul p.y (fmul qz2 q.z)
    let s2 := fmul q.y (fmul pz2 p.z)
    let h := fsub u2 u1
    let r := fsub s2 s1
    if h = 0 then
      if r = 0 then p.double else infinity
    else
      let h2 := fmul h h
      let h3 := fmul h2 h
      let v := fmul u1 h2
      let x := fsub (fsub (fmul r r) h3) (fadd v v)
      ⟨x, fsub (fmul r (fsub v x)) (fmul s1 h3), fmul h (fmul p.z q.z)⟩

/-- The multiple of a point by the low 256 bits of a number, most significant bit first. -/
def mul (k : Nat) (p : Projective) : Projective :=
  go 256 infinity
where
  /-- Brings the remaining bits into a partial multiple. -/
  go : Nat → Projective → Projective
    | 0, acc => acc
    | bit + 1, acc => go bit (if k.testBit bit then acc.double.add p else acc.double)

end Projective

/-- Whether a pair of coordinates lies on the curve. -/
def Affine.OnCurve (p : Affine) : Prop :=
  fmul p.y p.y = fadd (fmul (fmul p.x p.x) p.x) 7

instance (p : Affine) : Decidable p.OnCurve :=
  inferInstanceAs (Decidable (_ = _))

/-- The compressed form of a point: 2 or 3 for an even or odd `y`, then `x`. -/
def Affine.compress (p : Affine) : Vector UInt8 33 :=
  Bytes.field 33 ((2 + p.y % 2) * Bytes.span 32 + p.x)

/-- The point that a compressed form stands for. The first byte must be 2 or 3, the rest a
coordinate below the field prime that some point of the curve has. -/
def Affine.ofCompressed? (v : Vector UInt8 33) : Option Affine :=
  let n := Bytes.ofField v
  let tag := n / Bytes.span 32
  let x := n % Bytes.span 32
  let root := powMod (fadd (fmul (fmul x x) x) 7) ((fieldPrime + 1) / 4) fieldPrime
  let y := if root % 2 = tag % 2 then root else (fieldPrime - root) % fieldPrime
  if (tag = 2 ∨ tag = 3) ∧ x < fieldPrime ∧ (Affine.mk x y).OnCurve then some ⟨x, y⟩ else none

end SignedBoot.Curve
