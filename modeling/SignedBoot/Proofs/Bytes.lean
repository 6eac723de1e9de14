import Mathlib.Tactic.Common
import Mathlib.Tactic.Ring
import SignedBoot.Bytes

/-!
# Fields and digits read back

A big-endian field of some width holds a number modulo what the width can tell apart, and a pair of
upper-case hexadecimal digits holds one byte.
-/

namespace SignedBoot.Bytes

/-! ## Fields -/

theorem span_eq (width : Nat) : span width = 256 ^ width := rfl

theorem foldl_ofNat (width m acc : Nat) :
    (ofNat width m).foldl (fun acc b => acc * 256 + b.toNat) acc =
      acc * 256 ^ width + m % 256 ^ width := by
  induction width generalizing acc with
  | zero => simp [ofNat, Nat.mod_one]
  | succ width ih =>
    have hmod : m % 256 ^ (width + 1) =
        256 ^ width * (m / 256 ^ width % 256) + m % 256 ^ width := by
      rw [Nat.pow_succ, Nat.mod_mul]
      ring
    rw [ofNat, List.foldl_cons, ih, UInt8.toNat_ofNat', span_eq, hmod]
    ring

theorem toNat_ofNat (width m : Nat) : toNat (ofNat width m) = m % 256 ^ width := by
  rw [toNat, foldl_ofNat, Nat.zero_mul, Nat.zero_add]

theorem toField?_toList {width : Nat} (v : Vector UInt8 width) : toField? width v.toList = some v := by
  have hlen : v.toList.length = width := v.length_toList
  rw [toField?, dif_pos hlen]
  exact congrArg some (Vector.toArray_inj.1 v.toArray.toArray_toList)

theorem toList_field (width m : Nat) : (field width m).toList = ofNat width m := rfl

/-! ## Digits -/

theorem hexValue?_hexDigitUpper {n : Nat} (h : n < 16) : hexValue? (hexDigitUpper n) = some n := by
  have hall : ∀ n < 16, hexValue? (hexDigitUpper n) = some n := by decide
  exact hall n h

theorem hexValue?_upperPair (b : UInt8) :
    hexValue? (hexDigitUpper (b.toNat / 16)) = some (b.toNat / 16) ∧
      hexValue? (hexDigitUpper (b.toNat % 16)) = some (b.toNat % 16) := by
  have hlt := b.toNat_lt
  exact ⟨hexValue?_hexDigitUpper (by omega), hexValue?_hexDigitUpper (by omega)⟩

/-- All characters of a hexadecimal text have a value. -/
theorem isSome_hexValue?_of_mem {bs : Bytes} {c : Char} (h : c ∈ bs.flatMap upperPair) :
    (hexValue? c).isSome := by
  obtain ⟨b, -, hc⟩ := List.mem_flatMap.1 h
  obtain ⟨hhigh, hlow⟩ := hexValue?_upperPair b
  simp only [upperPair, List.mem_cons, List.not_mem_nil, or_false] at hc
  obtain rfl | rfl := hc
  · rw [hhigh, Option.isSome_some]
  · rw [hlow, Option.isSome_some]

theorem length_flatMap_upperPair (bs : Bytes) : (bs.flatMap upperPair).length = 2 * bs.length := by
  induction bs with
  | nil => rfl
  | cons b bs ih =>
    rw [List.flatMap_cons, List.length_append, ih, List.length_cons]
    show 2 + 2 * bs.length = 2 * (bs.length + 1)
    omega

/-- Bytes are read back from their digits. -/
theorem ofHex?_flatMap_upperPair (bs : Bytes) : ofHex? (bs.flatMap upperPair) = some bs := by
  induction bs with
  | nil => rfl
  | cons b bs ih =>
    obtain ⟨hhigh, hlow⟩ := hexValue?_upperPair b
    have hpair : (b :: bs).flatMap upperPair =
        hexDigitUpper (b.toNat / 16) :: hexDigitUpper (b.toNat % 16) :: bs.flatMap upperPair := rfl
    rw [hpair, ofHex?, hhigh, hlow, ih]
    show some (UInt8.ofNat (b.toNat / 16 * 16 + b.toNat % 16) :: bs) = some (b :: bs)
    rw [Nat.div_add_mod', UInt8.ofNat_toNat]

end SignedBoot.Bytes
