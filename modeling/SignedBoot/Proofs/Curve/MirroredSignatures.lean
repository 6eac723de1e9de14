import Mathlib.Data.Option.Basic
import Mathlib.Tactic.Common
import SignedBoot.Curve.Ecdsa
import SignedBoot.Device.Verification
import SignedBoot.Proofs.Bytes

/-!
# Mirrored signatures

With `(r, s)` also `(r, order - s)` satisfies the signature equation, and the group order is odd, so
of the two just one has the low `s`. A check that brings what it reads into its low form therefore puts
the same question about both, and gives the same answer.

That takes nothing from the arithmetic of the curve. A check is made of the parts of a signature
library, of which only the reading of signatures and the low form matter here; keys and the equation
may be whatever they are. The check that decides whether an image is started is one of these.
-/

namespace SignedBoot.Curve

open Device

/-! ## Numbers and their mirror image -/

/-- The compact form of a signature from the bytes of `r` and the number `s`. -/
def compactForm (r : Vector UInt8 32) (s : Nat) : Vector UInt8 64 :=
  r ++ Bytes.field 32 s

namespace Signature

theorem order_mod_two : order % 2 = 1 := by decide

theorem normalize_of_le {sig : Signature} (h : sig.s ≤ order / 2) : sig.normalize = sig :=
  if_neg (Nat.not_lt.2 h)

theorem normalize_of_lt {sig : Signature} (h : order / 2 < sig.s) :
    sig.normalize = { sig with s := order - sig.s } :=
  if_pos h

/-- The low form has the smaller of the two numbers. -/
theorem normalize_eq (r : Nat) {s : Nat} (hlt : s < order) :
    normalize ⟨r, s⟩ = ⟨r, min s (order - s)⟩ := by
  -- the order is odd, so no number is its own mirror image
  have hodd := order_mod_two
  by_cases hlow : s ≤ order / 2
  · rw [normalize_of_le hlow, Nat.min_eq_left (by omega)]
  · rw [normalize_of_lt (Nat.lt_of_not_le hlow), Nat.min_eq_right (by omega)]

/-- The mirror image has the same low form. -/
theorem normalize_mirror (r : Nat) {s : Nat} (hpos : 0 < s) (hlt : s < order) :
    normalize ⟨r, order - s⟩ = normalize ⟨r, s⟩ := by
  rw [normalize_eq r hlt, normalize_eq r (Nat.sub_lt (Nat.lt_trans hpos hlt) hpos),
    Nat.sub_sub_self (Nat.le_of_lt hlt), Nat.min_comm]

theorem ofCompact?_compactForm (r : Vector UInt8 32) {s : Nat} (hlt : s < order) :
    ofCompact? (compactForm r s) =
      if Bytes.toNat r.toList < order then some ⟨Bytes.toNat r.toList, s⟩ else none := by
  have hlen : r.toList.length = 32 := r.length_toList
  have hlist : (compactForm r s).toList = r.toList ++ Bytes.ofNat 32 s := Vector.toList_append
  have hspan : order < 256 ^ 32 := by decide
  have hs : Bytes.toNat ((compactForm r s).toList.drop 32) = s := by
    rw [hlist, List.drop_left' hlen, Bytes.toNat_ofNat, Nat.mod_eq_of_lt (Nat.lt_trans hlt hspan)]
  have hr : Bytes.toNat ((compactForm r s).toList.take 32) = Bytes.toNat r.toList := by
    rw [hlist, List.take_left' hlen]
  simp only [ofCompact?, hs, hr, hlt, and_true]

end Signature

/-! ## Checks -/

/-- The parts of a signature library that a check is made of. -/
structure Library (Key Sig : Type) where
  /-- Whether the memory set aside for the library is large enough. -/
  ready : Bool
  readKey? : Vector UInt8 33 → Option Key
  readSignature? : Vector UInt8 64 → Option Sig
  normalize : Sig → Sig
  /-- Whether a signature satisfies the signature equation. -/
  holds : Sig → Digest → Key → Bool

/-- What is counted for key and signature having been read. -/
def readingSteps : Nat := 13

/-- What is counted for the signature equation being satisfied. -/
def equationSteps : Nat := 7

namespace Library

variable {Key Sig : Type}

/-- The status word of a check. It counts the steps that it went through, and says that a signature is
genuine only if the count is that of all of them. -/
def judge (lib : Library Key Sig) (digest : Digest) (signature : Vector UInt8 64)
    (key : Vector UInt8 33) : UInt32 :=
  if lib.ready then
    match lib.readKey? key, lib.readSignature? signature with
    | some key, some sig =>
      let steps := readingSteps
      if lib.holds (lib.normalize sig) digest key then
        let steps := steps + equationSteps
        if steps = readingSteps + equationSteps then validWord else invalidWord
      else invalidWord
    | _, _ => invalidWord
  else invalidWord

/-- Whether key and signature can be read and the low form of the signature satisfies the equation. -/
def Passes (lib : Library Key Sig) (digest : Digest) (signature : Vector UInt8 64)
    (key : Vector UInt8 33) : Prop :=
  lib.ready = true ∧ ∃ point sig, lib.readKey? key = some point ∧
    lib.readSignature? signature = some sig ∧ lib.holds (lib.normalize sig) digest point = true

/-- What the documentation of a library promises on signatures: they are their two numbers, they are
read from 32 bytes for either, both below the group order, and the low form has `order - s` in place of
an `s` above half the order. -/
structure Documented (lib : Library Key Sig) (numbers : Sig → Signature) : Prop where
  injective : Function.Injective numbers
  read : ∀ v, (lib.readSignature? v).map numbers = Signature.ofCompact? v
  normalize : ∀ sig, (numbers sig).s < order → numbers (lib.normalize sig) = (numbers sig).normalize

theorem judge_cases (lib : Library Key Sig) (digest : Digest) (signature : Vector UInt8 64)
    (key : Vector UInt8 33) :
    (lib.judge digest signature key = validWord ∧ lib.Passes digest signature key) ∨
      (lib.judge digest signature key = invalidWord ∧ ¬ lib.Passes digest signature key) := by
  unfold judge
  split
  · next hready =>
    split
    · next point sig hkey hsig =>
      split
      · next hholds => exact .inl ⟨if_pos rfl, hready, point, sig, hkey, hsig, hholds⟩
      · next hholds =>
        refine .inr ⟨rfl, ?_⟩
        rintro ⟨-, point', sig', hkey', hsig', hholds'⟩
        cases hkey.symm.trans hkey'
        cases hsig.symm.trans hsig'
        exact hholds hholds'
    · next hunread =>
      refine .inr ⟨rfl, ?_⟩
      rintro ⟨-, point, sig, hkey, hsig, -⟩
      exact hunread point sig hkey hsig
  · next hready => exact .inr ⟨rfl, fun h => hready h.1⟩

theorem judge_eq_validWord_iff (lib : Library Key Sig) (digest : Digest)
    (signature : Vector UInt8 64) (key : Vector UInt8 33) :
    lib.judge digest signature key = validWord ↔ lib.Passes digest signature key := by
  obtain ⟨hword, hpasses⟩ | ⟨hword, hpasses⟩ := lib.judge_cases digest signature key
  · exact iff_of_true hword hpasses
  · rw [hword]
    exact iff_of_false (by decide) hpasses

/-- The word says no more than whether the check was passed. -/
theorem judge_congr {lib : Library Key Sig} {digest : Digest} {signature signature' : Vector UInt8 64}
    {key : Vector UInt8 33}
    (h : lib.Passes digest signature key ↔ lib.Passes digest signature' key) :
    lib.judge digest signature key = lib.judge digest signature' key := by
  obtain ⟨hword, hpasses⟩ | ⟨hword, hpasses⟩ := lib.judge_cases digest signature key
  · rw [hword, (lib.judge_eq_validWord_iff digest signature' key).2 (h.1 hpasses)]
  · obtain ⟨-, hpasses'⟩ | ⟨hword', -⟩ := lib.judge_cases digest signature' key
    · exact absurd (h.2 hpasses') hpasses
    · rw [hword, hword']

/-- A documented library puts its question about the low form. -/
theorem Documented.passes_iff {lib : Library Key Sig} {numbers : Sig → Signature}
    (h : lib.Documented numbers) (digest : Digest) (key : Vector UInt8 33) (r : Vector UInt8 32)
    {s : Nat} (hlt : s < order) :
    lib.Passes digest (compactForm r s) key ↔
      lib.ready = true ∧ Bytes.toNat r.toList < order ∧ ∃ point sig, lib.readKey? key = some point ∧
        numbers sig = Signature.normalize ⟨Bytes.toNat r.toList, s⟩ ∧
        lib.holds sig digest point = true := by
  have hread := h.read (compactForm r s)
  rw [Signature.ofCompact?_compactForm r hlt] at hread
  rw [Passes, and_congr_right_iff]
  intro _
  by_cases hr : Bytes.toNat r.toList < order
  · rw [if_pos hr] at hread
    obtain ⟨sig, hsig, hnumbers⟩ := Option.map_eq_some_iff.1 hread
    have hlow : numbers (lib.normalize sig) = Signature.normalize ⟨Bytes.toNat r.toList, s⟩ := by
      rw [h.normalize sig (by rw [hnumbers]; exact hlt), hnumbers]
    constructor
    · rintro ⟨point, sig', hkey, hsig', hholds⟩
      cases hsig.symm.trans hsig'
      exact ⟨hr, point, lib.normalize sig, hkey, hlow, hholds⟩
    · rintro ⟨-, point, low, hkey, hnumbers', hholds⟩
      obtain rfl := h.injective (hlow.trans hnumbers'.symm)
      exact ⟨point, sig, hkey, hsig, hholds⟩
  · rw [if_neg hr, Option.map_eq_none_iff] at hread
    constructor
    · rintro ⟨point, sig, -, hsig, -⟩
      cases hread.symm.trans hsig
    · rintro ⟨hr', -⟩
      exact absurd hr' hr

theorem Documented.passes_mirror_iff {lib : Library Key Sig} {numbers : Sig → Signature}
    (h : lib.Documented numbers) (digest : Digest) (key : Vector UInt8 33) (r : Vector UInt8 32)
    {s : Nat} (hpos : 0 < s) (hlt : s < order) :
    lib.Passes digest (compactForm r s) key ↔
      lib.Passes digest (compactForm r (order - s)) key := by
  rw [h.passes_iff digest key r hlt,
    h.passes_iff digest key r (Nat.sub_lt (Nat.lt_trans hpos hlt) hpos),
    Signature.normalize_mirror _ hpos hlt]

end Library

/-! ## The check of the loader -/

/-- The curve's own key reader, signatures and equation. -/
def secp256k1 : Library Affine Signature where
  ready := true
  readKey? := Affine.ofCompressed?
  readSignature? := Signature.ofCompact?
  normalize := Signature.normalize
  holds := Signature.holds

theorem documented_secp256k1 : secp256k1.Documented id where
  injective := Function.injective_id
  read _ := Option.map_id'
  normalize _ _ := rfl

theorem accepts_iff_passes (digest : Digest) (signature : Vector UInt8 64) (key : Vector UInt8 33) :
    accepts digest signature key = true ↔ secp256k1.Passes digest signature key := by
  unfold accepts Library.Passes
  split
  · next point sig hkey hsig => simp [secp256k1, hkey, hsig]
  · next hunread =>
    refine iff_of_false Bool.false_ne_true ?_
    rintro ⟨-, point, sig, hkey, hsig, -⟩
    exact hunread point sig hkey hsig

/-- A signature and its mirror image are judged alike, whatever the digest, the key and `r`. So they
are by every check made of a documented library, which finds a signature genuine exactly if its low
form satisfies the equation. -/
theorem mirror_judged_alike (digest : Digest) (key : Vector UInt8 33) (r : Vector UInt8 32) {s : Nat}
    (hpos : 0 < s) (hlt : s < order) :
    accepts digest (compactForm r s) key = accepts digest (compactForm r (order - s)) key ∧
      ∀ (Key Sig : Type) (lib : Library Key Sig) (numbers : Sig → Signature),
        lib.Documented numbers →
          lib.judge digest (compactForm r s) key =
              lib.judge digest (compactForm r (order - s)) key ∧
            (lib.judge digest (compactForm r s) key = validWord ↔
              lib.ready = true ∧ Bytes.toNat r.toList < order ∧
                ∃ point sig, lib.readKey? key = some point ∧
                  numbers sig = ⟨Bytes.toNat r.toList, min s (order - s)⟩ ∧
                  lib.holds sig digest point = true) := by
  constructor
  · rw [Bool.eq_iff_iff, accepts_iff_passes, accepts_iff_passes]
    exact documented_secp256k1.passes_mirror_iff digest key r hpos hlt
  · intro Key Sig lib numbers hlib
    refine ⟨Library.judge_congr (hlib.passes_mirror_iff digest key r hpos hlt), ?_⟩
    rw [lib.judge_eq_validWord_iff, ← Signature.normalize_eq _ hlt]
    exact hlib.passes_iff digest key r hlt

/-- The signature of digest 1 by the secret key 1 with the nonce 1, where `r` is the abscissa of the
generator and `s` is the number behind it. -/
theorem mirror_of_low_is_genuine :
    0 < generator.x + 1 ∧ generator.x + 1 < order ∧
      (Signature.mk generator.x (order - (generator.x + 1))).holds (Bytes.field 32 1) generator = false ∧
      accepts (Bytes.field 32 1) (compactForm (Bytes.field 32 generator.x) (order - (generator.x + 1)))
        generator.compress = true ∧
      secp256k1.judge (Bytes.field 32 1)
        (compactForm (Bytes.field 32 generator.x) (order - (generator.x + 1))) generator.compress =
        validWord := by
  have hpos : 0 < generator.x + 1 := Nat.succ_pos _
  have hlt : generator.x + 1 < order := by decide
  have hlow : accepts (Bytes.field 32 1) (compactForm (Bytes.field 32 generator.x) (generator.x + 1))
      generator.compress = true := by
    decide +kernel
  have hgenuine : secp256k1.judge (Bytes.field 32 1)
      (compactForm (Bytes.field 32 generator.x) (generator.x + 1)) generator.compress = validWord := by
    rw [secp256k1.judge_eq_validWord_iff, ← accepts_iff_passes]
    exact hlow
  obtain ⟨haccepts, hjudge⟩ := mirror_judged_alike (Bytes.field 32 1) generator.compress
    (Bytes.field 32 generator.x) hpos hlt
  exact ⟨hpos, hlt, by decide +kernel, haccepts ▸ hlow,
    (hjudge _ _ _ _ documented_secp256k1).1 ▸ hgenuine⟩

end SignedBoot.Curve
