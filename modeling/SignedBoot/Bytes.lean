/-!
# Bytes

Everything that crosses the serial line or sits in program memory is a list of bytes. This module
holds the two number formats built on them: big-endian fields of a fixed width, and hexadecimal
text. A field drops whatever does not fit its width, so reading it back gives the number modulo
the width.
-/

namespace SignedBoot

/-- A run of bytes, in the order in which they are sent or stored. -/
abbrev Bytes := List UInt8

namespace Bytes

/-- The number whose big-endian digits in base 256 are the given bytes. -/
def toNat (bs : Bytes) : Nat :=
  bs.foldl (fun acc b => acc * 256 + b.toNat) 0

/-- How many numbers a field of `width` bytes tells apart. -/
def span (width : Nat) : Nat :=
  Nat.pow 256 width

/-- The `width` low bytes of a number, most significant first. -/
def ofNat (width n : Nat) : Bytes :=
  match width with
  | 0 => []
  | width + 1 => UInt8.ofNat (n / span width) :: ofNat width n

theorem length_ofNat (width n : Nat) : (ofNat width n).length = width := by
  induction width with
  | zero => rfl
  | succ width ih => simp [ofNat, ih]

/-- A field of exactly `width` bytes, if the run has that length. -/
def toField? (width : Nat) (bs : Bytes) : Option (Vector UInt8 width) :=
  if h : bs.length = width then some ⟨bs.toArray, by simpa using h⟩ else none

/-- The big-endian field of `width` bytes that holds the low bytes of a number. -/
def field (width n : Nat) : Vector UInt8 width :=
  ⟨(ofNat width n).toArray, by simp [length_ofNat]⟩

/-- The number stored in a big-endian field. -/
def ofField {width : Nat} (v : Vector UInt8 width) : Nat :=
  toNat v.toList

/-- Cuts a run into pieces of `size` bytes, the last of which may be shorter. -/
def chunks (size : Nat) : Bytes → List Bytes
  | [] => []
  | b :: bs => (b :: bs.take (size - 1)) :: chunks size (bs.drop (size - 1))
termination_by bs => bs.length
decreasing_by
  simp only [List.length_drop, List.length_cons]
  omega

/-- The first piece is a front part of the run, and the others are cut from what is left. -/
theorem chunks_of_ne_nil {size : Nat} (hsize : 0 < size) {bs : Bytes} (h : bs ≠ []) :
    chunks size bs = bs.take size :: chunks size (bs.drop size) := by
  obtain ⟨b, bs, rfl⟩ := List.exists_cons_of_ne_nil h
  obtain ⟨k, rfl⟩ := Nat.exists_eq_succ_of_ne_zero (Nat.ne_of_gt hsize)
  rw [chunks]
  rfl

/-- A front part that fills a piece, or behind which nothing follows, is the first piece. -/
theorem chunks_append {size : Nat} {front rest : Bytes} (hne : front ≠ [])
    (hle : front.length ≤ size) (hfull : rest = [] ∨ front.length = size) :
    chunks size (front ++ rest) = front :: chunks size rest := by
  have hsize : 0 < size := Nat.lt_of_lt_of_le (List.length_pos_iff.2 hne) hle
  rw [chunks_of_ne_nil hsize (List.append_ne_nil_of_left_ne_nil hne rest)]
  obtain rfl | hfull := hfull
  · rw [List.append_nil, List.take_of_length_le hle, List.drop_of_length_le hle]
  · rw [List.take_left' hfull, List.drop_left' hfull]

/-- The pieces laid end to end are the run. -/
theorem flatten_chunks (size : Nat) (bs : Bytes) : (chunks size bs).flatten = bs := by
  fun_induction chunks size bs with
  | case1 => rfl
  | case2 b bs ih => rw [List.flatten_cons, ih, List.cons_append, List.take_append_drop]

/-- All pieces but the last have the full size, and the last has what is left over from them. -/
theorem exists_last_chunk {size : Nat} (hsize : 0 < size) {bs : Bytes} (h : bs ≠ []) :
    ∃ whole last, chunks size bs = whole ++ [last] ∧ (∀ piece ∈ whole, piece.length = size) ∧
      0 < last.length ∧ last.length ≤ size ∧ size * whole.length + last.length = bs.length := by
  fun_induction chunks size bs with
  | case1 => exact absurd rfl h
  | case2 b bs ih =>
    have hfirst : (b :: bs.take (size - 1)).length = min (size - 1) bs.length + 1 := by
      rw [List.length_cons, List.length_take]
    by_cases hrest : bs.drop (size - 1) = []
    · have hlen : bs.length ≤ size - 1 := List.drop_eq_nil_iff.1 hrest
      refine ⟨[], _, by rw [hrest, chunks, List.nil_append], ?_, ?_, ?_, ?_⟩
      · intro piece hpiece
        cases hpiece
      · rw [hfirst]
        omega
      · rw [hfirst]
        omega
      · rw [hfirst, List.length_nil, List.length_cons]
        omega
    · have hlen : ¬ bs.length ≤ size - 1 := fun hle => hrest (List.drop_eq_nil_iff.2 hle)
      obtain ⟨whole, last, heq, hwhole, hpos, hle, hsum⟩ := ih hrest
      refine ⟨(b :: bs.take (size - 1)) :: whole, last, by rw [heq, List.cons_append], ?_, hpos, hle,
        ?_⟩
      · intro piece hpiece
        obtain rfl | hpiece := List.mem_cons.1 hpiece
        · rw [hfirst]
          omega
        · exact hwhole piece hpiece
      · rw [List.length_drop] at hsum
        rw [List.length_cons, List.length_cons, Nat.mul_succ]
        omega

/-- A lower-case hexadecimal digit. -/
def hexDigit (n : Nat) : Char :=
  if n < 10 then Char.ofNat (48 + n) else Char.ofNat (87 + n)

/-- An upper-case hexadecimal digit. -/
def hexDigitUpper (n : Nat) : Char :=
  if n < 10 then Char.ofNat (48 + n) else Char.ofNat (55 + n)

/-- Two lower-case digits per byte. -/
def toHex (bs : Bytes) : String :=
  String.ofList (bs.flatMap fun b => [hexDigit (b.toNat / 16), hexDigit (b.toNat % 16)])

/-- The two upper-case digits of one byte. -/
def upperPair (b : UInt8) : List Char :=
  [hexDigitUpper (b.toNat / 16), hexDigitUpper (b.toNat % 16)]

/-- The value of a hexadecimal digit of either case; no other character has one. -/
def hexValue? (c : Char) : Option Nat :=
  if '0' ≤ c ∧ c ≤ '9' then some (c.toNat - 48)
  else if 'a' ≤ c ∧ c ≤ 'f' then some (c.toNat - 87)
  else if 'A' ≤ c ∧ c ≤ 'F' then some (c.toNat - 55)
  else none

/-- The bytes written by pairs of hexadecimal digits. A lone last digit, or any other character,
makes the text no number at all. -/
def ofHex? : List Char → Option Bytes
  | [] => some []
  | [_] => none
  | hi :: lo :: rest => do
    let h ← hexValue? hi
    let l ← hexValue? lo
    let tail ← ofHex? rest
    return UInt8.ofNat (h * 16 + l) :: tail

end Bytes

end SignedBoot
