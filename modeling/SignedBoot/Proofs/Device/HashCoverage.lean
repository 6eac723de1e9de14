import Mathlib.Data.List.Basic
import Mathlib.Tactic.Common
import SignedBoot.Proofs.Device.ResidentImage

/-!
# What the digest depends on

The hash is fed the image in the shape it was signed in, block by block. Every byte of that shape but
the erased second word stands in one cell of the memory, so two memories feed it alike exactly if they
agree in those cells. The reset vector is not among them, and neither is anything behind the image.
-/

namespace SignedBoot.Device

open Flash Layout

variable {n : Nat}

/-- Whether the digest of an image of the given size covers an address: those of the image's first
word, which lives at `entry`, and those from its third word on. -/
def Covers (size addr : Nat) : Prop :=
  entry ≤ addr ∧ addr < entry + min vectorLen size ∨ 2 * vectorLen ≤ addr ∧ addr < size

/-- Two memories hold the same bytes wherever the digest of an image of the given size looks. -/
def Alike (size : Nat) (m m' : Nor n) : Prop :=
  ∀ i (hi : i < n), Covers size i → m.cells[i] = m'.cells[i]

/-- What the hash is fed for an image of the given size: whole blocks and a last piece with what is
left over, which together are the image with its first word back in front and its second word
erased. -/
structure Feeds (m : Nor n) (size : Nat) (fed : List Bytes) : Prop where
  cut : ∃ whole last, fed = whole ++ [last] ∧ (∀ piece ∈ whole, piece.length = blockSize) ∧
    0 < last.length ∧ last.length ≤ blockSize ∧ blockSize * whole.length + last.length = size
  length : fed.flatten.length = size
  byte : ∀ i, i < size → fed.flatten[i]? =
    if i < vectorLen then m.cells[i + entry]?
    else if i < 2 * vectorLen then some erased
    else m.cells[i]?

/-! ## Single bytes -/

theorem signedByte_first {m : Nor n} {i : Nat} (hi : i < vectorLen) (hn : i + entry < n) :
    signedByte m i = m.cells[i + entry] := by
  rw [signedByte_of_lt m hi, Vector.getElem?_eq_getElem hn]
  rfl

theorem signedByte_behind {m : Nor n} {i : Nat} (hi : 2 * vectorLen ≤ i) (hn : i < n) :
    signedByte m i = m.cells[i] := by
  rw [signedByte_of_le m hi, Vector.getElem?_eq_getElem hn]
  rfl

/-! ## All bytes -/

/-- Two images of the same size have the same signed bytes exactly if the covered cells agree. -/
theorem signedBytes_eq_signedBytes_iff (hblock : blockSize ≤ n) {size : Nat} (hn : size ≤ n)
    (m m' : Nor n) : signedBytes m size = signedBytes m' size ↔ Alike size m m' := by
  have hblock' : 64 ≤ n := hblock
  rw [signedBytes, signedBytes, List.map_inj_left]
  constructor
  · rintro heq i hi (⟨hge, hlt⟩ | ⟨hge, hlt⟩)
    · -- a byte of the first word is hashed in front of where it is stored
      obtain ⟨k, rfl⟩ := Nat.exists_eq_add_of_le' hge
      obtain ⟨hword, hsize⟩ : k < vectorLen ∧ k < size := by
        have hlt' : k + 4 < 4 + min 4 size := hlt
        exact ⟨show k < 4 by omega, by omega⟩
      have hbyte := heq k (List.mem_range.2 hsize)
      rwa [signedByte_first hword hi, signedByte_first hword hi] at hbyte
    · have hbyte := heq i (List.mem_range.2 hlt)
      rwa [signedByte_behind hge hi, signedByte_behind hge hi] at hbyte
  · intro halike i hi
    have hsize : i < size := List.mem_range.1 hi
    by_cases hfirst : i < vectorLen
    · have hi4 : i < 4 := hfirst
      have hcell : i + entry < n := show i + 4 < n by omega
      have hcovers : Covers size (i + entry) :=
        .inl ⟨show 4 ≤ i + 4 by omega, show i + 4 < 4 + min 4 size by omega⟩
      rw [signedByte_first hfirst hcell, signedByte_first hfirst hcell]
      exact halike _ hcell hcovers
    by_cases hsecond : i < 2 * vectorLen
    · rw [signedByte_of_mem_second m (Nat.not_lt.1 hfirst) hsecond,
        signedByte_of_mem_second m' (Nat.not_lt.1 hfirst) hsecond]
    · have hge : 2 * vectorLen ≤ i := Nat.not_lt.1 hsecond
      have hcell : i < n := Nat.lt_of_lt_of_le hsize hn
      rw [signedByte_behind hge hcell, signedByte_behind hge hcell]
      exact halike i hcell (.inr ⟨hge, hsize⟩)

theorem getElem?_signedBytes (hblock : blockSize ≤ n) (m : Nor n) {size i : Nat} (hn : size ≤ n)
    (hi : i < size) : (signedBytes m size)[i]? =
      if i < vectorLen then m.cells[i + entry]?
      else if i < 2 * vectorLen then some erased
      else m.cells[i]? := by
  have hblock' : 64 ≤ n := hblock
  have hlen : i < (signedBytes m size).length := by rwa [length_signedBytes]
  rw [List.getElem?_eq_getElem hlen, getElem_signedBytes]
  split
  · next hfirst =>
    have hi4 : i < 4 := hfirst
    have hcell : i + entry < n := show i + 4 < n by omega
    rw [signedByte_first hfirst hcell, Vector.getElem?_eq_getElem hcell]
  next hfirst =>
  split
  · next hsecond => rw [signedByte_of_mem_second m (Nat.not_lt.1 hfirst) hsecond]
  · next hsecond =>
    have hcell : i < n := Nat.lt_of_lt_of_le hi hn
    rw [signedByte_behind (Nat.not_lt.1 hsecond) hcell, Vector.getElem?_eq_getElem hcell]

theorem feeds_chunks (hblock : blockSize ≤ n) (m : Nor n) {size : Nat} (hpos : 0 < size)
    (hn : size ≤ n) : Feeds m size (Bytes.chunks blockSize (signedBytes m size)) := by
  have hne : signedBytes m size ≠ [] := by
    rw [← List.length_pos_iff, length_signedBytes]
    exact hpos
  obtain ⟨whole, last, heq, hwhole, hlast, hle, hsum⟩ :=
    Bytes.exists_last_chunk (show 0 < blockSize by decide) hne
  rw [length_signedBytes] at hsum
  refine ⟨⟨whole, last, heq, hwhole, hlast, hle, hsum⟩, ?_, ?_⟩
  · rw [Bytes.flatten_chunks, length_signedBytes]
  · intro i hi
    rw [Bytes.flatten_chunks]
    exact getElem?_signedBytes hblock m hn hi

/-- The digest of an image that fits into the memory is that of all its bytes in the shape they were
signed in, fed block by block. Two memories feed the hash alike exactly if they hold the same first
word and the same bytes from the third word to the end of the image; nothing else in them has a say in
the digest. -/
theorem hash_covers_image (hblock : blockSize ≤ n) {size : Nat} (hpos : 0 < size) (hn : size ≤ n)
    (m m' : Nor n) :
    (∃ fed, pieces m size = (fed, none) ∧ Feeds m size fed) ∧
      ((pieces m size).1.flatten = (pieces m' size).1.flatten ↔ Alike size m m') ∧
      ∀ hash, imageDigest hash m size = .ok (hash (pieces m size).1.flatten) ∧
        (Alike size m m' → imageDigest hash m size = imageDigest hash m' size) := by
  have hstream : (pieces m size).1.flatten = (pieces m' size).1.flatten ↔ Alike size m m' := by
    rw [flatten_pieces m hblock hn, flatten_pieces m' hblock hn]
    exact signedBytes_eq_signedBytes_iff hblock hn m m'
  have hdigest (mem : Nor n) (hash : Bytes → Digest) :
      imageDigest hash mem size = .ok (hash (pieces mem size).1.flatten) := by
    rw [imageDigest_eq_ok hash mem hblock hn, flatten_pieces mem hblock hn]
  refine ⟨⟨_, pieces_eq_chunks m hblock hn, feeds_chunks hblock m hpos hn⟩, hstream, ?_⟩
  intro hash
  refine ⟨hdigest m hash, ?_⟩
  intro halike
  rw [hdigest m hash, hdigest m' hash, hstream.2 halike]

/-- Of an image of five bytes the hash is fed just these five, and whether the memory holds a reset
vector does not show in them. -/
theorem vector_not_hashed :
    (blockSize ≤ 64 ∧ 0 < 5 ∧ 5 ≤ 64) ∧
      (∃ fed, pieces (Nor.vectorOnly 64 [0x00, 0xEF, 0x30, 0xF0]) 5 = (fed, none) ∧
        Feeds (Nor.vectorOnly 64 [0x00, 0xEF, 0x30, 0xF0]) 5 fed) ∧
      (pieces (Nor.vectorOnly 64 [0x00, 0xEF, 0x30, 0xF0]) 5).1.flatten =
        (pieces (Nor.blank 64) 5).1.flatten ∧
      imageDigest sha256 (Nor.vectorOnly 64 [0x00, 0xEF, 0x30, 0xF0]) 5 =
        imageDigest sha256 (Nor.blank 64) 5 := by
  have hsizes : blockSize ≤ 64 ∧ 0 < 5 ∧ 5 ≤ 64 := by decide
  have halike : Alike 5 (Nor.vectorOnly 64 [0x00, 0xEF, 0x30, 0xF0]) (Nor.blank 64) := by
    intro i hi hcovers
    have hge : 4 ≤ i := by
      obtain ⟨hge, -⟩ | ⟨hge, -⟩ := hcovers
      · exact hge
      · exact Nat.le_trans (by decide) hge
    exact getElem_programCells_of_not_mem hi (.inr hge)
  obtain ⟨hfed, hstream, hdigest⟩ := hash_covers_image hsizes.1 hsizes.2.1 hsizes.2.2
    (Nor.vectorOnly 64 [0x00, 0xEF, 0x30, 0xF0]) (Nor.blank 64)
  exact ⟨hsizes, hfed, hstream.2 halike, (hdigest sha256).2 halike⟩

end SignedBoot.Device
