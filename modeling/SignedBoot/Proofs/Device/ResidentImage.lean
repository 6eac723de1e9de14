import Mathlib.Data.List.Basic
import Mathlib.Tactic.Common
import SignedBoot.Device.Verification
import SignedBoot.Proofs.Flash.Programming

/-!
# The bytes that are hashed

The resident image is hashed block by block, and its first block is brought into another shape on
the way. All pieces together are simply the bytes of the image in the shape it was signed in, each
of which is found in one cell of the memory or, in place of the second word, nowhere.
-/

namespace SignedBoot.Device

open Flash Layout

variable {n : Nat}

/-- The byte of the signed image that belongs to an address: the first word is read from `entry`, and
the second reads as erased. -/
def signedByte (m : Nor n) (addr : Nat) : UInt8 :=
  if addr < vectorLen then m.cells[addr + entry]?.getD erased
  else if addr < 2 * vectorLen then erased
  else m.cells[addr]?.getD erased

theorem signedByte_of_lt (m : Nor n) {i : Nat} (h : i < vectorLen) :
    signedByte m i = m.cells[i + entry]?.getD erased :=
  if_pos h

theorem signedByte_of_mem_second (m : Nor n) {i : Nat} (hge : vectorLen ≤ i)
    (hlt : i < 2 * vectorLen) : signedByte m i = erased := by
  rw [signedByte, if_neg (Nat.not_lt.2 hge), if_pos hlt]

theorem signedByte_of_le (m : Nor n) {i : Nat} (h : 2 * vectorLen ≤ i) :
    signedByte m i = m.cells[i]?.getD erased := by
  have hfirst : vectorLen ≤ i := Nat.le_trans (by decide) h
  rw [signedByte, if_neg (Nat.not_lt.2 hfirst), if_neg (Nat.not_lt.2 h)]

/-- The bytes of a signed image of the given size. -/
def signedBytes (m : Nor n) (size : Nat) : Bytes :=
  (List.range size).map (signedByte m)

theorem length_signedBytes (m : Nor n) (size : Nat) : (signedBytes m size).length = size := by
  rw [signedBytes, List.length_map, List.length_range]

theorem getElem_signedBytes {m : Nor n} {size i : Nat} (hi : i < (signedBytes m size).length) :
    (signedBytes m size)[i] = signedByte m i := by
  simp [signedBytes]

theorem slice_eq_map (m : Nor n) {addr len : Nat} (h : addr + len ≤ n) :
    m.slice addr len = (List.range' addr len).map fun i => m.cells[i]?.getD erased := by
  refine List.ext_getElem ?_ fun i h1 h2 => ?_
  · rw [m.length_slice h, List.length_map, List.length_range']
  · have hi : i < len := by rwa [m.length_slice h] at h1
    have hn : addr + i < n := by omega
    rw [m.getElem_slice h1 hn, List.getElem_map, List.getElem_range', Nat.one_mul,
      Vector.getElem?_eq_getElem hn]
    rfl

/-- Behind the words that trade places the memory holds the signed bytes as they are. -/
theorem slice_eq_map_signedByte (m : Nor n) {addr len : Nat} (h : addr + len ≤ n)
    (hpast : 2 * vectorLen ≤ addr) :
    m.slice addr len = (List.range' addr len).map (signedByte m) := by
  rw [slice_eq_map m h]
  refine List.map_congr_left fun i hi => ?_
  exact (signedByte_of_le m (Nat.le_trans hpast (List.mem_range'_1.1 hi).1)).symm

theorem canonical_slice (m : Nor n) (h : blockSize ≤ n) :
    canonical (m.slice 0 blockSize) = (List.range' 0 blockSize).map (signedByte m) := by
  have hblock : m.slice 0 blockSize =
      (List.range' 0 blockSize).map fun i => m.cells[i]?.getD erased :=
    slice_eq_map m (by rw [Nat.zero_add]; exact h)
  have hword : ((m.slice 0 blockSize).drop vectorLen).take vectorLen =
      (List.range' 0 vectorLen).map (signedByte m) := by
    have hrange : ((List.range' 0 blockSize).drop vectorLen).take vectorLen =
        (List.range' 0 vectorLen).map (· + entry) := by decide
    rw [hblock, ← List.map_drop, ← List.map_take, hrange, List.map_map]
    refine List.map_congr_left fun i hi => ?_
    have hv : i < vectorLen := by simpa using (List.mem_range'_1.1 hi).2
    exact (signedByte_of_lt m hv).symm
  have hgap : List.replicate vectorLen erased =
      (List.range' vectorLen vectorLen).map (signedByte m) := rfl
  have htail : (m.slice 0 blockSize).drop (2 * vectorLen) =
      (List.range' (2 * vectorLen) (blockSize - 2 * vectorLen)).map (signedByte m) := by
    have hrange : (List.range' 0 blockSize).drop (2 * vectorLen) =
        List.range' (2 * vectorLen) (blockSize - 2 * vectorLen) := by decide
    rw [hblock, ← List.map_drop, hrange]
    refine List.map_congr_left fun i hi => ?_
    exact (signedByte_of_le m (List.mem_range'_1.1 hi).1).symm
  have hsplit : List.range' 0 blockSize = List.range' 0 vectorLen ++
      List.range' vectorLen vectorLen ++
      List.range' (2 * vectorLen) (blockSize - 2 * vectorLen) := by decide
  rw [canonical, hword, hgap, htail, ← List.map_append, ← List.map_append, ← hsplit]

theorem readPiece_eq_ok (m : Nor n) {addr len : Nat} (hn : addr + len ≤ n) (hblock : blockSize ≤ n)
    (haligned : addr % blockSize = 0) (hlen : len ≤ blockSize) :
    readPiece m addr len = .ok ((List.range' addr len).map (signedByte m)) := by
  rw [readPiece]
  by_cases h0 : addr = 0
  · subst h0
    have htake : (List.range' 0 blockSize).take len = List.range' 0 len := by
      obtain ⟨rest, hrest⟩ := Nat.exists_eq_add_of_le hlen
      rw [hrest, ← List.range'_append_1, List.take_left' List.length_range']
    rw [if_pos rfl, m.read_eq_ok (by omega)]
    show Except.ok ((canonical (m.slice 0 blockSize)).take len) = _
    rw [canonical_slice m hblock, ← List.map_take, htake]
  · have hpast : 2 * vectorLen ≤ addr := by
      have hmod : addr % 64 = 0 := haligned
      show 2 * 4 ≤ addr
      omega
    rw [if_neg h0, m.read_eq_ok hn, slice_eq_map_signedByte m hn hpast]

/-- From a block boundary on the pieces are the signed bytes of those addresses, cut into blocks. -/
theorem pieces_go_eq_chunks (m : Nor n) (hblock : blockSize ≤ n) {addr remaining : Nat}
    (hn : addr + remaining ≤ n) (haligned : addr % blockSize = 0) :
    pieces.go m addr remaining =
      (Bytes.chunks blockSize ((List.range' addr remaining).map (signedByte m)), none) := by
  fun_induction pieces.go m addr remaining with
  | case1 addr =>
    rw [List.range'_zero, List.map_nil, Bytes.chunks]
  | case2 addr remaining hne len e hread =>
    have hpiece := readPiece_eq_ok m (by omega) hblock haligned (Nat.min_le_right remaining blockSize)
    rw [hread] at hpiece
    cases hpiece
  | case3 addr remaining hne len piece hread rest ih =>
    have hpiece := readPiece_eq_ok m (by omega) hblock haligned (Nat.min_le_right remaining blockSize)
    rw [hread] at hpiece
    obtain rfl := Except.ok.inj hpiece
    have hlen : len = min remaining blockSize := rfl
    have hsplit : List.range' addr remaining =
        List.range' addr len ++ List.range' (addr + len) (remaining - len) := by
      rw [List.range'_append_1]
      congr 1
      omega
    have hfront : ((List.range' addr len).map (signedByte m)).length = len := by
      rw [List.length_map, List.length_range']
    have hnonempty : (List.range' addr len).map (signedByte m) ≠ [] := by
      rw [← List.length_pos_iff, hfront]
      exact Nat.lt_min.2 ⟨Nat.pos_of_ne_zero hne, by decide⟩
    -- the last piece may end inside a block, but nothing follows it
    have hlast : remaining ≤ blockSize → remaining - len = 0 := by omega
    have hfull : (List.range' (addr + len) (remaining - len)).map (signedByte m) = [] ∨
        ((List.range' addr len).map (signedByte m)).length = blockSize := by
      by_cases hle : remaining ≤ blockSize
      · rw [hlast hle]
        exact .inl rfl
      · rw [hfront]
        exact .inr (Nat.min_eq_right (Nat.le_of_not_le hle))
    have hrest : rest = (Bytes.chunks blockSize
        ((List.range' (addr + len) (remaining - len)).map (signedByte m)), none) := by
      by_cases hle : remaining ≤ blockSize
      · show pieces.go m (addr + len) (remaining - len) = _
        rw [hlast hle, pieces.go, if_pos rfl, List.range'_zero, List.map_nil, Bytes.chunks]
      · have hwhole : len = blockSize := Nat.min_eq_right (Nat.le_of_not_le hle)
        exact ih (by omega) (by rw [hwhole, Nat.add_mod_right]; exact haligned)
    rw [hsplit, List.map_append, Bytes.chunks_append hnonempty (by omega) hfull, hrest]

/-- The pieces of an image that fits into the memory are its signed bytes, cut into blocks. -/
theorem pieces_eq_chunks (m : Nor n) (hblock : blockSize ≤ n) {size : Nat} (hn : size ≤ n) :
    pieces m size = (Bytes.chunks blockSize (signedBytes m size), none) := by
  rw [signedBytes, List.range_eq_range']
  exact pieces_go_eq_chunks m hblock (show 0 + size ≤ n by omega) rfl

/-- All pieces together are the signed bytes. -/
theorem flatten_pieces (m : Nor n) (hblock : blockSize ≤ n) {size : Nat} (hn : size ≤ n) :
    (pieces m size).1.flatten = signedBytes m size := by
  rw [pieces_eq_chunks m hblock hn]
  exact Bytes.flatten_chunks blockSize _

/-- What is hashed of an image that fits into the memory are its signed bytes. -/
theorem imageDigest_eq_ok (hash : Bytes → Digest) (m : Nor n) (hblock : blockSize ≤ n) {size : Nat}
    (hn : size ≤ n) : imageDigest hash m size = .ok (hash (signedBytes m size)) := by
  unfold imageDigest digesting
  rw [pieces_eq_chunks m hblock hn]
  show Except.ok (hash (Bytes.chunks blockSize (signedBytes m size)).flatten) = _
  rw [Bytes.flatten_chunks]

end SignedBoot.Device
