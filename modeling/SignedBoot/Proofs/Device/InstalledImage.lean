import Mathlib.Data.List.Basic
import Mathlib.Tactic.Common
import SignedBoot.Proofs.Device.BootDecision
import SignedBoot.Proofs.Device.RequestEffects
import SignedBoot.Proofs.Flash.EraseSequence
import SignedBoot.Proofs.Host.UpdateRequests

/-!
# An image in memory

All requests of an update together program four runs: the first word at `entry`, everything from the
third word on in its own place, the size, and the signature. On a memory that was erased first this
leaves the image, moved as the device needs it, and nothing else. What is hashed of it later is the
image as the host has it.
-/

namespace SignedBoot.Device

open Flash Layout Wire Host

variable {n : Nat}

/-! ## The runs of an update -/

/-- All pieces of a run behind the first block are programmed like the run itself. -/
theorem applyAll_place_chunks {addr : Nat} (h : 0 < addr) (bs : Bytes) (cells : Vector UInt8 n) :
    applyAll (programChanges ((Image.place addr (Bytes.chunks maxChunkLen bs)).flatMap
      fun w => chunkWrites w.1 w.2)) cells = Nor.programCells cells addr bs := by
  fun_induction Bytes.chunks maxChunkLen bs generalizing addr cells with
  | case1 => rfl
  | case2 b bs ih =>
    have hpiece : chunkWrites addr (b :: bs.take (maxChunkLen - 1)) =
        segments addr ((b :: bs).take maxChunkLen) := if_neg (Nat.ne_of_gt h)
    have hrest := ih (Nat.add_pos_left h maxChunkLen)
    rw [Image.place, List.flatMap_cons, programChanges_append, applyAll_append, hpiece,
      applyAll_segments, hrest]
    exact programCells_take_drop cells addr maxChunkLen (b :: bs)

/-- All pieces of a run together are programmed like its first word at `entry` and everything from
its third word on in place. -/
theorem applyAll_pieceRequests (bytes : Bytes) (cells : Vector UInt8 n) :
    applyAll (programChanges ((pieceRequests bytes).flatMap requestWrites)) cells =
      Nor.programCells (Nor.programCells cells entry (bytes.take vectorLen)) (2 * vectorLen)
        (bytes.drop (2 * vectorLen)) := by
  by_cases hne : bytes = []
  · rw [hne, pieceRequests, Bytes.chunks]
    rfl
  have hsplit : Image.place 0 (Bytes.chunks maxChunkLen bytes) = (0, bytes.take maxChunkLen) ::
      Image.place maxChunkLen (Bytes.chunks maxChunkLen (bytes.drop maxChunkLen)) := by
    rw [Bytes.chunks_of_ne_nil (by decide) hne]
    rfl
  have hwrites : (pieceRequests bytes).flatMap requestWrites =
      (Image.place 0 (Bytes.chunks maxChunkLen bytes)).flatMap fun w => chunkWrites w.1 w.2 := by
    rw [pieceRequests, List.flatMap_map]
    rfl
  have hfirst : chunkWrites 0 (bytes.take maxChunkLen) =
      segments entry (bytes.take vectorLen) ++
        segments (2 * vectorLen) ((bytes.take maxChunkLen).drop (2 * vectorLen)) := by
    rw [chunkWrites, if_pos rfl, List.take_take]
    rfl
  have hthird : (bytes.take maxChunkLen).drop (2 * vectorLen) =
      (bytes.drop (2 * vectorLen)).take (maxChunkLen - 2 * vectorLen) := by
    rw [List.drop_take]
  have hrest : bytes.drop maxChunkLen =
      (bytes.drop (2 * vectorLen)).drop (maxChunkLen - 2 * vectorLen) := by
    rw [List.drop_drop]
    rfl
  rw [hwrites, hsplit, List.flatMap_cons, programChanges_append, applyAll_append, hfirst,
    programChanges_append, applyAll_append, applyAll_segments, applyAll_segments,
    applyAll_place_chunks (by decide), hthird, hrest]
  exact programCells_take_drop _ (2 * vectorLen) (maxChunkLen - 2 * vectorLen) _

theorem applyAll_dataRequests (image : Image) (cells : Vector UInt8 n) :
    applyAll (programChanges ((dataRequests image).flatMap requestWrites)) cells =
      Nor.programCells (Nor.programCells cells entry (image.bytes.take vectorLen)) (2 * vectorLen)
        (image.bytes.drop (2 * vectorLen)) :=
  applyAll_pieceRequests image.bytes cells

/-- The runs that an image and its size are programmed in: the first word, everything from the third
word on, and the size. -/
def loadRuns (bytes : Bytes) : List (Nat × Bytes) :=
  [(entry, bytes.take vectorLen), (2 * vectorLen, bytes.drop (2 * vectorLen)),
    (sizeField, Bytes.ofNat sizeLen bytes.length)]

/-- Where the runs end: the first word before the third, the rest before the record. -/
theorem loadRuns_bounds {bytes : Bytes} (hlt : bytes.length < signatureField) :
    4 + (bytes.take vectorLen).length ≤ 8 ∧ 8 + (bytes.drop (2 * vectorLen)).length ≤ 0x5FBD ∧
      (Bytes.ofNat sizeLen bytes.length).length = 3 := by
  have hfirst : (bytes.take vectorLen).length ≤ 4 := List.length_take_le _ _
  have hlt' : bytes.length < 0x5FBD := hlt
  refine ⟨by omega, ?_, Bytes.length_ofNat _ _⟩
  rw [List.length_drop]
  show 8 + (bytes.length - 8) ≤ 0x5FBD
  omega

theorem loadRuns_apart {bytes : Bytes} (hlt : bytes.length < signatureField) :
    (loadRuns bytes).Pairwise Apart := by
  obtain ⟨hfirst, hrest, -⟩ := loadRuns_bounds hlt
  have hword_body : Apart (entry, bytes.take vectorLen) (2 * vectorLen, bytes.drop (2 * vectorLen)) :=
    Or.inl hfirst
  have hword_size : Apart (entry, bytes.take vectorLen)
      (sizeField, Bytes.ofNat sizeLen bytes.length) :=
    Or.inl (show 4 + (bytes.take vectorLen).length ≤ 0x5FFD by omega)
  have hbody_size : Apart (2 * vectorLen, bytes.drop (2 * vectorLen))
      (sizeField, Bytes.ofNat sizeLen bytes.length) :=
    Or.inl (show 8 + (bytes.drop (2 * vectorLen)).length ≤ 0x5FFD by omega)
  simp only [loadRuns, List.pairwise_cons, List.forall_mem_cons, List.Pairwise.nil, and_true,
    List.not_mem_nil, false_imp_iff, implies_true]
  exact ⟨⟨hword_body, hword_size⟩, hbody_size⟩

/-- The runs that an update programs: the first word, everything from the third word on, the size and
the signature. -/
def imageRuns (image : Image) (signature : Vector UInt8 signatureLen) : List (Nat × Bytes) :=
  [(entry, image.bytes.take vectorLen), (2 * vectorLen, image.bytes.drop (2 * vectorLen)),
    (sizeField, Bytes.ofNat sizeLen image.size), (signatureField, signature.toList)]

/-- The requests of an update together program its runs. -/
theorem applyAll_programRequests (image : Image) (signature : Vector UInt8 signatureLen)
    (cells : Vector UInt8 n) :
    applyAll (programChanges ((programRequests image signature).flatMap requestWrites)) cells =
      applyAll (programChanges (imageRuns image signature)) cells := by
  rw [programRequests, List.flatMap_append, programChanges_append, applyAll_append,
    applyAll_dataRequests]
  simp only [List.flatMap_cons, List.flatMap_nil, requestWrites, List.append_nil,
    programChanges_append, applyAll_append, applyAll_segments, Bytes.toList_field]
  rfl

/-- Where the runs of an image end: the first word before the third, the image before the record. -/
theorem imageRuns_bounds (image : Image) (signature : Vector UInt8 signatureLen) :
    4 + (image.bytes.take vectorLen).length ≤ 8 ∧
      8 + (image.bytes.drop (2 * vectorLen)).length ≤ max 8 image.size ∧ image.size < 0x5FBD ∧
      (Bytes.ofNat sizeLen image.size).length = 3 ∧ signature.toList.length = 64 := by
  have hfirst : (image.bytes.take vectorLen).length ≤ 4 := List.length_take_le _ _
  refine ⟨by omega, ?_, image.length_lt, Bytes.length_ofNat _ _, signature.length_toList⟩
  rw [List.length_drop]
  show 8 + (image.bytes.length - 8) ≤ max 8 image.bytes.length
  omega

theorem imageRuns_apart (image : Image) (signature : Vector UInt8 signatureLen) :
    (imageRuns image signature).Pairwise Apart := by
  obtain ⟨hfirst, hrest, hlt, hsize, hsignature⟩ := imageRuns_bounds image signature
  have hsplit : imageRuns image signature =
      loadRuns image.bytes ++ [(signatureField, signature.toList)] := rfl
  rw [hsplit, List.pairwise_append]
  refine ⟨loadRuns_apart image.length_lt, List.pairwise_singleton _ _, fun v hv w hw => ?_⟩
  obtain rfl := List.mem_singleton.1 hw
  simp only [loadRuns, List.mem_cons, List.not_mem_nil, or_false] at hv
  rcases hv with rfl | rfl | rfl
  · exact Or.inl (show 4 + (image.bytes.take vectorLen).length ≤ 0x5FBD by omega)
  · exact Or.inl (show 8 + (image.bytes.drop (2 * vectorLen)).length ≤ 0x5FBD by omega)
  · exact Or.inr (show 0x5FBD + signature.toList.length ≤ 0x5FFD by omega)

/-! ## An installed image -/

/-- The cells hold an image as the device needs it, everything else below the loader is erased, and
the loader itself is still there. -/
structure Installed (vector : Bytes) (image : Image) (signature : Vector UInt8 signatureLen)
    (old cells : Vector UInt8 n) : Prop where
  /-- The reset vector is in its place. -/
  vector : StoredAt vector 0 cells
  /-- The first word of the image stands where the application is started. -/
  first : StoredAt (image.bytes.take vectorLen) entry cells
  /-- Everything from the third word on stands in its own place. -/
  rest : StoredAt (image.bytes.drop (2 * vectorLen)) (2 * vectorLen) cells
  /-- The size is stored. -/
  size : StoredAt (Bytes.ofNat sizeLen image.size) sizeField cells
  /-- The signature is stored. -/
  signature : StoredAt signature.toList signatureField cells
  /-- Between these runs the memory is erased. -/
  gaps : ∀ i (hi : i < n), entry + (image.bytes.take vectorLen).length ≤ i →
    i < 2 * vectorLen ∨ image.size ≤ i → i < signatureField → cells[i] = erased
  /-- From the loader on nothing has changed. -/
  loader : ∀ i (hi : i < n), loaderBase ≤ i → cells[i] = old[i]

/-- The requests of an update install its image in a memory that was erased first. -/
theorem installed_applyAll {vector : Bytes} (hvector : vector.length = vectorLen) (image : Image)
    (signature : Vector UInt8 signatureLen) {old cells : Vector UInt8 n}
    (hstored : StoredAt vector 0 cells)
    (herased : ∀ i (hi : i < n), vectorLen ≤ i → i < loaderBase → cells[i] = erased)
    (hloader : ∀ i (hi : i < n), loaderBase ≤ i → cells[i] = old[i]) :
    Installed vector image signature old
      (applyAll (programChanges ((programRequests image signature).flatMap requestWrites)) cells) := by
  rw [applyAll_programRequests]
  obtain ⟨hfirst, hrest, hlt, hsize, hsignature⟩ := imageRuns_bounds image signature
  have hput : ∀ addr bs, (addr, bs) ∈ imageRuns image signature → vectorLen ≤ addr →
      addr + bs.length ≤ loaderBase →
      StoredAt bs addr (applyAll (programChanges (imageRuns image signature)) cells) := by
    intro addr bs hmem hlow hhigh
    refine storedAt_applyAll_programChanges (imageRuns_apart image signature) hmem ?_
    intro i hi hge hend
    exact herased i hi (Nat.le_trans hlow hge) (Nat.lt_of_lt_of_le hend hhigh)
  have hkeep : ∀ i (hi : i < n), i < 4 ∨ 4 + (image.bytes.take vectorLen).length ≤ i →
      i < 8 ∨ max 8 image.size ≤ i → i < 0x5FBD ∨ 0x6000 ≤ i →
      (applyAll (programChanges (imageRuns image signature)) cells)[i] = cells[i] := by
    intro i hi hword hbody hrecord
    refine getElem_applyAll_programChanges hi (fun w hw => ?_) cells
    simp only [imageRuns, List.mem_cons, List.not_mem_nil, or_false] at hw
    rcases hw with rfl | rfl | rfl | rfl
    · exact hword
    · show i < 8 ∨ 8 + (image.bytes.drop (2 * vectorLen)).length ≤ i
      omega
    · show i < 0x5FFD ∨ 0x5FFD + (Bytes.ofNat sizeLen image.size).length ≤ i
      omega
    · show i < 0x5FBD ∨ 0x5FBD + signature.toList.length ≤ i
      omega
  refine ⟨?_, ?_, ?_, ?_, ?_, ?_, ?_⟩
  · refine hstored.of_unchanged fun i hi _ hend => ?_
    have hlow : i < 0 + 4 := by
      rw [hvector] at hend
      exact hend
    exact hkeep i hi (by omega) (by omega) (by omega)
  · refine hput entry _ (.head _) (Nat.le_refl 4) ?_
    show 4 + (image.bytes.take vectorLen).length ≤ 0x6000
    omega
  · refine hput (2 * vectorLen) _ (.tail _ (.head _)) (by decide) ?_
    show 8 + (image.bytes.drop (2 * vectorLen)).length ≤ 0x6000
    omega
  · refine hput sizeField _ (.tail _ (.tail _ (.head _))) (by decide) ?_
    show 0x5FFD + (Bytes.ofNat sizeLen image.size).length ≤ 0x6000
    omega
  · refine hput signatureField _ (.tail _ (.tail _ (.tail _ (.head _)))) (by decide) ?_
    show 0x5FBD + signature.toList.length ≤ 0x6000
    omega
  · intro i hi (hbehind : 4 + (image.bytes.take vectorLen).length ≤ i)
      (hgap : i < 8 ∨ image.size ≤ i) (hrecord : i < 0x5FBD)
    have hlow : 4 ≤ i := by omega
    rw [hkeep i hi (Or.inr hbehind) (by omega) (Or.inl hrecord)]
    exact herased i hi hlow (show i < 0x6000 by omega)
  · intro i hi hge
    have hge' : 0x6000 ≤ i := hge
    rw [hkeep i hi (by omega) (by omega) (by omega)]
    exact hloader i hi hge

/-! ## What is hashed of it -/

section
variable {m : Nor n} {bytes : Bytes} (hfirst : StoredAt (bytes.take vectorLen) entry m.cells)
  (hrest : StoredAt (bytes.drop (2 * vectorLen)) (2 * vectorLen) m.cells)
include hfirst hrest

/-- Of a run whose first word stands at `entry` and whose third word and all behind it stand in place,
everything but the second word is found again, and that reads as erased. -/
theorem signedByte_of_stored {i : Nat} (hi : i < bytes.length) (hn : bytes.length ≤ n)
    (hwords : 2 * vectorLen ≤ n) :
    signedByte m i = if vectorLen ≤ i ∧ i < 2 * vectorLen then erased else bytes[i] := by
  have hwords' : 8 ≤ n := hwords
  unfold signedByte
  by_cases hword : i < vectorLen
  · have hi4 : i < 4 := hword
    have hcell := hfirst i (by rw [List.length_take]; exact Nat.lt_min.2 ⟨hi4, hi⟩)
      (show 4 + i < n by omega)
    rw [if_pos hword, if_neg (fun h => absurd hword (Nat.not_lt.2 h.1)), Nat.add_comm,
      Vector.getElem?_eq_getElem (show 4 + i < n by omega)]
    rw [List.getElem_take] at hcell
    exact hcell
  rw [if_neg hword]
  by_cases hsecond : i < 2 * vectorLen
  · rw [if_pos hsecond, if_pos ⟨Nat.not_lt.1 hword, hsecond⟩]
  · have hi8 : ¬ i < 2 * 4 := hsecond
    obtain ⟨k, rfl⟩ : ∃ k, i = 8 + k := ⟨i - 8, by omega⟩
    have hcell := hrest k (by rw [List.length_drop]; show k < bytes.length - 8; omega)
      (show 8 + k < n by omega)
    rw [if_neg hsecond, if_neg (fun h => hsecond h.2),
      Vector.getElem?_eq_getElem (show 8 + k < n by omega)]
    rw [List.getElem_drop] at hcell
    exact hcell

/-- Such a run is hashed as it is exactly if it has nothing in its second word. -/
theorem signedBytes_eq_iff (hn : bytes.length ≤ n) (hwords : 2 * vectorLen ≤ n) :
    signedBytes m bytes.length = bytes ↔ ∀ b ∈ secondWord bytes, b = erased := by
  have hsecond : ∀ i (hi : i < (secondWord bytes).length), ∃ h : vectorLen + i < bytes.length,
      vectorLen + i < 2 * vectorLen ∧ (secondWord bytes)[i] = bytes[vectorLen + i] := by
    intro i hi
    have hlen : (secondWord bytes).length = min 4 (bytes.length - 4) := by
      unfold secondWord
      rw [List.length_take, List.length_drop]
    refine ⟨show 4 + i < bytes.length by omega, show 4 + i < 2 * 4 by omega, ?_⟩
    simp only [secondWord, List.getElem_take, List.getElem_drop]
  constructor
  · intro heq b hb
    obtain ⟨i, hi, rfl⟩ := List.mem_iff_getElem.1 hb
    obtain ⟨hlt, hword, hbyte⟩ := hsecond i hi
    have hlen : vectorLen + i < (signedBytes m bytes.length).length := by rwa [length_signedBytes]
    have hsigned : (signedBytes m bytes.length)[vectorLen + i] = bytes[vectorLen + i] := by
      simp only [heq]
    rw [getElem_signedBytes, signedByte_of_stored hfirst hrest hlt hn hwords,
      if_pos ⟨Nat.le_add_right _ _, hword⟩] at hsigned
    rw [hbyte, hsigned]
  · intro herased
    refine List.ext_getElem (length_signedBytes m bytes.length) fun i h1 h2 => ?_
    rw [getElem_signedBytes, signedByte_of_stored hfirst hrest h2 hn hwords]
    split
    · next hword =>
      obtain ⟨k, rfl⟩ := Nat.exists_eq_add_of_le hword.1
      have hword' : 4 + k < 2 * 4 := hword.2
      have hk : k < (secondWord bytes).length := by
        unfold secondWord
        rw [List.length_take, List.length_drop]
        show k < min 4 (bytes.length - 4)
        have hlt : 4 + k < bytes.length := h2
        omega
      obtain ⟨hlt, -, hbyte⟩ := hsecond k hk
      rw [← hbyte, herased _ (List.getElem_mem hk)]
    · rfl

end

theorem imageSize_of_stored {m : Nor n} {size : Nat}
    (h : StoredAt (Bytes.ofNat sizeLen size) sizeField m.cells) (hn : loaderBase ≤ n)
    (hlt : size ≤ maxAddress) : m.imageSize = .ok size := by
  have hlen : (Bytes.ofNat sizeLen size).length = sizeLen := Bytes.length_ofNat _ _
  have hslice : m.slice sizeField sizeLen = Bytes.ofNat sizeLen size := by
    have hstored := (storedAt_iff_slice (by rw [hlen]; exact hn)).1 h
    rw [hlen] at hstored
    exact hstored
  have hvalue : Bytes.toNat (Bytes.ofNat sizeLen size) = size := by
    rw [Bytes.toNat_ofNat, Nat.mod_eq_of_lt]
    exact Nat.lt_succ_of_le hlt
  unfold Nor.imageSize
  rw [m.read_eq_ok hn, hslice]
  exact congrArg Except.ok hvalue

theorem Installed.signedBytes_eq {vector : Bytes} {image : Image}
    {signature : Vector UInt8 signatureLen} {old : Vector UInt8 n} {m : Nor n}
    (h : Installed vector image signature old m.cells) (hn : loaderBase ≤ n) :
    signedBytes m image.size = image.bytes := by
  have hlt : image.bytes.length < 0x5FBD := image.length_lt
  have hn' : 0x6000 ≤ n := hn
  have hwords : 2 * 4 ≤ n := by omega
  exact (signedBytes_eq_iff h.first h.rest (by omega) hwords).2 image.second_erased

/-- A verification of an installed image asks about the image itself. -/
theorem Installed.verify_eq {vector : Bytes} {image : Image}
    {signature : Vector UInt8 signatureLen} {old : Vector UInt8 n} {m : Nor n}
    (h : Installed vector image signature old m.cells) (hn : loaderBase ≤ n) (check : Check)
    (key : Vector UInt8 33) :
    verify sha256 check key m = .ok (.judged ⟨sha256 image.bytes, signature, key⟩
      (check (sha256 image.bytes) signature key)) := by
  have hlt : image.size < 0x5FBD := image.length_lt
  have hsize : m.imageSize = .ok image.size :=
    imageSize_of_stored h.size hn (show image.size ≤ 0xFFFFFF by omega)
  have hpossible : PossibleSize image.size :=
    ⟨List.length_pos_iff.2 image.ne_nil, Nat.le_of_lt image.length_lt⟩
  have hsignature : m.signature = .ok signature := by
    have hfits : signatureField + signatureLen ≤ n := Nat.le_trans (by decide) hn
    unfold Nor.signature
    rw [dif_pos hfits]
    refine congrArg Except.ok (Vector.ext fun i hi => ?_)
    have hcell := h.signature i (by rw [Vector.length_toList]; exact hi) (by omega)
    rw [Vector.getElem_toList] at hcell
    rw [Vector.getElem_cast, Vector.getElem_extract]
    exact hcell
  refine (verify_eq_judged_iff sha256 check key m _ _).2
    ⟨image.size, signature, hsize, hpossible, hsignature, ?_, rfl⟩
  rw [h.signedBytes_eq hn]

end SignedBoot.Device
