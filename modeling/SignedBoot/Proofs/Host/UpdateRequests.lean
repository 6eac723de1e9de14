import Mathlib.Data.List.Basic
import Mathlib.Tactic.Common
import SignedBoot.Host.Update
import SignedBoot.Proofs.Device.RequestEffects
import SignedBoot.Proofs.Wire.RequestCodec

/-!
# The requests of an update

An update is the pieces of an image, its size, its signature and the word to stop. Whatever the
image, every one of these requests has a frame, is read back from it, and is not denied by the
device: an image that the host accepts is one that the device takes.
-/

namespace SignedBoot

namespace Host

open Layout Wire

/-! ## The pieces of an image -/

/-- The image that is a single byte. -/
def Image.ofByte (b : UInt8) : Image where
  bytes := [b]
  ne_nil := List.cons_ne_nil b []
  length_lt := show 1 < signatureField by decide
  second_erased := fun _ h => absurd h List.not_mem_nil

/-- Every piece stands at its own place in the run. -/
theorem mem_place_chunks {addr : Nat} {bs : Bytes} {w : Nat × Bytes}
    (hw : w ∈ Image.place addr (Bytes.chunks maxChunkLen bs)) :
    ∃ k, k % 64 = 0 ∧ k < bs.length ∧ w = (addr + k, (bs.drop k).take maxChunkLen) := by
  fun_induction Bytes.chunks maxChunkLen bs generalizing addr with
  | case1 => cases hw
  | case2 b bs ih =>
    rcases List.mem_cons.1 hw with rfl | hw
    · exact ⟨0, rfl, Nat.zero_lt_succ _, rfl⟩
    · obtain ⟨k, hk, hlt, rfl⟩ := ih hw
      have hlen : k < bs.length - 63 := by rwa [List.length_drop] at hlt
      have hdrop : (bs.drop (maxChunkLen - 1)).drop k = (b :: bs).drop (maxChunkLen + k) := by
        have hnext : maxChunkLen + k = (maxChunkLen - 1 + k) + 1 := by
          show 64 + k = 64 - 1 + k + 1
          omega
        rw [List.drop_drop, hnext, List.drop_succ_cons]
      refine ⟨maxChunkLen + k, ?_, ?_, ?_⟩
      · show (64 + k) % 64 = 0
        omega
      · show 64 + k < bs.length + 1
        omega
      · rw [hdrop, Nat.add_assoc]

/-- The pieces of a run start on block boundaries inside the run, and none is empty. -/
theorem mem_pieces {bs : Bytes} {w : Nat × Bytes}
    (hw : w ∈ Image.place 0 (Bytes.chunks maxChunkLen bs)) :
    w.1 % 64 = 0 ∧ w.2 ≠ [] ∧ w.2.length ≤ maxChunkLen ∧ w.1 + w.2.length ≤ bs.length ∧
      w.2 = (bs.drop w.1).take maxChunkLen := by
  obtain ⟨k, hk, hlt, rfl⟩ := mem_place_chunks hw
  have hlen : ((bs.drop k).take maxChunkLen).length = min 64 (bs.length - k) := by
    rw [List.length_take, List.length_drop]
  refine ⟨?_, ?_, ?_, ?_, ?_⟩
  · simpa using hk
  · rw [← List.length_pos_iff, hlen]
    omega
  · rw [hlen]
    exact Nat.min_le_left 64 _
  · simp only [hlen]
    omega
  · simp only [Nat.zero_add]

theorem mem_chunks {image : Image} {w : Nat × Bytes} (hw : w ∈ image.chunks) :
    w.1 % 64 = 0 ∧ w.2 ≠ [] ∧ w.2.length ≤ maxChunkLen ∧
      w.1 + w.2.length ≤ image.bytes.length ∧ w.2 = (image.bytes.drop w.1).take maxChunkLen :=
  mem_pieces hw

/-- The last piece of a run ends where the run ends. -/
theorem exists_last_piece (addr : Nat) {bs : Bytes} (h : bs ≠ []) :
    ∃ w ∈ Image.place addr (Bytes.chunks maxChunkLen bs), w.1 + w.2.length = addr + bs.length := by
  fun_induction Bytes.chunks maxChunkLen bs generalizing addr with
  | case1 => exact absurd rfl h
  | case2 b bs ih =>
    by_cases hlast : bs.drop (maxChunkLen - 1) = []
    · have hlen : bs.length ≤ maxChunkLen - 1 := List.drop_eq_nil_iff.1 hlast
      refine ⟨_, List.mem_cons_self, ?_⟩
      rw [List.take_of_length_le hlen]
    · obtain ⟨w, hw, hend⟩ := ih (addr + maxChunkLen) hlast
      have hlen : ¬ bs.length ≤ maxChunkLen - 1 := fun hle => hlast (List.drop_eq_nil_iff.2 hle)
      refine ⟨w, List.mem_cons_of_mem _ hw, ?_⟩
      rw [hend, List.length_drop, List.length_cons]
      show addr + 64 + (bs.length - 63) = addr + (bs.length + 1)
      have hlen' : ¬ bs.length ≤ 63 := hlen
      omega

/-! ## The requests -/

/-- The requests that program a run piece by piece, from address 0 on. -/
def pieceRequests (bytes : Bytes) : List Request :=
  (Image.place 0 (Bytes.chunks maxChunkLen bytes)).map fun piece => .data piece.1 piece.2

theorem mem_pieceRequests {bytes : Bytes} {r : Request} (hr : r ∈ pieceRequests bytes) :
    r.HasBytes ∧ Device.reaction r = .proceed := by
  obtain ⟨w, hw, rfl⟩ := List.mem_map.1 hr
  exact ⟨(mem_pieces hw).2.1, rfl⟩

/-- The device takes all pieces of a run exactly if the run ends below the signature record. -/
theorem pieceRequests_taken_iff (bytes : Bytes) :
    (∀ r ∈ pieceRequests bytes, r.Fits ∧ ¬ Device.Denied r) ↔ bytes.length < signatureField := by
  constructor
  · intro h
    by_cases hne : bytes = []
    · rw [hne]
      decide
    obtain ⟨w, hw, hend⟩ := exists_last_piece 0 hne
    have hdenied : ¬ signatureField ≤ w.1 + w.2.length := (h _ (List.mem_map_of_mem hw)).2
    rw [hend, Nat.zero_add] at hdenied
    exact Nat.not_le.1 hdenied
  · intro hlt r hr
    obtain ⟨w, hw, rfl⟩ := List.mem_map.1 hr
    obtain ⟨-, -, hlen, hend, -⟩ := mem_pieces hw
    have hlt' : bytes.length < 0x6000 - 3 - 64 := hlt
    refine ⟨⟨hlen, ?_⟩, ?_⟩
    · show w.1 ≤ 0xFFFFFF
      omega
    · show ¬ 0x6000 - 3 - 64 ≤ w.1 + w.2.length
      omega

/-- The requests that program an image, its size and its signature. -/
def programRequests (image : Image) (signature : Vector UInt8 signatureLen) : List Request :=
  dataRequests image ++ [.size (Bytes.field sizeLen image.size), .signature signature]

theorem length_programRequests (image : Image) (signature : Vector UInt8 signatureLen) :
    (programRequests image signature).length = image.chunks.length + 2 := by
  rw [programRequests, List.length_append, dataRequests, List.length_map]
  rfl

/-- The requests of an update, in the order in which they are sent. -/
def updateRequests (image : Image) (signature : Vector UInt8 signatureLen) : List Request :=
  programRequests image signature ++ [.stop]

/-- The pieces of a run, one for each block that it reaches. -/
theorem place_chunks_eq_map (addr : Nat) (bs : Bytes) :
    Image.place addr (Bytes.chunks maxChunkLen bs) =
      (List.range ((bs.length + 63) / 64)).map
        fun i => (addr + 64 * i, (bs.drop (64 * i)).take 64) := by
  fun_induction Bytes.chunks maxChunkLen bs generalizing addr with
  | case1 => rfl
  | case2 b bs ih =>
    have hcount : ((b :: bs).length + 63) / 64 =
        ((bs.drop (maxChunkLen - 1)).length + 63) / 64 + 1 := by
      rw [List.length_drop, List.length_cons]
      show (bs.length + 1 + 63) / 64 = (bs.length - 63 + 63) / 64 + 1
      omega
    rw [hcount, List.range_succ_eq_map, List.map_cons, List.map_map, Image.place, ih]
    refine congrArg₂ List.cons rfl (List.map_congr_left fun i _ => ?_)
    have hdrop : (bs.drop (maxChunkLen - 1)).drop (64 * i) = (b :: bs).drop (64 * (i + 1)) := by
      have hnext : 64 * (i + 1) = (maxChunkLen - 1 + 64 * i) + 1 := by
        show 64 * (i + 1) = 64 - 1 + 64 * i + 1
        omega
      rw [List.drop_drop, hnext, List.drop_succ_cons]
    show (addr + 64 + 64 * i, _) = (addr + 64 * (i + 1), _)
    rw [hdrop, Nat.mul_succ, Nat.add_assoc, Nat.add_comm 64]

/-- The requests of an update, one by one. -/
theorem updateRequests_eq (image : Image) (signature : Vector UInt8 signatureLen) :
    updateRequests image signature =
      (List.range ((image.size + 63) / 64)).map
        (fun i => .data (64 * i) ((image.bytes.drop (64 * i)).take 64)) ++
      [.size (Bytes.field sizeLen image.size), .signature signature, .stop] := by
  have hdata : dataRequests image = (List.range ((image.size + 63) / 64)).map
      fun i => .data (64 * i) ((image.bytes.drop (64 * i)).take 64) := by
    rw [dataRequests, Image.chunks, place_chunks_eq_map, List.map_map]
    refine List.map_congr_left fun i _ => ?_
    show Request.data (0 + 64 * i) _ = _
    rw [Nat.zero_add]
  rw [updateRequests, programRequests, hdata, List.append_assoc]
  rfl

theorem ofSize?_size (image : Image) :
    Request.ofSize? image.size = some (.size (Bytes.field sizeLen image.size)) := by
  have hlt : image.size < signatureField := image.length_lt
  exact if_pos (Nat.le_trans (Nat.le_of_lt hlt) (by decide))

/-- Every request but the last is sent once the one before it has been acknowledged, and the last is
sent and left alone. -/
theorem flash_eq (image : Image) (signature : Vector UInt8 signatureLen) :
    flash image signature =
      (programRequests image signature).forM request >>= fun _ => send .stop := by
  have happend : ((programRequests image signature).forM request : Attempt Line Failure Unit) =
      (dataRequests image).forM request >>= fun _ =>
        List.forM [.size (Bytes.field sizeLen image.size), .signature signature] request :=
    List.forM_append
  have hpair : (List.forM [.size (Bytes.field sizeLen image.size), .signature signature] request :
      Attempt Line Failure Unit) =
      request (.size (Bytes.field sizeLen image.size)) >>= fun _ => request (.signature signature) := by
    have hlast : (request (.signature signature) >>= fun _ => pure ()) =
        request (.signature signature) := bind_pure _
    rw [← hlast]
    rfl
  rw [happend, hpair]
  unfold flash
  rw [ofSize?_size]
  simp only [bind_assoc]

/-- Every request that programs has a frame, is read back from it, and is executed. -/
theorem mem_programRequests {image : Image} {signature : Vector UInt8 signatureLen} {r : Request}
    (hr : r ∈ programRequests image signature) :
    r.Fits ∧ r.HasBytes ∧ ¬ Device.Denied r ∧ Device.reaction r = .proceed := by
  rcases List.mem_append.1 hr with hr | hr
  · obtain ⟨hbytes, hproceed⟩ := mem_pieceRequests hr
    obtain ⟨hfits, hdenied⟩ := (pieceRequests_taken_iff image.bytes).2 image.length_lt r hr
    exact ⟨hfits, hbytes, hdenied, hproceed⟩
  · simp only [List.mem_cons, List.not_mem_nil, or_false] at hr
    rcases hr with rfl | rfl
    · exact ⟨trivial, trivial, id, rfl⟩
    · exact ⟨trivial, trivial, id, rfl⟩

theorem mem_updateRequests {image : Image} {signature : Vector UInt8 signatureLen} {r : Request}
    (hr : r ∈ updateRequests image signature) : r.Fits ∧ r.HasBytes := by
  rcases List.mem_append.1 hr with hr | hr
  · obtain ⟨hfits, hbytes, -⟩ := mem_programRequests hr
    exact ⟨hfits, hbytes⟩
  · obtain rfl := List.mem_singleton.1 hr
    exact ⟨trivial, trivial⟩

end Host

end SignedBoot
